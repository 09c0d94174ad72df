import Upciedev.Access.WindowConfinement
import Upciedev.Foundations.Progress
import Upciedev.Locking.RequestOrder

/-!
# The end of all requests on a board

A request that finds the region of its board free comes to its end and leaves the region free,
unless it is a read or write whose request structure cannot be copied. Any number of requests
without such ones come to their ends, whatever the interleaving.
-/
namespace Upciedev

open Foundations Program

variable {δ μ : Type}

def Environment.Total {ε : Type} (E : Environment ε) : Prop := ∀ c e, ∃ r e', E c e r e'

@[reducible] def Op.Returns : Op → Prop
  | .fault _ => False
  | _ => True

theorem barEntry_answers {α : Type} (arr : Bar → α) (i : UInt32) (a : α) :
    ∃ r, barEntry arr i r := by
  by_cases h : i.toNat < numberOfBars
  · exact ⟨arr ⟨i.toNat, h⟩, fun _ => rfl⟩
  · exact ⟨a, fun hlt => absurd hlt h⟩

theorem driver_answers {ε : Type} {E : Environment ε} (hE : E.Total) {op : Op} (hop : op.Returns)
    (w : World ε) :
    ∃ r w', driver E op w r w' := by
  cases op with
  | privateData | load | cdev | drvdata | baseRow | baseBar => exact ⟨_, _, rfl, rfl⟩
  | enterCritRegion | leaveCritRegion | longLockOfCriticalRegion | unlockLongCritRegion =>
      exact ⟨_, _, rfl, rfl⟩
  | setPrivateData | setFPos | store | setCdev | setDrvdata | setBaseRow | setBaseBar | note =>
      exact ⟨(), _, rfl⟩
  | memmoryBase d i =>
    obtain ⟨r, hr⟩ := barEntry_answers (w.pciedevDevM d).memmoryBase i none
    exact ⟨r, _, hr, rfl⟩
  | memBase d i =>
    obtain ⟨r, hr⟩ := barEntry_answers (w.pciedevDevM d).memBase i 0
    exact ⟨r, _, hr, rfl⟩
  | memBaseEnd d i =>
    obtain ⟨r, hr⟩ := barEntry_answers (w.pciedevDevM d).memBaseEnd i 0
    exact ⟨r, _, hr, rfl⟩
  | kernel c =>
    obtain ⟨r, e, hr⟩ := hE c w.env
    exact ⟨r, _, e, hr, rfl⟩
  | fault f => exact hop.elim

section
variable {F : Surroundings δ μ} {w : World δ} {dev : Entry}

theorem boardDriver_answers (hF : F.environment.Total) {op : Op} (hop : op.Returns) {x : Mutexed δ}
    {m : μ} (hfree : ∀ d, op = .enterCritRegion d → x.locked d = false) :
    ∃ r z, boardDriver F op (x, m) r z := by
  have hquiet (hop : op.Returns) (hquiet : op.Quiet) : ∃ r z, boardDriver F op (x, m) r z := by
    obtain ⟨r, w', hw⟩ := driver_answers hF hop (x.seen m).world
    refine ⟨r, ({ world := w'.inEnv w'.env.1, locked := x.locked }, w'.env.2), ?_⟩
    exact (boardDriver_quiet hquiet).mpr ⟨hw, rfl⟩
  cases op with
  | enterCritRegion d => exact ⟨(0 : ℤ), (_, m), boardDriver_enter.mpr ⟨hfree d rfl, rfl, rfl, rfl⟩⟩
  | leaveCritRegion d => exact ⟨(0 : ℤ), (_, m), boardDriver_leave.mpr ⟨rfl, rfl, rfl⟩⟩
  | _ => exact hquiet hop trivial

theorem returns_of_readOnly {op : Op} (h : op.ReadOnly) : op.Returns := by
  cases op <;> trivial

theorem leaveWith_returns (retval : ℤ) : (leaveWith dev retval).Only Op.Returns := by
  simp [leaveWith, Op.Returns]

theorem answer_returns (T : UserType) (arg : UInt64) (v : T.Val) :
    (answer dev T arg v).Only Op.Returns := by
  simp [answer, leaveWith_returns, Op.Returns]

theorem withCritRegion_returns {body : Kernel ℤ} (h : body.Only Op.Returns) :
    (withCritRegion dev body).Only Op.Returns := by
  simp [withCritRegion, h, Op.Returns]

theorem ioctlCase_returns (arg : UInt64) {c : IoctlCmd} (hc : c ∉ dataCommands) :
    (ioctlCase dev arg c).Only Op.Returns := by
  have hcopied {T : UserType} {k : Option T.Val → Kernel ℤ} (hk : ∀ v, (k v).Only Op.Returns) :
      (copyFromUser T arg >>= k).Only Op.Returns := (only_call ..).mpr ⟨trivial, hk⟩
  cases c with
  | physicalSlot | setSwap | getShapiModinfo =>
    apply withCritRegion_returns
    apply hcopied
    rintro (_ | v) <;> simp [leaveWith_returns, answer_returns, Op.Returns]
  | scratchReg =>
    apply withCritRegion_returns
    apply hcopied
    rintro (_ | data)
    · exact leaveWith_returns _
    · have hread (base : IoPtr) : (readScratchReg dev base data).Only Op.Returns := by
        simp [readScratchReg, Op.Returns]
      simp only [pciedevGetBaraddress, perform_eq, call_bind, ret_bind, only_ite, only_call,
        answer_returns, leaveWith_returns, Op.Returns, implies_true, true_and, and_true]
      exact fun _ _ _ _ _ _ => (hread _).bind fun _ => answer_returns ..
  | driverVersion | udriverVersion | firmwareVersion | getStatus | getShapiDevinfo =>
    apply withCritRegion_returns
    simp [uninitIoctrlData, answer_returns, Op.Returns]
  | getSwap | getRegisterSize | lockDevice | unlockDevice =>
    simp [ioctlCase, ioctlGetSwap, ioctlGetRegisterSize, ioctlLockDevice, ioctlUnlockDevice,
      Op.Returns]
  | setRegisterSize =>
    apply hcopied
    rintro (_ | v) <;> simp [Op.Returns]
  | setBits | swapBits | lockedRead | vectorRw | singleIocAccess => exact absurd (by decide) hc

theorem ioctl_returns {filp : File} {cmd : UInt32} {arg : UInt64}
    (hcmd : ∀ c ∈ dataCommands, cmd ≠ c.code) :
    (FileCall.ioctlExp filp cmd arg).program.Only Op.Returns := by
  refine (only_call ..).mpr ⟨trivial, fun d => (only_call ..).mpr ⟨trivial, fun v => ?_⟩⟩
  refine (only_ite ..).mpr ⟨fun _ => trivial, fun _ => Only.bind ?_ fun err => ?_⟩
  · simp [accessError, Op.Returns]
  · refine (only_ite ..).mpr ⟨fun _ => trivial, fun _ => ?_⟩
    cases hdecode : IoctlCmd.decode cmd with
    | none => trivial
    | some c =>
        exact ioctlCase_returns arg fun hmem => hcmd c hmem (IoctlCmd.code_of_decode hdecode).symm

/-- A request that finds the region of a live board free comes to its end. -/
theorem ordered_ends (hF : F.environment.Total) {c : FileCall} (hc : c.IsOrdered) {x : Mutexed δ}
    (hx : SameControl w x.world) (hfile : w.privateData c.filp = dev)
    (hlive : Live (x.world.pciedevDevM dev)) (hfree : x.locked dev = false) (m : μ) :
    c.program.twp (boardDriver F) (x, m) fun _ _ _ => True := by
  have hout := ordered_outside (F := F) hc hfile
  have hfree' : ¬ (orderShield F w dev).Locked x :=
    fun hlocked => Bool.false_ne_true (hfree.symm.trans hlocked)
  have hapart (op : Op) (hop : op = .enterCritRegion dev) : ¬ InnerOp dev op ∧
      op ≠ .leaveCritRegion dev := by
    subst hop
    refine ⟨?_, fun h => by cases h⟩
    rintro (⟨-, hquiet⟩ | ⟨f, -, h⟩)
    · exact hquiet
    · cases h
  have hanswer (op : Op) (x : Mutexed δ) (m : μ) (hop : op.Returns) (hkind : LocalOp op ∨
    op = .enterCritRegion dev ∨
      InnerOp dev op ∨ op = .leaveCritRegion dev) (hopen : op = .enterCritRegion dev →
        ¬ x.locked dev = true) :
      ∃ r z, boardDriver F op (x, m) r z := by
    apply boardDriver_answers hF hop
    rintro d rfl
    rcases hkind with (h | ⟨d', h | h⟩) | h | (h | ⟨f, -, h⟩) | h
    · exact h.elim
    · cases h
    · cases h
    · cases h
      simpa using hopen rfl
    · exact h.2.elim
    · cases h
    · cases h
  -- a request for data uses the table as it is, the others meet no fault with any answers
  have hdata (hc : c.IsDataRequest) : c.program.twp (boardDriver F) (x, m) fun _ _ _ => True := by
    have hsat := dataRequest_sat (@confined_logic x.world.privateData _ _ hlive.registerSize) hc
      ((congrFun hx.1 _).trans hfile) hlive.devSts
    apply hout.twp (P := fun z => SameData x.world z.world) hapart _ _ hsat ⟨rfl, rfl⟩ hx hfree'
    · intro op z m r z' m' hz hop hstep
      exact driver_steady_step (w := x.world.inEnv (x.world.env, m)) op (z.seen m).world r
        (z'.seen m').world hz hop.steady (boardDriver_driver hstep)
    · exact fun op z m hkind hop => hanswer op z m (returns_of_readOnly hop) hkind
  have hother (hp : c.program.Only Op.Returns) :
      c.program.twp (boardDriver F) (x, m) fun _ _ _ => True := by
    apply hout.twp (P := fun _ => True) hapart _ _ hp trivial hx hfree'
    · exact fun _ _ _ _ _ _ _ _ _ => ⟨trivial, trivial⟩
    · exact fun op z m hkind hop => hanswer op z m hop hkind
  cases c with
  | readExp => exact hdata trivial
  | writeExp => exact hdata trivial
  | ioctlExp filp cmd arg =>
    by_cases hcmd : ∃ c ∈ dataCommands, cmd = c.code
    · exact hdata hcmd
    · exact hother (ioctl_returns fun c hmem heq => hcmd ⟨c, hmem, heq⟩)
  | openExp | releaseExp | llseek | remapMmapExp => exact hc.elim

theorem boardDriver_releases {α : Type} {p : Kernel α} {x x' : Mutexed δ} {m m' : μ} {tr : Trace}
    {a : α} (hrun : p.Run (boardDriver F) (x, m) tr a (x', m'))
    (hcheck : LockAct.check (x.locked dev) (lockActs dev tr) = true) : x'.locked dev = false := by
  induction p generalizing x m tr with
  | ret b =>
    obtain ⟨rfl, -, hend⟩ := hrun
    obtain ⟨rfl, -⟩ := Prod.mk.inj hend
    simpa [LockAct.check] using hcheck
  | call op k ih =>
    obtain ⟨r, ⟨y, m₁⟩, rest, hop, rfl, hrest⟩ := hrun
    apply ih r hrest
    have hquiet (hquiet : op.Quiet) : LockAct.check (y.locked dev) (lockActs dev rest) = true := by
      rw [((boardDriver_quiet hquiet).mp hop).2]
      rwa [lockActs_cons_quiet hquiet] at hcheck
    cases op with
    | enterCritRegion d =>
      obtain ⟨hfree, rfl, rfl, -⟩ := boardDriver_enter.mp hop
      rw [lockActs_enter] at hcheck
      by_cases hd : d = dev
      · subst hd
        simpa [LockAct.check, hfree] using hcheck
      · simpa [hd, Function.update_of_ne (Ne.symm hd)] using hcheck
    | leaveCritRegion d =>
      obtain ⟨rfl, rfl, -⟩ := boardDriver_leave.mp hop
      rw [lockActs_leave] at hcheck
      by_cases hd : d = dev
      · subst hd
        simp only [if_true, LockAct.check, Bool.and_eq_true] at hcheck
        simpa using hcheck.2
      · simpa [hd, Function.update_of_ne (Ne.symm hd)] using hcheck
    | _ => exact hquiet trivial

/-- The request structure of a plain read or write can be copied. -/
def FileCall.Readable (F : Surroundings δ μ) (m : μ) : FileCall → Prop
  | readExp _ buf _ _ fPos | writeExp _ buf _ _ fPos =>
      fPos = pciedFpos → ∀ v m', F.caller (.copyFromUser .deviceRw buf) m v m' → v ≠ none
  | _ => True

/-- The copy of the request at `buf` does not fail. -/
def Granted (buf : UInt64) (tr : Trace) : Prop := ∀ e ∈ tr, ¬ RequestRefused buf e

section
variable {buf : UInt64}

theorem granted_call {op : Op} {k : op.Res → Kernel ℤ} {x : Mutexed δ} {m : μ}
    (hop : ∀ r, ¬ RequestRefused buf ⟨op, r⟩) (hk : ∀ r x' m', boardDriver F op (x, m) r (x', m') →
      (k r).wp (boardDriver F) (x', m') fun tr _ _ => Granted buf tr) :
    (call (I := driverInterface) op k).wp (boardDriver F) (x, m) fun tr _ _ => Granted buf tr := by
  rintro r ⟨x', m'⟩ hstep
  exact wp_mono (hk r x' m' hstep) fun tr _ _ htr => List.forall_mem_cons.mpr ⟨hop r, htr⟩

theorem accessRegion_granted (dir : Direction) {code : ℕ} {calls : UInt16 → InlineCall}
    (hcalls : ∀ s, (calls s).dev = dev) (z : Mutexed δ × μ) :
    (accessRegion dir dev code calls).wp (boardDriver F) z fun tr _ _ => Granted buf tr := by
  have hinline {β : Type} {p : Kernel β} (hp : p.Only (InlineOp dev)) :
      p.Only fun op => ∀ r, ¬ RequestRefused buf ⟨op, r⟩ :=
        hp.mono fun _ => inlineOp_not_refused buf
  have hall : (accessRegion dir dev code calls).Only fun op =>
      ∀ r, ¬ RequestRefused buf ⟨op, r⟩ := by
    refine (hinline ((correctFrom_only dev code).mono fun _ => .inl)).bind fun s =>
      Only.bind ?_ fun _ => ?_
    · apply hinline
      have hmoves := dir.inline_only (calls s)
      rwa [hcalls s] at hmoves
    · simp [RequestRefused]
  exact hall.wp fun _ _ _ htr e he => htr e he e.res

theorem accessExp_granted (dir : Direction) (accessMode : UInt16) (dead refused : ℤ) (filp : File)
    (count fPosPtr fPos : UInt64) (x : Mutexed δ) {m : μ}
    (hcopy : fPos = pciedFpos → ∀ v m', F.caller (.copyFromUser .deviceRw buf) m v m' → v ≠ none) :
    (accessExp dir accessMode dead refused filp buf count fPosPtr fPos).wp (boardDriver F) (x, m)
      fun tr _ _ => Granted buf tr := by
  have hsame {op : Op} (hop : op.Quiet) {r : op.Res} {y y' : Mutexed δ} {m₁ m₂ : μ}
      (h : boardDriver F op (y, m₁) r (y', m₂))
      (hstay : ∀ u u', driver F.environment op u r u' → u' = u) : m₂ = m₁ :=
    (seen_same.mp (hstay _ _ ((boardDriver_quiet hop).mp h).1)).2
  apply granted_call (by simp [RequestRefused])
  intro d x₁ m₁ hfile
  obtain rfl : m₁ = m := hsame trivial hfile fun _ _ h => h.2
  apply granted_call (by simp [RequestRefused])
  intro v x₂ m₂ hload
  obtain rfl : m₂ = m₁ := hsame trivial hload fun _ _ h => h.2
  refine (wp_ite ..).mpr ⟨fun _ => by simp [Granted], fun _ => ?_⟩
  apply granted_call (by simp [RequestRefused])
  intro r x₃ m₃ henter
  obtain ⟨-, -, -, rfl⟩ := boardDriver_enter.mp henter
  refine (wp_ite ..).mpr ⟨fun _ => by simp [Granted], fun _ => ?_⟩
  refine (wp_ite ..).mpr ⟨fun _ => ?_, fun hplain => ?_⟩
  · apply accessRegion_granted
    exact fun _ => rfl
  rintro (_ | reading) ⟨x₄, m₄⟩ hread
  · obtain ⟨⟨e, hanswer, -⟩, -⟩ := hread
    simp only [Surroundings.environment, KernelCall.IsRegister, Bool.false_eq_true, if_false]
      at hanswer
    exact absurd rfl (hcopy (not_not.mp hplain) none e.2 hanswer.1)
  · have hregion {code : ℕ} {calls : UInt16 → InlineCall} (hcalls : ∀ s, (calls s).dev = d) :
        (accessRegion dir d code calls).wp (boardDriver F) (x₄, m₄) fun tr _ _ => Granted buf tr :=
      accessRegion_granted dir hcalls (x₄, m₄)
    apply wp_mono (hregion fun _ => rfl)
    intro tr _ _ htr
    exact List.forall_mem_cons.mpr ⟨by simp [RequestRefused], htr⟩

end

theorem ordered_frees {c : FileCall} (hc : c.IsOrdered) {x : Mutexed δ} {m : μ}
    (hread : c.Readable F m) (hfree : x.locked dev = false) :
    c.program.wp (boardDriver F) (x, m) fun _ _ z => z.1.locked dev = false := by
  have hkept : c.program.wp (boardDriver F) (x, m) fun tr _ _ => ∀ e ∈ tr, ¬ c.LosesLock e := by
    cases c with
    | readExp filp buf count fPosPtr fPos =>
        exact accessExp_granted .read _ eNoDev eIo filp count fPosPtr fPos x hread
    | writeExp filp buf count fPosPtr fPos =>
      exact accessExp_granted .write _ eFault eFault filp count fPosPtr fPos x hread
    | ioctlExp filp cmd arg =>
      apply wp_of_forall
      intro tr _ _ e _ hloses
      exact hc .singleIocAccess (by decide) hloses.1
    | openExp | releaseExp | llseek | remapMmapExp => exact hc.elim
  apply (wp_iff_run ..).mpr
  intro tr a z hrun
  obtain ⟨x', m'⟩ := z
  have hproper := hrun.forget.of_wp (fileCall_losesOn c).uses.effect (hrun.of_wp hkept)
  apply boardDriver_releases hrun
  rw [hfree]
  exact (LockAct.proper_iff_check _).mp (hproper dev)

/-- The requests of which an order is known, without reads and writes whose structure cannot be
copied. -/
def readableClients (F : Surroundings δ μ) (w : World δ) (dev : Entry) :
    Clients driverInterface (Request μ) ℤ (Mutexed δ) μ where
  handler := boardDriver F
  program c := c.call.program
  memory c := c.memory
  allowed c := c.call.IsOrdered ∧ w.privateData c.call.filp = dev ∧ c.call.Readable F c.memory

theorem SameControl.live {w w' : World δ} (h : SameControl w w')
    (hlive : Live (w.pciedevDevM dev)) :
    Live (w'.pciedevDevM dev) := by
  have hsts : (w'.pciedevDevM dev).devSts = (w.pciedevDevM dev).devSts :=
    congrArg Prod.fst (h.2 dev)
  have hsize : (w'.pciedevDevM dev).registerSize = (w.pciedevDevM dev).registerSize :=
    congrArg Prod.snd (h.2 dev)
  exact ⟨hsts.trans_ne hlive.devSts, hsize ▸ hlive.registerSize⟩

/-- For any number of clients with any sequences of such requests on one live board, whose calls of
the kernel return, from any moment of any interleaving: without new requests there are finitely many
steps only, in whatever order; there is one as long as a request is running; and when none is, the
region of the board is free. -/
theorem board_requests_return {T : Type} [DecidableEq T] (hF : F.environment.Total)
    (hlive : Live (w.pciedevDevM dev)) {s : Crowd driverInterface (Request μ) ℤ (Mutexed δ) μ T}
    (hs : (readableClients F w dev).Steps (.initial (boardAtRest w)) s) :
    Acc (fun s₂ s₁ => (readableClients F w dev).Continues s₁ s₂) s ∧
      ((∃ t u, s.running t = some u) → ∃ s', (readableClients F w dev).Continues s s') ∧
      ((∀ t, s.running t = none) → s.shared.locked dev = false) := by
  have hallowed (c : Request μ) (hc : (readableClients F w dev).allowed c) :
      (orderShield F w dev).Outside False c.call.program := ordered_outside hc.1 hc.2.1
  have halone : (readableClients F w dev).Alone (orderShield F w dev) := by
    intro c y hc hy hfree
    have hfree' : y.locked dev = false := Bool.eq_false_iff.mpr hfree
    refine twp_mono ((ordered_ends hF hc.1 hy hc.2.1 (hy.live hlive) hfree' _).and_wp
      (ordered_frees hc.1 hc.2.2 hfree')) fun _ _ z hz => ?_
    exact fun hlocked => Bool.false_ne_true (hz.2.symm.trans hlocked)
  have hrest : ¬ (orderShield F w dev).Locked (boardAtRest w) :=
    fun hlocked => Bool.false_ne_true hlocked
  obtain ⟨hacc, hnext, hfree⟩ :=
    all_return (S := readableClients F w dev) (R := orderShield F w dev) hallowed halone
    ⟨rfl, fun _ => rfl⟩ hrest hs
  exact ⟨hacc, hnext, fun hidle => Bool.eq_false_iff.mpr (hfree hidle)⟩

end

theorem plainSurroundings_total : plainSurroundings.environment.Total := by
  intro c e
  have hregister {r : c.Res} {m : IoAddr → UInt32} (hc : c.IsRegister = true)
      (h : memoryLike c e.1 = some (r, m)) :
      ∃ r e', plainSurroundings.environment c e r e' :=
    ⟨r, (m, e.2), by simp [Surroundings.environment, hc, plainSurroundings, h]⟩
  have hcaller {r : c.Res} (hc : c.IsRegister = false) (h : e.2.answers c () = some (r, ())) :
      ∃ r e', plainSurroundings.environment c e r e' :=
    ⟨r, (e.1, e.2), by simp [Surroundings.environment, hc, plainSurroundings, h]⟩
  cases c with
  | ioread w a => exact hregister rfl rfl
  | iowrite w a v => exact hregister rfl rfl
  | _ => exact hcaller rfl rfl

/-- One client has made a bit-set, another one has made the setting of the swap. -/
theorem board_requests_return_swap :
    ∃ s : Crowd driverInterface (Request Outcome) ℤ (Mutexed (IoAddr → UInt32)) Outcome Bool,
      (∀ t, (s.running t).isSome) ∧
      Acc (fun s₂ s₁ => (readableClients plainSurroundings twoBitsBoard 0).Continues s₁ s₂) s ∧
      ((∃ t u, s.running t = some u) →
        ∃ s', (readableClients plainSurroundings twoBitsBoard 0).Continues s s') ∧
      ((∀ t, s.running t = none) → s.shared.locked 0 = false) := by
  have hallowed : (readableClients plainSurroundings twoBitsBoard 0).allowed (bitRequest 2) ∧
      (readableClients plainSurroundings twoBitsBoard 0).allowed swapOn :=
    ⟨⟨(by decide : ∀ c ∈ unorderedCommands, IoctlCmd.setBits.code ≠ c.code), rfl, trivial⟩,
      (by decide : ∀ c ∈ unorderedCommands, IoctlCmd.setSwap.code ≠ c.code), rfl, trivial⟩
  have hstarts :
      (readableClients plainSurroundings twoBitsBoard 0).Steps
        (.initial (boardAtRest twoBitsBoard)) _ :=
    (Relation.ReflTransGen.single (.start (t := true) (bitRequest 2) rfl hallowed.1)).tail
      (.start (t := false) swapOn rfl hallowed.2)
  refine ⟨_, ?_,
    board_requests_return plainSurroundings_total ⟨by decide, by decide, by decide⟩ hstarts⟩
  rintro (_ | _) <;> rfl

end Upciedev
