import Upciedev.Foundations.Serial
import Upciedev.Locking.Mutex
import Upciedev.Access.RequestTrace

/-!
# Register updates of many clients

Reads and writes, bit-sets, bit-swaps, locked reads and vectors of any number of clients on one
board. All register accesses of a request are inside the region of the board, so the requests have
the effect of whole requests one at a time.
-/
namespace Upciedev

open Foundations Program

/-- The ioctls that enter the region once for all their registers. -/
def updateCommands : List IoctlCmd := [.setBits, .swapBits, .lockedRead, .vectorRw]

def FileCall.IsUpdate : FileCall → Prop
  | .readExp .. | .writeExp .. => True
  | .ioctlExp _ cmd _ => ∃ c ∈ updateCommands, cmd = c.code
  | _ => False

/-- A request with the user memory that belongs to it. -/
structure Request (μ : Type) where
  call : FileCall
  memory : μ

/-- Registers of the board, shared by all requests, and all other answers of the kernel, which
concern one request only. -/
structure Surroundings (δ μ : Type) where
  registers : Environment δ
  caller : Environment μ

def KernelCall.IsRegister : KernelCall → Bool
  | .ioread _ _ | .iowrite _ _ _ => true
  | _ => false

variable {δ μ : Type}

def Surroundings.environment (F : Surroundings δ μ) : Environment (δ × μ) := fun c e r e' =>
  if c.IsRegister then F.registers c e.1 r e'.1 ∧ e'.2 = e.2 else F.caller c e.2 r e'.2 ∧ e'.1 = e.1

def World.inEnv {ε ε' : Type} (w : World ε) (e : ε') : World ε' :=
  { privateData := w.privateData, fPos := w.fPos, pciedevDevM := w.pciedevDevM, cdev := w.cdev
    drvdata := w.drvdata, baseUpciedevDev := w.baseUpciedevDev, env := e }

/-- The state as a request with memory `m` sees it. -/
def Mutexed.seen (s : Mutexed δ) (m : μ) : Mutexed (δ × μ) :=
  { world := s.world.inEnv (s.world.env, m), locked := s.locked }

def boardDriver (F : Surroundings δ μ) : Handler driverInterface (Mutexed δ × μ) := fun op s r s' =>
  mutexDriver F.environment op (s.1.seen s.2) r (s'.1.seen s'.2)

/-- Any requests of the clients on files of the board in entry `dev`. -/
def boardClients (F : Surroundings δ μ) (w : World δ) (dev : Entry) :
    Clients driverInterface (Request μ) ℤ (Mutexed δ) μ where
  handler := boardDriver F
  program c := c.call.program
  memory c := c.memory
  allowed c := c.call.IsUpdate ∧ w.privateData c.call.filp = dev

/-- Before the first request; the region of the board is free. -/
def boardAtRest (w : World δ) : Mutexed δ := { world := w, locked := fun _ => false }

def OwnOp : Op → Prop
  | .privateData _ | .load _ => True
  | .kernel c => c.IsRegister = false
  | _ => False

def BodyOp (op : Op) : Prop := op.Steady ∧ op.Quiet

section
variable {F : Surroundings δ μ} {w : World δ} {dev : Entry} {op : Op} {r : op.Res}
  {x x' : Mutexed δ} {m m' : μ}

theorem seen_withEnv {e : δ × μ} :
    (x'.seen m').world = (x.seen m).world.withEnv e ↔
      x'.world = x.world.withEnv e.1 ∧ m' = e.2 := by
  constructor
  · intro h
    have henv : (x'.world.env, m') = e := congrArg World.env h
    subst henv
    obtain ⟨hprivate, hpos, htable, hcdev, hdrvdata, hbase, -⟩ := World.ext_iff.mp h
    exact ⟨World.ext hprivate hpos htable hcdev hdrvdata hbase rfl, rfl⟩
  · rintro ⟨hworld, rfl⟩
    simp only [Mutexed.seen, hworld]
    rfl

theorem seen_same :
    (x'.seen m').world = (x.seen m).world ↔ x'.world = x.world ∧ m' = m :=
  seen_withEnv (x := x) (m := m) (e := (x.world.env, m))

theorem boardDriver_quiet (hop : op.Quiet) : boardDriver F op (x, m) r (x', m') ↔
    driver F.environment op (x.seen m).world r (x'.seen m').world ∧ x'.locked = x.locked :=
  mutexDriver_quiet hop

theorem boardDriver_enter {r : ℤ} : boardDriver F (.enterCritRegion dev) (x, m) r (x', m') ↔
    x.locked dev = false ∧ r = 0 ∧
      x' = { x with locked := Function.update x.locked dev true } ∧ m' = m := by
  refine and_congr_right' (and_congr_right' ?_)
  rw [Mutexed.ext_iff, Mutexed.ext_iff, seen_same]
  tauto

theorem boardDriver_leave {r : ℤ} : boardDriver F (.leaveCritRegion dev) (x, m) r (x', m') ↔
    r = 0 ∧ x' = { x with locked := Function.update x.locked dev false } ∧ m' = m := by
  apply and_congr_right'
  rw [Mutexed.ext_iff, Mutexed.ext_iff, seen_same]
  tauto

theorem boardDriver_body (hop : BodyOp op) (h : boardDriver F op (x, m) r (x', m'))
    (hx : SameData w x.world) :
    SameData w x'.world ∧ x'.locked = x.locked := by
  obtain ⟨hdriver, hlocked⟩ := (boardDriver_quiet hop.2).mp h
  obtain ⟨-, hprivate, htable⟩ := driver_steady hop.1 hdriver
  exact ⟨⟨hprivate.trans hx.1, htable.trans hx.2⟩, hlocked⟩

theorem ownOp_bodyOp (h : OwnOp op) : BodyOp op := by
  cases op <;> first | exact ⟨trivial, trivial⟩ | exact h.elim

theorem boardDriver_caller {c : KernelCall} {r : c.Res} (hown : c.IsRegister = false)
    (h : boardDriver F (.kernel c) (x, m) r (x', m')) :
    x' = x ∧ ∀ y, boardDriver F (.kernel c) (y, m) r (y, m') := by
  obtain ⟨⟨e, hanswer, hnext⟩, hlocked⟩ := h
  simp only [Surroundings.environment, hown, Bool.false_eq_true, if_false] at hanswer
  constructor
  · obtain ⟨hworld, -⟩ := seen_withEnv.mp hnext
    rw [hanswer.2] at hworld
    exact Mutexed.ext hworld hlocked
  · refine fun y =>
      ⟨⟨(y.world.env, e.2), ?_, seen_withEnv.mpr ⟨rfl, (seen_withEnv.mp hnext).2⟩⟩, rfl⟩
    simp only [Surroundings.environment, hown, Bool.false_eq_true, if_false]
    exact ⟨hanswer.1, rfl⟩

/-- An operation outside the region has the same answer whatever the registers hold. -/
theorem boardDriver_own (hop : OwnOp op) (h : boardDriver F op (x, m) r (x', m'))
    (hx : SameData w x.world) :
    x' = x ∧ tableAnswers w.privateData w.pciedevDevM op r ∧
      ∀ y, SameData w y.world → boardDriver F op (y, m) r (y, m') := by
  obtain ⟨hsteady, hquiet⟩ := ownOp_bodyOp hop
  obtain ⟨hdriver, hlocked⟩ := (boardDriver_quiet hquiet).mp h
  have hsame : SameData (w.inEnv (x.world.env, m)) (x.seen m).world := hx
  have hanswer := (driver_steady_step op _ r _ hsame hsteady hdriver).1
  cases op with
  | privateData filp =>
    have hnext := seen_same.mp hdriver.2
    refine ⟨Mutexed.ext hnext.1 hlocked, hanswer, fun y hy =>
      (boardDriver_quiet trivial).mpr ⟨?_, rfl⟩⟩
    exact ⟨hdriver.1.trans (congrFun (hx.1.trans hy.1.symm) filp), seen_same.mpr ⟨rfl, hnext.2⟩⟩
  | load d =>
    have hnext := seen_same.mp hdriver.2
    refine ⟨Mutexed.ext hnext.1 hlocked, hanswer, fun y hy =>
      (boardDriver_quiet trivial).mpr ⟨?_, rfl⟩⟩
    exact ⟨hdriver.1.trans (congrFun (hx.2.trans hy.2.symm) d), seen_same.mpr ⟨rfl, hnext.2⟩⟩
  | kernel c =>
    obtain ⟨hstay, hany⟩ := boardDriver_caller hop h
    exact ⟨hstay, hanswer, fun y _ => hany y⟩
  | _ => exact hop.elim

end

/-- The region of the board in entry `dev`, with the driver data of `w`. -/
def boardRegion (F : Surroundings δ μ) (w : World δ) (dev : Entry) : Region (boardDriver F) where
  own := OwnOp
  enter op := op = .enterCritRegion dev
  body := BodyOp
  leave op := op = .leaveCritRegion dev
  Locked x := x.locked dev = true
  Fixed x := SameData w x.world
  Answers := tableAnswers w.privateData w.pciedevDevM
  fixed hop hstep hx := by
    rcases hop with hop | rfl | hop | rfl
    · exact (boardDriver_body (ownOp_bodyOp hop) hstep hx).1
    · obtain ⟨-, -, rfl, -⟩ := boardDriver_enter.mp hstep
      exact hx
    · exact (boardDriver_body hop hstep hx).1
    · obtain ⟨-, rfl, -⟩ := boardDriver_leave.mp hstep
      exact hx
  own_local := boardDriver_own
  enter_free hop hstep := by
    subst hop
    obtain ⟨hfree, -, rfl, -⟩ := boardDriver_enter.mp hstep
    simp [hfree]
  enter_apart hop := by
    subst hop
    exact ⟨fun h => h.2, nofun⟩
  body_locked hop hstep hx := by
    rwa [((boardDriver_quiet hop.2).mp hstep).2]

section
variable {F : Surroundings δ μ} {w : World δ} {dev : Entry}

theorem inside_ite {c : Prop} [Decidable c] {p q : Kernel ℤ} (hp : (boardRegion F w dev).Inside p)
    (hq : (boardRegion F w dev).Inside q) : (boardRegion F w dev).Inside (if c then p else q) := by
  split_ifs
  · exact hp
  · exact hq

theorem leaveWith_inside (retval : ℤ) : (boardRegion F w dev).Inside (leaveWith dev retval) :=
  .inl ⟨rfl, fun _ => ⟨retval, rfl⟩⟩

theorem withCritRegion_outside {body : Kernel ℤ} (h : (boardRegion F w dev).Inside body) :
    (boardRegion F w dev).Outside (withCritRegion dev body) :=
  .inl ⟨rfl, fun _ => inside_ite trivial h⟩

theorem inlineOp_bodyOp {op : Op} (h : InlineOp dev op) : BodyOp op := by
  refine ⟨?_, (inlineOp_lockFree h).quiet⟩
  rcases h with h | ⟨c, rfl | rfl⟩
  · cases op <;> trivial
  · trivial
  · trivial

theorem correctFrom_body (code : ℕ) : (correctFrom dev code).Only BodyOp :=
  (correctFrom_only dev code).mono fun _ h => inlineOp_bodyOp (.inl h)

theorem correctFrom_own (code : ℕ) : (correctFrom dev code).Only OwnOp := by
  simp [correctFrom, OwnOp]

theorem accessError_own (cmd : UInt32) (arg : UInt64) : (accessError cmd arg).Only OwnOp := by
  simp [accessError, OwnOp, KernelCall.IsRegister]

theorem transfer_inside {code : ℕ} {move : UInt16 → Kernel ℤ}
    (hmove : ∀ s, (move s).Only (InlineOp dev)) {result : ℤ → ℤ} :
    (boardRegion F w dev).Inside (correctFrom dev code >>= fun regSize =>
      move regSize >>= fun retval => leaveWith dev (result retval)) :=
  .bind (correctFrom_body code) fun s =>
    .bind ((hmove s).mono fun _ => inlineOp_bodyOp) fun _ => leaveWith_inside _

theorem vectorLoop_body (n : ℕ) (pUserRWdata : UInt64) (retval : ℤ) :
    (vectorLoop dev n pUserRWdata retval).Only BodyOp := by
  induction n generalizing pUserRWdata retval with
  | zero => trivial
  | succ n ih =>
    refine (only_call _ _).mpr ⟨⟨trivial, trivial⟩, ?_⟩
    rintro (_ | rw)
    · trivial
    · refine (correctFrom_body _).bind fun s => Only.bind ?_ fun _ => ih _ _
      exact (transfer_only dev s rw).mono fun _ => inlineOp_bodyOp

theorem ioctlCase_outside (arg : UInt64) {c : IoctlCmd} (hc : c ∈ updateCommands) :
    (boardRegion F w dev).Outside (ioctlCase dev arg c) := by
  simp only [updateCommands, List.mem_cons, List.not_mem_nil, or_false] at hc
  have hcopied {k : DeviceIocRw → Kernel ℤ} {src : UInt64} (hk : ∀ rw,
    (boardRegion F w dev).Inside (k rw)) :
      (boardRegion F w dev).Inside (copyFromUser .deviceIocRw src >>= fun
        | none => leaveWith dev eFault
        | some rw => k rw) := by
    refine .inr ⟨⟨trivial, trivial⟩, ?_⟩
    rintro (_ | rw)
    · exact leaveWith_inside _
    · exact hk rw
  rcases hc with rfl | rfl | rfl | rfl
  · refine withCritRegion_outside (hcopied fun rw => transfer_inside fun s => ?_)
    exact pciedevWriteInline_only (rw.call dev s mtcaSetBits rw.dataPtr rw.maskPtr)
  · refine withCritRegion_outside (hcopied fun rw => transfer_inside fun s => ?_)
    exact pciedevWriteInline_only (rw.call dev s mtcaSwapBits 0 rw.maskPtr)
  · -- the request is copied and corrected before the region is entered
    refine .inr ⟨rfl, ?_⟩
    rintro (_ | rw) _
    · trivial
    · change (boardRegion F w dev).Outside (correctFrom dev rw.registerSize.toNat >>= _)
      refine .bind (correctFrom_own _) fun s => withCritRegion_outside ?_
      exact .bind ((pciedevReadInline_only _).mono fun _ => inlineOp_bodyOp) fun _ =>
        leaveWith_inside _
  · refine .inr ⟨rfl, ?_⟩
    rintro (_ | vector) _
    · trivial
    · exact withCritRegion_outside (.bind (vectorLoop_body _ _ _) fun _ => leaveWith_inside _)

theorem accessBody_inside (dir : Direction) (accessMode : UInt16) (refused : ℤ)
    (buf count fPosPtr fPos : UInt64) : (boardRegion F w dev).Inside
      (accessBody dir accessMode refused dev buf count fPosPtr fPos) := by
  have hregion {code : ℕ} {calls : UInt16 → InlineCall} (hcalls : ∀ s, (calls s).dev = dev) :
      (boardRegion F w dev).Inside (accessRegion dir dev code calls) := by
    refine .bind (correctFrom_body code) fun s => .bind ?_ fun _ => leaveWith_inside _
    have hinline := dir.inline_only (calls s)
    rw [hcalls s] at hinline
    exact hinline.mono fun _ => inlineOp_bodyOp
  refine inside_ite (hregion fun _ => rfl) (.inr ⟨⟨trivial, trivial⟩, ?_⟩)
  rintro (_ | reading)
  · trivial
  · exact hregion fun _ => rfl

theorem accessExp_outside (dir : Direction) (accessMode : UInt16) (dead refused : ℤ) {filp : File}
    (hfile : w.privateData filp = dev) (buf count fPosPtr fPos : UInt64) :
    (boardRegion F w dev).Outside
      (accessExp dir accessMode dead refused filp buf count fPosPtr fPos) := by
  refine .inr ⟨trivial, fun d hd => ?_⟩
  obtain rfl : d = dev := hd.trans hfile
  refine .inr ⟨trivial, fun v _ => ?_⟩
  change (boardRegion F w d).Outside (if v.devSts = 0 then pure dead else withCritRegion d _)
  split_ifs
  · trivial
  · exact withCritRegion_outside (accessBody_inside ..)

theorem update_outside {c : FileCall} (hc : c.IsUpdate) (hfile : w.privateData c.filp = dev) :
    (boardRegion F w dev).Outside c.program := by
  cases c with
  | readExp filp buf count fPosPtr fPos =>
    rw [FileCall.program, pciedevReadExp_eq]
    exact accessExp_outside _ _ _ _ hfile ..
  | writeExp filp buf count fPosPtr fPos =>
    rw [FileCall.program, pciedevWriteExp_eq]
    exact accessExp_outside _ _ _ _ hfile ..
  | ioctlExp filp cmd arg =>
    obtain ⟨c, hc, rfl⟩ := hc
    refine .inr ⟨trivial, fun d hd => ?_⟩
    obtain rfl : d = dev := hd.trans hfile
    refine .inr ⟨trivial, fun v _ => ?_⟩
    change (boardRegion F w d).Outside (if v.devSts = 0 then pure eFault else
      accessError c.code arg >>= _)
    split_ifs
    · trivial
    · refine .bind (accessError_own _ _) fun err => ?_
      rw [IoctlCmd.decode_code]
      cases err with
      | true => trivial
      | false => exact ioctlCase_outside arg hc
  | openExp | releaseExp | llseek | remapMmapExp => exact hc.elim

/-- For any number of clients with any sequences of requests on one board, and any interleaving that
the lock admits: when every request has returned or waits for the region, the registers and all that
the requests read, copied and returned are those of the whole requests one at a time, in an order
that keeps each client's own. -/
theorem register_updates_serializable {T : Type} [DecidableEq T]
    {s : Crowd driverInterface (Request μ) ℤ (Mutexed δ) μ T}
    (h : (boardClients F w dev).Steps (.initial (boardAtRest w)) s)
    (hwait : ∀ t u, s.running t = some u →
      ∃ k, u.rest = .call (I := driverInterface) (.enterCritRegion dev) k) :
    ∃ l : List (T × Record driverInterface (Request μ) ℤ),
      (boardClients F w dev).Serial (boardAtRest w) l s.shared ∧ ∀ t, ownOrder l t = s.done t := by
  apply serializable (S := boardClients F w dev) (R := boardRegion F w dev) _ ⟨rfl, rfl⟩ h
  · intro t u hrun
    obtain ⟨k, hrest⟩ := hwait t u hrun
    exact ⟨_, k, hrest, rfl⟩
  · intro c hc
    exact update_outside hc.1 hc.2

end

def memoryLike : Answers (IoAddr → UInt32)
  | .ioread w a, m => some (w.low (m a), m)
  | .iowrite w a v, m => some ((), Function.update m a (w.setLow (m a) v))
  | _, _ => none

/-- Memory-like registers, and a caller whose memory is an outcome. -/
def boardAnswers : Answers ((IoAddr → UInt32) × Outcome) := fun c e =>
  if c.IsRegister then (memoryLike c e.1).map fun p => (p.1, p.2, e.2)
  else (e.2.answers c ()).map fun p => (p.1, e.1, e.2)

def plainSurroundings : Surroundings (IoAddr → UInt32) Outcome where
  registers c m r m' := memoryLike c m = some (r, m')
  caller c o r o' := o.answers c () = some (r, ()) ∧ o' = o

theorem plainSurroundings_answers (c : KernelCall) (e : (IoAddr → UInt32) × Outcome) (r : c.Res)
    (e' : (IoAddr → UInt32) × Outcome) (h : boardAnswers c e = some (r, e')) :
    plainSurroundings.environment c e r e' := by
  unfold boardAnswers at h
  unfold Surroundings.environment
  split_ifs at h ⊢ with hc
  · obtain ⟨⟨r', m'⟩, hm, heq⟩ := Option.map_eq_some_iff.mp h
    cases heq
    exact ⟨hm, rfl⟩
  · obtain ⟨⟨r', m'⟩, hm, heq⟩ := Option.map_eq_some_iff.mp h
    cases heq
    exact ⟨⟨hm, rfl⟩, rfl⟩

def boardStep (op : Op) (s : Mutexed (IoAddr → UInt32) × Outcome) :
    Option (op.Res × (Mutexed (IoAddr → UInt32) × Outcome)) :=
  (mutexStep boardAnswers op (s.1.seen s.2)).map fun p =>
    (p.1, { world := p.2.world.inEnv p.2.world.env.1, locked := p.2.locked }, p.2.world.env.2)

theorem boardDriver_of_boardStep (op : Op) (s : Mutexed (IoAddr → UInt32) × Outcome) (r : op.Res)
    (s' : Mutexed (IoAddr → UInt32) × Outcome) (h : boardStep op s = some (r, s')) :
    boardDriver plainSurroundings op s r s' := by
  obtain ⟨⟨r', x⟩, hstep, heq⟩ := Option.map_eq_some_iff.mp h
  cases heq
  exact mutexDriver_of_mutexStep plainSurroundings_answers _ _ _ _ hstep

theorem plainSurroundings_unique (c : KernelCall) (e : (IoAddr → UInt32) × Outcome) (r : c.Res)
    (e' : (IoAddr → UInt32) × Outcome) (h : plainSurroundings.environment c e r e') :
    boardAnswers c e = some (r, e') := by
  unfold Surroundings.environment at h
  unfold boardAnswers
  split_ifs at h ⊢ with hc
  · obtain ⟨hm, hsame⟩ := h
    have hregister : memoryLike c e.1 = some (r, e'.1) := hm
    rw [hregister, Option.map_some, ← hsame]
  · obtain ⟨⟨hm, hcaller⟩, hsame⟩ := h
    rw [hm, Option.map_some, ← hcaller, ← hsame]

theorem boardStep_of_boardDriver {op : Op} (hop : op.inRange = true)
    {s s' : Mutexed (IoAddr → UInt32) × Outcome} {r : op.Res}
    (h : boardDriver plainSurroundings op s r s') : boardStep op s = some (r, s') := by
  unfold boardStep
  rw [mutexStep_of_mutexDriver plainSurroundings_unique hop h]
  rfl

/-- A live board with one BAR of 4 KiB, and registers that are all zero. -/
def twoBitsBoard : World (IoAddr → UInt32) :=
  (World.uniform
    { devSts := 1, registerSize := 2, memBase := fun _ => 0x1000, memBaseEnd := fun _ => 0x1fff
      memmoryBase := fun _ => some 1 }).inEnv fun _ => 0

def bitRequest (b : UInt32) : Request Outcome where
  call := .ioctlExp 0 IoctlCmd.setBits.code 1
  memory :=
    { request := fun
        | .deviceIocRw => some
            { registerSize := 2, rwAccessMode := mtcaSetBits, barxRw := 0,
              offsetRw := 0, countRw := 1
              dataPtr := 1, maskPtr := 1 }
        | .data _ => some b
        | _ => none }

set_option maxRecDepth 8000 in
/-- Two clients set a bit each, the second after it has started before the first. -/
theorem register_updates_serializable_twoBits :
    ∃ s : Crowd driverInterface (Request Outcome) ℤ (Mutexed (IoAddr → UInt32)) Outcome Bool,
      s.shared.world.env ⟨some 1, 0⟩ = 3 ∧ (s.done false).length = 1 ∧ (s.done true).length = 1 ∧
      ∃ l, (boardClients plainSurroundings twoBitsBoard 0).Serial (boardAtRest twoBitsBoard)
        l s.shared ∧
        ∀ t, ownOrder l t = s.done t := by
  have hallowed (b : UInt32) :
      (boardClients plainSurroundings twoBitsBoard 0).allowed (bitRequest b) :=
    ⟨⟨.setBits, by decide, rfl⟩, rfl⟩
  have hstarts : (boardClients plainSurroundings twoBitsBoard 0).Steps
      (.initial (boardAtRest twoBitsBoard)) _ :=
    ((Relation.ReflTransGen.single (.start (t := true) (bitRequest 2) rfl (hallowed 2))).tail
      (.perform (t := true) rfl
        (boardDriver_of_boardStep (.privateData 0) _ 0 (_, (bitRequest 2).memory) rfl))).tail
      (.start (t := false) (bitRequest 1) rfl (hallowed 1))
  have hfirst := hstarts.trans
    (Clients.Steps.rest (t := false) rfl (run_of_exec boardDriver_of_boardStep rfl))
  have hboth := hfirst.trans
    (Clients.Steps.rest (t := true) rfl (run_of_exec boardDriver_of_boardStep rfl))
  refine ⟨_, ?_, ?_, ?_, register_updates_serializable hboth ?_⟩
  · rfl
  · rfl
  · rfl
  · rintro (_ | _) u hu <;> cases hu

end Upciedev
