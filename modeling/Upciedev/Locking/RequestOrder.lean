import Upciedev.Foundations.Linear
import Upciedev.Locking.VectorConfiguration

/-!
# The order of all requests on a board

Reads and writes and all ioctls except the two that look at or set the configuration without the
region of the board, and the one that enters the region twice. Whatever the interleaving, the
requests have the effect of whole requests one at a time, in an order that agrees with the time in
which they were made. -/
namespace Upciedev

open Foundations Program

/-- `PCIEDEV_GET_SWAP` and `PCIEDEV_SET_REGISTER_SIZE` are outside the region, and
`PCIEDEV_SINGLE_IOC_ACCESS` enters it again inside it. -/
def unorderedCommands : List IoctlCmd := [.getSwap, .setRegisterSize, .singleIocAccess]

/-- Also an ioctl with a command that the driver does not know. -/
def FileCall.IsOrdered : FileCall → Prop
  | .readExp .. | .writeExp .. => True
  | .ioctlExp _ cmd _ => ∀ c ∈ unorderedCommands, cmd ≠ c.code
  | _ => False

variable {δ μ : Type}

/-- Any such requests of the clients on files of the board in entry `dev`. -/
def orderedClients (F : Surroundings δ μ) (w : World δ) (dev : Entry) :
    Clients driverInterface (Request μ) ℤ (Mutexed δ) μ where
  handler := boardDriver F
  program c := c.call.program
  memory c := c.memory
  allowed c := c.call.IsOrdered ∧ w.privateData c.call.filp = dev

/-- What no request changes: whether the board is alive, and its register size. -/
def PciedevDev.control (v : PciedevDev) : ℤ × ℤ := (v.devSts, v.registerSize)

def SameControl (w w' : World δ) : Prop :=
  w'.privateData = w.privateData ∧ ∀ d, (w'.pciedevDevM d).control = (w.pciedevDevM d).control

/-- Outside the region no more is used of a loaded entry. -/
def ControlAnswer : (op : Op) → op.Res → op.Res → Prop
  | .load _, v, v' => v'.control = v.control
  | _, r, r' => r' = r

/-- In the default build the long lock is an operation that only answers. -/
def LocalOp (op : Op) : Prop :=
  OwnOp op ∨ ∃ d, op = .longLockOfCriticalRegion d ∨ op = .unlockLongCritRegion d

/-- Operations inside the region, among them the settings. -/
def InnerOp (dev : Entry) (op : Op) : Prop :=
  BodyOp op ∨ ∃ f : PciedevDev → PciedevDev, (∀ v, (f v).control = v.control) ∧ op = .store dev f

section
variable {F : Surroundings δ μ} {w : World δ} {dev : Entry} {op : Op} {r : op.Res}
  {x x' : Mutexed δ} {m m' : μ}

theorem SameData.sameControl {w w' w'' : World δ} (h : SameData w' w'') (hw : SameControl w w') :
    SameControl w w'' := ⟨h.1.trans hw.1, fun d => by rw [h.2]; exact hw.2 d⟩

theorem sameControl_updateDev (h : SameControl w x.world) {f : PciedevDev → PciedevDev}
    (hf : ∀ v, (f v).control = v.control) : SameControl w (x.world.updateDev dev f) := by
  refine ⟨h.1, fun d => ?_⟩
  by_cases hd : d = dev
  · subst hd
    rw [World.updateDev_self, hf]
    exact h.2 d
  · rw [World.updateDev_other _ hd]
    exact h.2 d

theorem boardDriver_inner (hop : InnerOp dev op) (h : boardDriver F op (x, m) r (x', m'))
    (hx : SameControl w x.world) : SameControl w x'.world ∧ x'.locked = x.locked := by
  rcases hop with hbody | ⟨f, hf, rfl⟩
  · obtain ⟨hdata, hlocked⟩ := boardDriver_body hbody h ⟨rfl, rfl⟩
    exact ⟨hdata.sameControl hx, hlocked⟩
  · obtain ⟨rfl, -⟩ := boardDriver_store.mp h
    exact ⟨sameControl_updateDev hx hf, rfl⟩

theorem localOp_inner (h : LocalOp op) : InnerOp dev op := by
  rcases h with hown | ⟨d, rfl | rfl⟩
  · exact .inl (ownOp_bodyOp hown)
  · exact .inl ⟨trivial, trivial⟩
  · exact .inl ⟨trivial, trivial⟩

/-- Outside the region an operation has the same answer whatever the registers hold and whatever is
set. -/
theorem boardDriver_local (hop : LocalOp op) (h : boardDriver F op (x, m) r (x', m'))
    (hx : SameControl w x.world) : x' = x ∧ fileAnswers w op r ∧
      ∀ y, SameControl w y.world → ∃ r', ControlAnswer op r r' ∧
        boardDriver F op (y, m) r' (y, m') := by
  rcases hop with hown | ⟨d, rfl | rfl⟩
  · obtain ⟨hstay, -, -⟩ := boardDriver_own hown h ⟨rfl, rfl⟩
    refine ⟨hstay, ?_⟩
    obtain ⟨hdriver, -⟩ := (boardDriver_quiet (ownOp_bodyOp hown).2).mp h
    cases op with
    | privateData filp =>
      refine ⟨hdriver.1.trans (congrFun hx.1 filp), fun y hy => ⟨r, rfl, ?_⟩⟩
      refine (boardDriver_quiet trivial).mpr
        ⟨⟨?_, seen_same.mpr ⟨rfl, (seen_same.mp hdriver.2).2⟩⟩, rfl⟩
      exact hdriver.1.trans (congrFun (hx.1.trans hy.1.symm) filp)
    | load d =>
      refine ⟨trivial, fun y hy => ⟨y.world.pciedevDevM d, ?_, ?_⟩⟩
      · obtain rfl : r = x.world.pciedevDevM d := hdriver.1
        exact (hy.2 d).trans (hx.2 d).symm
      · exact (boardDriver_quiet trivial).mpr
          ⟨⟨rfl, seen_same.mpr ⟨rfl, (seen_same.mp hdriver.2).2⟩⟩, rfl⟩
    | kernel c => exact ⟨trivial, fun y _ => ⟨r, rfl, (boardDriver_caller hown h).2 y⟩⟩
    | _ => exact hown.elim
  all_goals
    obtain ⟨⟨hr, hworld⟩, hlocked⟩ := (boardDriver_quiet trivial).mp h
    obtain ⟨hsame, rfl⟩ := seen_same.mp hworld
    refine ⟨Mutexed.ext hsame hlocked, trivial, fun y _ => ⟨r, rfl, ?_⟩⟩
    exact (boardDriver_quiet trivial).mpr ⟨⟨hr, rfl⟩, rfl⟩

end

/-- The region of the board in entry `dev`; nothing is written outside of it. -/
def orderShield (F : Surroundings δ μ) (w : World δ) (dev : Entry) : Shield (boardDriver F) where
  own := LocalOp
  poke _ := False
  enter op := op = .enterCritRegion dev
  body := InnerOp dev
  leave op := op = .leaveCritRegion dev
  Locked x := x.locked dev = true
  Fixed x := SameControl w x.world
  Answers := fileAnswers w
  Same := ControlAnswer
  Still _ _ := True
  fixed hop hstep hx := by
    rcases hop with hop | hfalse | rfl | hop | rfl
    · have hinner : InnerOp dev _ := localOp_inner hop
      exact (boardDriver_inner hinner hstep hx).1
    · exact hfalse.elim
    · obtain ⟨-, -, rfl, -⟩ := boardDriver_enter.mp hstep
      exact hx
    · exact (boardDriver_inner hop hstep hx).1
    · obtain ⟨-, rfl, -⟩ := boardDriver_leave.mp hstep
      exact hx
  own_local := boardDriver_local
  poke_locked hop := hop.elim
  poke_still hop := hop.elim
  enter_free := @boardDriver_enterFree δ μ F dev
  body_locked hop hstep hx := by
    rwa [(boardDriver_inner hop hstep ⟨rfl, fun _ => rfl⟩).2]
  leave_last hop := by
    rintro rfl
    rcases hop with (hop | ⟨d, hop | hop⟩) | hop | hop | ⟨f, -, hop⟩
    · exact hop
    · cases hop
    · cases hop
    · cases hop
    · exact hop.2
    · cases hop
  poke_apart hop := hop.elim

section
variable {F : Surroundings δ μ} {w : World δ} {dev : Entry}

theorem inside_order {p : Kernel ℤ} (h : (boardRegion F w dev).Inside p) :
    (orderShield F w dev).Inside p := by
  induction p with
  | ret a => trivial
  | call op k ih =>
    rcases h with ⟨hleave, hrest⟩ | ⟨hbody, hrest⟩
    · exact .inl ⟨hleave, hrest⟩
    · exact .inr ⟨.inl hbody, fun r => ih r (hrest r)⟩

theorem inside_of_outside {body : Kernel ℤ}
    (h : (boardRegion F w dev).Outside (withCritRegion dev body)) :
    (boardRegion F w dev).Inside body := by
  rcases h with ⟨-, hrest⟩ | ⟨hown, -⟩
  · exact hrest 0
  · exact hown.elim

theorem withCritRegion_ordered {body : Kernel ℤ} (h : (orderShield F w dev).Inside body) :
    (orderShield F w dev).Outside False (withCritRegion dev body) := by
  refine .inl ⟨rfl, fun r => ?_⟩
  change (orderShield F w dev).Inside (if r ≠ 0 then pure eRestartSys else body)
  split_ifs
  · trivial
  · exact h

theorem kernel_ordered {c : KernelCall} (hc : c.IsRegister = false) {k : c.Res → Kernel ℤ}
    (hk : ∀ r, (orderShield F w dev).Outside False (k r)) :
    (orderShield F w dev).Outside False (kernel c >>= k) :=
  .inr (.inl ⟨.inl hc, fun r _ => ⟨hk r, fun r' hr => by rw [show r' = r from hr]⟩⟩)

theorem load_ordered {k : PciedevDev → Kernel ℤ}
    (hk : ∀ v, (orderShield F w dev).Outside False (k v))
    (hcontrol : ∀ v v' : PciedevDev, v'.control = v.control → k v' = k v) :
    (orderShield F w dev).Outside False (load dev >>= k) :=
  .inr (.inl ⟨.inl trivial, fun v _ => ⟨hk v, fun v' hv => hcontrol v v' hv⟩⟩)

theorem correctFrom_ordered {code : ℕ} {k : UInt16 → Kernel ℤ}
    (hk : ∀ s, (orderShield F w dev).Outside False (k s)) :
    (orderShield F w dev).Outside False (correctFrom dev code >>= k) := by
  unfold correctFrom
  split_ifs
  · apply load_ordered
    · exact fun v => hk _
    · intro v v' hv
      have hsize : v'.registerSize = v.registerSize := congrArg Prod.snd hv
      rw [hsize]
  · exact hk _

theorem leaveWith_ordered (retval : ℤ) : (orderShield F w dev).Inside (leaveWith dev retval) :=
  .inl ⟨rfl, fun _ => ⟨retval, rfl⟩⟩

theorem body_ordered {op : Op} (hop : BodyOp op) {k : op.Res → Kernel ℤ}
    (hk : ∀ r, (orderShield F w dev).Inside (k r)) :
    (orderShield F w dev).Inside (call (I := driverInterface) op k) := .inr ⟨.inl hop, hk⟩

theorem store_ordered {f : PciedevDev → PciedevDev} (hf : ∀ v, (f v).control = v.control)
    {k : Unit → Kernel ℤ} (hk : (orderShield F w dev).Inside (k ())) :
    (orderShield F w dev).Inside (store dev f >>= k) :=
  .inr ⟨.inr ⟨f, hf, rfl⟩, fun _ => hk⟩

theorem answer_ordered (T : UserType) (arg : UInt64) (v : T.Val) :
    (orderShield F w dev).Inside (answer dev T arg v) := by
  apply body_ordered ⟨trivial, trivial⟩
  intro failed
  change (orderShield F w dev).Inside (if failed then leaveWith dev eFault else leaveWith dev 0)
  split_ifs
  · exact leaveWith_ordered _
  · exact leaveWith_ordered _

theorem copied_ordered {T : UserType} {arg : UInt64} {k : Option T.Val → Kernel ℤ}
    (hnone : k none = leaveWith dev eFault)
    (hsome : ∀ v, (orderShield F w dev).Inside (k (some v))) :
    (orderShield F w dev).Inside (copyFromUser T arg >>= k) := by
  apply body_ordered ⟨trivial, trivial⟩
  rintro (_ | v)
  · change (orderShield F w dev).Inside (k none)
    rw [hnone]
    exact leaveWith_ordered _
  · exact hsome v

theorem uninitIoctrlData_ordered {k : DeviceIoctrlData → Kernel ℤ}
    (hk : ∀ data, (orderShield F w dev).Inside (k data)) :
    (orderShield F w dev).Inside (uninitIoctrlData >>= k) := by
  apply Shield.Inside.bind _ hk
  have hop : InnerOp dev (.kernel .uninit) := .inl ⟨trivial, trivial⟩
  simp only [uninitIoctrlData, perform_eq, call_bind, ret_bind, pure_eq, only_call, only_ret]
  exact ⟨hop, fun _ => ⟨hop, fun _ => ⟨hop, fun _ => ⟨hop, fun _ => trivial⟩⟩⟩⟩

theorem scratchReg_ordered (arg : UInt64) :
    (orderShield F w dev).Outside False (ioctlScratchReg dev arg) := by
  apply withCritRegion_ordered
  apply copied_ordered rfl
  intro data
  have hquiet {op : Op} (hsteady : op.Steady) (hop : op.Quiet) : InnerOp dev op :=
    .inl ⟨hsteady, hop⟩
  have hread (base : IoPtr) : (readScratchReg dev base data).Only (InnerOp dev) := by
    simp only [readScratchReg, perform_eq, call_bind, ret_bind, pure_eq, only_call, only_ite,
      only_ret]
    simp [hquiet, Op.Steady, Op.Quiet]
  change (orderShield F w dev).Inside (if data.cmd = 1 then _ else if data.cmd = 0 then _ else
    if data.cmd = 2 then _ else _)
  split_ifs
  · exact body_ordered ⟨trivial, trivial⟩ fun _ => body_ordered ⟨trivial, trivial⟩ fun _ =>
      answer_ordered ..
  · refine store_ordered ?_ (store_ordered ?_ (answer_ordered ..))
    · exact fun _ => rfl
    · exact fun _ => rfl
  · refine body_ordered ⟨trivial, trivial⟩ fun _ =>
      body_ordered ⟨trivial, trivial⟩ fun address => ?_
    change (orderShield F w dev).Inside (if address = none then _ else _)
    split_ifs
    · exact leaveWith_ordered _
    · exact .bind (hread address) fun _ => answer_ordered ..
  · exact answer_ordered ..

theorem ioctlCase_ordered (arg : UInt64) {c : IoctlCmd} (hc : c ∉ unorderedCommands) :
    (orderShield F w dev).Outside False (ioctlCase dev arg c) := by
  have hupdate {body : Kernel ℤ} (h : (boardRegion F w dev).Outside (withCritRegion dev body)) :
      (orderShield F w dev).Outside False (withCritRegion dev body) :=
    withCritRegion_ordered (inside_order (inside_of_outside h))
  cases c with
  | physicalSlot =>
    apply withCritRegion_ordered
    apply copied_ordered rfl
    exact fun data => body_ordered ⟨trivial, trivial⟩ fun v => answer_ordered ..
  | driverVersion | udriverVersion =>
    apply withCritRegion_ordered
    apply uninitIoctrlData_ordered
    exact fun data => body_ordered ⟨trivial, trivial⟩ fun v =>
      body_ordered ⟨trivial, trivial⟩ fun v' => answer_ordered ..
  | firmwareVersion | getStatus =>
    apply withCritRegion_ordered
    apply uninitIoctrlData_ordered
    exact fun data => body_ordered ⟨trivial, trivial⟩ fun v => answer_ordered ..
  | scratchReg => exact scratchReg_ordered arg
  | setSwap =>
    apply withCritRegion_ordered
    apply copied_ordered rfl
    intro nUserValue
    refine store_ordered (f := fun v => { v with swap := if nUserValue ≠ 0 then 1 else 0 }) ?_
      (leaveWith_ordered _)
    exact fun _ => rfl
  | setBits => exact hupdate (ioctlCase_outside arg (c := .setBits) (by decide))
  | swapBits => exact hupdate (ioctlCase_outside arg (c := .swapBits) (by decide))
  | lockedRead =>
    apply kernel_ordered rfl
    rintro (_ | rw)
    · trivial
    · apply correctFrom_ordered
      intro s
      apply withCritRegion_ordered
      apply Shield.Inside.bind
      · exact (pciedevReadInline_only _).mono fun _ h => .inl (inlineOp_bodyOp h)
      · exact fun _ => leaveWith_ordered _
  | vectorRw =>
    apply kernel_ordered rfl
    rintro (_ | vector)
    · trivial
    · apply withCritRegion_ordered
      apply Shield.Inside.bind
      · exact (vectorLoop_body _ _ _).mono fun _ => Or.inl
      · exact fun _ => leaveWith_ordered _
  | getRegisterSize =>
    apply load_ordered
    · exact fun v => trivial
    · intro v v' hv
      rw [show v'.registerSize = v.registerSize from congrArg Prod.snd hv]
  | lockDevice | unlockDevice =>
    exact .inr
      (.inl ⟨.inr ⟨dev, by simp⟩, fun r _ => ⟨trivial, fun r' hr => by rw [show r' = r from hr]⟩⟩)
  | getShapiDevinfo =>
    apply withCritRegion_ordered
    exact body_ordered ⟨trivial, trivial⟩ fun _ => body_ordered ⟨trivial, trivial⟩ fun _ =>
      answer_ordered ..
  | getShapiModinfo =>
    apply withCritRegion_ordered
    apply copied_ordered rfl
    exact fun _ => body_ordered ⟨trivial, trivial⟩ fun _ => answer_ordered ..
  | getSwap | setRegisterSize | singleIocAccess => exact absurd hc (by decide)

theorem accessError_ordered {cmd : UInt32} {arg : UInt64} {k : Bool → Kernel ℤ}
    (hk : ∀ err, (orderShield F w dev).Outside False (k err)) :
    (orderShield F w dev).Outside False (accessError cmd arg >>= k) := by
  unfold accessError
  split_ifs
  · exact kernel_ordered rfl fun ok => hk _
  · exact hk _

/-- Before its region a request uses no more than its file and the control fields of its board. -/
theorem ordered_outside {c : FileCall} (hc : c.IsOrdered) (hfile : w.privateData c.filp = dev) :
    (orderShield F w dev).Outside False c.program := by
  have haccess (dir : Direction) (accessMode : UInt16) (dead refused : ℤ) {filp : File}
      (hfile : w.privateData filp = dev) (buf count fPosPtr fPos : UInt64) :
        (orderShield F w dev).Outside False
        (accessExp dir accessMode dead refused filp buf count fPosPtr fPos) := by
    refine .inr (.inl ⟨.inl trivial, fun d hd => ⟨?_, fun d' hd' => by rw [show d' = d from hd']⟩⟩)
    obtain rfl : d = dev := hd.trans hfile
    apply load_ordered
    · intro v
      split_ifs
      · trivial
      · exact withCritRegion_ordered (inside_order (accessBody_inside ..))
    · intro v v' hv
      rw [show v'.devSts = v.devSts from congrArg Prod.fst hv]
  cases c with
  | readExp filp buf count fPosPtr fPos =>
    rw [FileCall.program, pciedevReadExp_eq]
    exact haccess _ _ _ _ hfile ..
  | writeExp filp buf count fPosPtr fPos =>
    rw [FileCall.program, pciedevWriteExp_eq]
    exact haccess _ _ _ _ hfile ..
  | ioctlExp filp cmd arg =>
    refine .inr (.inl ⟨.inl trivial, fun d hd => ⟨?_, fun d' hd' => by rw [show d' = d from hd']⟩⟩)
    obtain rfl : d = dev := hd.trans hfile
    apply load_ordered
    · intro v
      split_ifs
      · trivial
      · apply accessError_ordered
        intro err
        split_ifs
        · trivial
        · cases hcmd : IoctlCmd.decode cmd with
          | none => trivial
          | some c =>
              exact ioctlCase_ordered arg fun hmem => hc c hmem (IoctlCmd.code_of_decode hcmd).symm
    · intro v v' hv
      rw [show v'.devSts = v.devSts from congrArg Prod.fst hv]
  | openExp | releaseExp | llseek | remapMmapExp => exact hc.elim

/-- For any number of clients with any sequences of such requests on one board, and any interleaving
that the lock admits: at every moment the requests that have returned, and some of those that are
about to, have run as whole requests one at a time, with the same register accesses, user data and
results. The order at a later moment continues the order before: a request that returns before
another one is made comes before it. When no request is running, the board is as that order leaves
it. -/
theorem board_requests_linearizable {T : Type} [DecidableEq T]
    {s s' : Crowd driverInterface (Request μ) ℤ (Mutexed δ) μ T}
    (hs : (orderedClients F w dev).Steps (.initial (boardAtRest w)) s)
    (hs' : (orderedClients F w dev).Steps s s') :
    ∃ l l', Explains (orderedClients F w dev) (orderShield F w dev) (boardAtRest w) s l ∧
      Explains (orderedClients F w dev) (orderShield F w dev) (boardAtRest w) s' (l ++ l') := by
  apply linearizable (S := orderedClients F w dev) (R := orderShield F w dev)
    _ ⟨rfl, fun _ => rfl⟩ hs hs'
  intro c hc
  exact ordered_outside hc.1 hc.2

end

set_option maxRecDepth 8000 in
/-- A bit-set is made before the swap is switched on, and comes after it in the order. -/
theorem board_requests_linearizable_swap :
    ∃ s s' : Crowd driverInterface (Request Outcome) ℤ (Mutexed (IoAddr → UInt32)) Outcome Bool,
      (s.done true).length = 0 ∧ (s.done false).length = 1 ∧ (s'.done true).length = 1 ∧
      s'.shared.world.env ⟨some 1, 0⟩ = 0x2000000 ∧
      ∃ l l', Explains (orderedClients plainSurroundings twoBitsBoard 0)
        (orderShield plainSurroundings twoBitsBoard 0)
          (boardAtRest twoBitsBoard) s l ∧
        Explains (orderedClients plainSurroundings twoBitsBoard 0)
          (orderShield plainSurroundings twoBitsBoard 0)
          (boardAtRest twoBitsBoard) s' (l ++ l') := by
  have hallowed : (orderedClients plainSurroundings twoBitsBoard 0).allowed (bitRequest 2) ∧
      (orderedClients plainSurroundings twoBitsBoard 0).allowed swapOn :=
    ⟨⟨(by decide : ∀ c ∈ unorderedCommands, IoctlCmd.setBits.code ≠ c.code), rfl⟩,
      (by decide : ∀ c ∈ unorderedCommands, IoctlCmd.setSwap.code ≠ c.code), rfl⟩
  have hstarts : (orderedClients plainSurroundings twoBitsBoard 0).Steps
      (.initial (boardAtRest twoBitsBoard)) _ :=
    ((Relation.ReflTransGen.single (.start (t := true) (bitRequest 2) rfl hallowed.1)).tail
      (.perform (t := true) rfl
        (boardDriver_of_boardStep (.privateData 0) _ 0 (_, (bitRequest 2).memory) rfl))).tail
      (.start (t := false) swapOn rfl hallowed.2)
  have hfirst := hstarts.trans
    (Clients.Steps.rest (t := false) rfl (run_of_exec boardDriver_of_boardStep rfl))
  refine ⟨_, _, ?_, ?_, ?_, ?_, board_requests_linearizable hfirst
    (Clients.Steps.rest (t := true) rfl (run_of_exec boardDriver_of_boardStep rfl))⟩
  · rfl
  · rfl
  · rfl
  · rfl

end Upciedev
