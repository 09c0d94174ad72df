import Upciedev.Foundations.Shield
import Upciedev.Locking.RegisterUpdates
import Upciedev.Model.FileFootprint

/-!
# The configuration of a vector

Vectors of register accesses next to requests that set the default register size and the swap of the
board. The swap is set inside the region of the board, the register size is not. A vector during
which the register size stays has the effect of one whole vector, under one size and one swap.
-/
namespace Upciedev

open Foundations Program

def configCommands : List IoctlCmd := [.vectorRw, .setSwap, .setRegisterSize]

def FileCall.IsConfig : FileCall → Prop
  | .ioctlExp _ cmd _ => ∃ c ∈ configCommands, cmd = c.code
  | _ => False

def FileCall.IsVector : FileCall → Prop
  | .ioctlExp _ cmd _ => cmd = IoctlCmd.vectorRw.code
  | _ => False

variable {δ μ : Type}

/-- Vectors and settings of the clients on files of the board in entry `dev`. -/
def configClients (F : Surroundings δ μ) (w : World δ) (dev : Entry) :
    Clients driverInterface (Request μ) ℤ (Mutexed δ) μ where
  handler := boardDriver F
  program c := c.call.program
  memory c := c.memory
  allowed c := c.call.IsConfig ∧ w.privateData c.call.filp = dev

def PciedevDev.setSize (v : PciedevDev) (n : ℤ) : PciedevDev := { v with registerSize := n }

def PciedevDev.setSwap (v : PciedevDev) (n : ℤ) : PciedevDev := { v with swap := n }

def IsFlag (n : ℤ) : Prop := n = 0 ∨ n = 1

/-- The settings do not concern the file of a request nor whether its board is alive. -/
def SameFile (w w' : World δ) : Prop :=
  w'.privateData = w.privateData ∧ ∀ d, (w'.pciedevDevM d).devSts = (w.pciedevDevM d).devSts

def fileAnswers (w : World δ) : (op : Op) → op.Res → Prop
  | .privateData filp, d => d = w.privateData filp
  | _, _ => True

/-- Outside the region no more is used of a loaded entry than whether the board is alive. -/
def SameAnswer : (op : Op) → op.Res → op.Res → Prop
  | .load _, v, v' => v'.devSts = v.devSts
  | _, r, r' => r' = r

section
variable {F : Surroundings δ μ} {w : World δ} {dev : Entry} {op : Op} {r : op.Res}
  {x x' : Mutexed δ} {m m' : μ}

theorem boardDriver_store {f : PciedevDev → PciedevDev} {r : Unit} :
    boardDriver F (.store dev f) (x, m) r (x', m') ↔
      x' = { x with world := x.world.updateDev dev f } ∧ m' = m := by
  have hseen : (x'.seen m').world = ((x.seen m).world.updateDev dev f) ↔
      x'.world = x.world.updateDev dev f ∧ m' = m :=
    seen_same (x := { x with world := x.world.updateDev dev f })
  have hquiet : Op.Quiet (.store dev f) := trivial
  apply (boardDriver_quiet hquiet).trans
  rw [Mutexed.ext_iff]
  exact (and_congr_left' hseen).trans (by tauto)

theorem sameFile_updateDev (h : SameFile w x.world) {f : PciedevDev → PciedevDev}
    (hf : ∀ v, (f v).devSts = v.devSts) : SameFile w (x.world.updateDev dev f) := by
  refine ⟨h.1, fun d => ?_⟩
  by_cases hd : d = dev
  · subst hd
    rw [World.updateDev_self, hf]
    exact h.2 d
  · rw [World.updateDev_other _ hd]
    exact h.2 d

theorem updateDev_unchanged {u : World δ} {n : ℤ}
    (h : ((u.updateDev dev (·.setSize n)).pciedevDevM dev).registerSize =
      (u.pciedevDevM dev).registerSize) :
    u.updateDev dev (·.setSize n) = u := by
  apply World.updateDev_eq_self
  rw [World.updateDev_self] at h
  obtain rfl : n = (u.pciedevDevM dev).registerSize := h
  rfl

theorem SameData.sameFile {w w' w'' : World δ} (h : SameData w' w'') (hw : SameFile w w') :
    SameFile w w'' :=
  ⟨h.1.trans hw.1, fun d => by rw [h.2]; exact hw.2 d⟩

/-- An operation outside the region has the same answer whatever is set, up to the settings. -/
theorem boardDriver_ownAnswer (hop : OwnOp op) (h : boardDriver F op (x, m) r (x', m'))
    (hx : SameFile w x.world) :
    x' = x ∧ fileAnswers w op r ∧
      ∀ y, SameFile w y.world → ∃ r', SameAnswer op r r' ∧ boardDriver F op (y, m) r' (y, m') := by
  obtain ⟨hstay, -, hall⟩ := boardDriver_own hop h ⟨rfl, rfl⟩
  refine ⟨hstay, ?_⟩
  obtain ⟨hdriver, -⟩ := (boardDriver_quiet (ownOp_bodyOp hop).2).mp h
  cases op with
  | privateData filp =>
    refine ⟨hdriver.1.trans (congrFun hx.1 filp), fun y hy =>
      ⟨r, rfl, (boardDriver_quiet trivial).mpr ⟨?_, rfl⟩⟩⟩
    refine ⟨hdriver.1.trans (congrFun (hx.1.trans hy.1.symm) filp), seen_same.mpr ⟨rfl, ?_⟩⟩
    exact (seen_same.mp hdriver.2).2
  | load d =>
    refine ⟨trivial, fun y hy =>
      ⟨y.world.pciedevDevM d, ?_, (boardDriver_quiet trivial).mpr ⟨⟨rfl, ?_⟩, rfl⟩⟩⟩
    · obtain rfl : r = x.world.pciedevDevM d := hdriver.1
      exact (hy.2 d).trans (hx.2 d).symm
    · exact seen_same.mpr ⟨rfl, (seen_same.mp hdriver.2).2⟩
  | kernel c => exact ⟨trivial, fun y _ => ⟨r, rfl, (boardDriver_caller hop h).2 y⟩⟩
  | _ => exact hop.elim

end

theorem boardDriver_enterFree {F : Surroundings δ μ} {dev : Entry} {op : Op} {x x' : Mutexed δ}
    {m m' : μ} {r : op.Res} (hop : op = .enterCritRegion dev)
    (hstep : boardDriver F op (x, m) r (x', m')) :
    ¬ x.locked dev = true ∧ x'.locked dev = true := by
  subst hop
  obtain ⟨hfree, -, rfl, -⟩ := boardDriver_enter.mp hstep
  simp [hfree]

/-- The region of the board in entry `dev`, and the setting of its register size. -/
def configShield (F : Surroundings δ μ) (w : World δ) (dev : Entry) : Shield (boardDriver F) where
  own := OwnOp
  poke op := ∃ n, ValidSize n ∧ op = .store dev (·.setSize n)
  enter op := op = .enterCritRegion dev
  body op := BodyOp op ∨ ∃ n, IsFlag n ∧ op = .store dev (·.setSwap n)
  leave op := op = .leaveCritRegion dev
  Locked x := x.locked dev = true
  Fixed x := SameFile w x.world
  Answers := fileAnswers w
  Same := SameAnswer
  Still x x' := (x'.world.pciedevDevM dev).registerSize = (x.world.pciedevDevM dev).registerSize
  fixed hop hstep hx := by
    rcases hop with hop | ⟨n, -, rfl⟩ | rfl | (hop | ⟨n, -, rfl⟩) | rfl
    · exact (boardDriver_body (ownOp_bodyOp hop) hstep ⟨rfl, rfl⟩).1.sameFile hx
    · obtain ⟨rfl, -⟩ := boardDriver_store.mp hstep
      exact sameFile_updateDev hx fun _ => rfl
    · obtain ⟨-, -, rfl, -⟩ := boardDriver_enter.mp hstep
      exact hx
    · exact (boardDriver_body hop hstep ⟨rfl, rfl⟩).1.sameFile hx
    · obtain ⟨rfl, -⟩ := boardDriver_store.mp hstep
      exact sameFile_updateDev hx fun _ => rfl
    · obtain ⟨-, rfl, -⟩ := boardDriver_leave.mp hstep
      exact hx
  own_local := boardDriver_ownAnswer
  poke_locked hop hstep hx := by
    obtain ⟨n, -, rfl⟩ := hop
    obtain ⟨rfl, -⟩ := boardDriver_store.mp hstep
    exact hx
  poke_still hop hstep hstill := by
    obtain ⟨n, -, rfl⟩ := hop
    obtain ⟨rfl, -⟩ := boardDriver_store.mp hstep
    rw [updateDev_unchanged hstill]
  enter_free := @boardDriver_enterFree δ μ F dev
  body_locked hop hstep hx := by
    rcases hop with hop | ⟨n, -, rfl⟩
    · rwa [((boardDriver_quiet hop.2).mp hstep).2]
    · obtain ⟨rfl, -⟩ := boardDriver_store.mp hstep
      exact hx
  leave_last hop := by
    rintro rfl
    rcases hop with hop | hop | hop | ⟨n, -, hop⟩
    · exact hop
    · cases hop
    · exact hop.2
    · cases hop
  poke_apart hop := by
    obtain ⟨n, -, rfl⟩ := hop
    exact ⟨fun h => h, nofun⟩

section
variable {F : Surroundings δ μ} {w : World δ} {dev : Entry}

theorem copyFromUser_shielded {pokes : Prop} {T : UserType} {src : UInt64}
    {k : Option T.Val → Kernel ℤ} (hk : ∀ v, (configShield F w dev).Outside pokes (k v)) :
    (configShield F w dev).Outside pokes (copyFromUser T src >>= k) := by
  apply Shield.Outside.bind
  · exact (only_call ..).mpr ⟨⟨rfl, fun _ _ h => h⟩, fun _ => trivial⟩
  · exact hk

theorem accessError_shielded (cmd : UInt32) (arg : UInt64) : (accessError cmd arg).Only fun op =>
    (configShield F w dev).own op ∧ ∀ r r', (configShield F w dev).Same op r r' → r' = r := by
  unfold accessError
  split_ifs
  · exact (only_call ..).mpr ⟨⟨rfl, fun _ _ h => h⟩, fun _ => trivial⟩
  · trivial

theorem withCritRegion_shielded {pokes : Prop} {body : Kernel ℤ}
    (h : (configShield F w dev).Inside body) :
    (configShield F w dev).Outside pokes (withCritRegion dev body) := by
  refine .inl ⟨rfl, fun r => ?_⟩
  change (configShield F w dev).Inside (if r ≠ 0 then pure eRestartSys else body)
  split_ifs
  · trivial
  · exact h

theorem vectorRw_shielded (arg : UInt64) :
    (configShield F w dev).Outside False (ioctlVectorRw dev arg) := by
  apply copyFromUser_shielded
  rintro (_ | vector)
  · trivial
  · apply withCritRegion_shielded
    apply Shield.Inside.bind
    · exact (vectorLoop_body _ _ _).mono fun _ => Or.inl
    · exact fun retval => .inl ⟨rfl, fun _ => ⟨retval, rfl⟩⟩

theorem setSwap_shielded (arg : UInt64) :
    (configShield F w dev).Outside False (ioctlSetSwap dev arg) := by
  apply withCritRegion_shielded
  refine .inr ⟨.inl ⟨trivial, trivial⟩, ?_⟩
  rintro (_ | nUserValue)
  · exact .inl ⟨rfl, fun _ => ⟨eFault, rfl⟩⟩
  · have hflag : IsFlag (if nUserValue ≠ 0 then 1 else 0) := by
      split_ifs
      · exact .inr rfl
      · exact .inl rfl
    exact .inr ⟨.inr ⟨_, hflag, rfl⟩, fun _ => .inl ⟨rfl, fun _ => ⟨0, rfl⟩⟩⟩

theorem setRegisterSize_shielded (arg : UInt64) :
    (configShield F w dev).Outside True (ioctlSetRegisterSize dev arg) := by
  apply copyFromUser_shielded
  rintro (_ | nUserValue)
  · trivial
  · have hword : ValidSize 2 := ⟨by decide, by decide⟩
    have hsize := validSize_correctRegisterSize (cInt nUserValue) hword
    exact .inr (.inr ⟨trivial, ⟨_, hsize, rfl⟩, fun _ => trivial⟩)

/-- The file, the state of the board and the argument are looked at outside the region. -/
theorem ioctl_shielded {pokes : Prop} {filp : File} (hfile : w.privateData filp = dev)
    (c : IoctlCmd) (arg : UInt64)
    (hcase : (configShield F w dev).Outside pokes (ioctlCase dev arg c)) :
    (configShield F w dev).Outside pokes (FileCall.ioctlExp filp c.code arg).program := by
  refine .inr (.inl ⟨trivial, fun d hd => ⟨?_, ?_⟩⟩)
  · obtain rfl : d = dev := hd.trans hfile
    refine .inr (.inl ⟨trivial, fun v _ => ⟨?_, fun v' hv => ?_⟩⟩)
    · change (configShield F w d).Outside pokes (if v.devSts = 0 then pure eFault else
        accessError c.code arg >>= _)
      split_ifs
      · trivial
      · apply Shield.Outside.bind (accessError_shielded _ _)
        intro err
        rw [IoctlCmd.decode_code]
        cases err with
        | true => trivial
        | false => exact hcase
    · have hsts : v'.devSts = v.devSts := hv
      change (if v'.devSts = 0 then _ else _) = if v.devSts = 0 then _ else _
      rw [hsts]
  · rintro d' rfl
    rfl

theorem config_shielded {c : FileCall} (hc : c.IsConfig) (hfile : w.privateData c.filp = dev) :
    (configShield F w dev).Outside True c.program := by
  cases c with
  | ioctlExp filp cmd arg =>
    obtain ⟨c, hc, rfl⟩ := hc
    apply ioctl_shielded hfile c arg
    simp only [configCommands, List.mem_cons, List.not_mem_nil, or_false] at hc
    rcases hc with rfl | rfl | rfl
    · exact (vectorRw_shielded arg).mono fun h => h.elim
    · exact (setSwap_shielded arg).mono fun h => h.elim
    · exact setRegisterSize_shielded arg
  | readExp | writeExp | openExp | releaseExp | llseek | remapMmapExp => exact hc.elim

/-- For any number of clients with any vectors and settings on one board, and any interleaving that
the lock admits: a vector during whose region nobody changes the register size has the registers,
the user data and the result of the whole vector, from the state `s'` of the board at one moment of
the call to its state `s''` at a later one. -/
theorem vector_one_configuration {T : Type} [DecidableEq T] {c : Request μ}
    (hvector : c.call.IsVector) (hfile : w.privateData c.call.filp = dev) {t : T}
    {s₁ s : Crowd driverInterface (Request μ) ℤ (Mutexed δ) μ T}
    (hreach : (configClients F w dev).Steps (.initial (boardAtRest w)) s₁)
    (hstart : s₁.running t = some ⟨c, [], c.call.program, c.memory⟩)
    (hduring : (configClients F w dev).During t c ((configShield F w dev).Undisturbed t) s₁ s)
    {tr : Trace} {a : ℤ} {m : μ} (hret : s.running t = some ⟨c, tr, .ret a, m⟩) :
    ∃ s' s'', (configClients F w dev).During t c ((configShield F w dev).Undisturbed t) s₁ s' ∧
      (configClients F w dev).During t c ((configShield F w dev).Undisturbed t) s' s'' ∧
      (configClients F w dev).During t c ((configShield F w dev).Undisturbed t) s'' s ∧
      ∃ tr', c.call.program.Run (boardDriver F) (s'.shared, c.memory) tr' a (s''.shared, m) := by
  apply shielded (S := configClients F w dev) (R := configShield F w dev)
    _ ⟨rfl, fun _ => rfl⟩ hreach _ hstart hduring hret
  · intro c hc
    exact config_shielded hc.1 hc.2
  · obtain ⟨call, m₀⟩ := c
    cases call with
    | ioctlExp filp cmd arg =>
      obtain rfl : cmd = IoctlCmd.vectorRw.code := hvector
      exact ioctl_shielded hfile .vectorRw arg (vectorRw_shielded arg)
    | readExp | writeExp | openExp | releaseExp | llseek | remapMmapExp => exact hvector.elim

end

theorem boardDriver_driver {F : Surroundings δ μ} {op : Op} {r : op.Res} {x x' : Mutexed δ}
    {m m' : μ} (h : boardDriver F op (x, m) r (x', m')) :
    driver F.environment op (x.seen m).world r (x'.seen m').world := by
  cases op with
  | enterCritRegion d => exact ⟨h.2.1, (Mutexed.ext_iff.mp h.2.2).1⟩
  | leaveCritRegion d => exact ⟨h.1, (Mutexed.ext_iff.mp h.2).1⟩
  | _ => exact h.1

/-- The default register size is a size code and the swap a flag at all times. -/
theorem configClients_values {T : Type} [DecidableEq T] {F : Surroundings δ μ} {w : World δ}
    {dev : Entry} {s : Crowd driverInterface (Request μ) ℤ (Mutexed δ) μ T}
    (h : (configClients F w dev).Steps (.initial (boardAtRest w)) s)
    (hw : ValidSize (w.pciedevDevM dev).registerSize ∧ IsFlag (w.pciedevDevM dev).swap) :
    ValidSize (s.shared.world.pciedevDevM dev).registerSize ∧
      IsFlag (s.shared.world.pciedevDevM dev).swap := by
  apply Shield.keeps (S := configClients F w dev) (R := configShield F w dev)
    (P := fun x => ValidSize (x.world.pciedevDevM dev).registerSize ∧
      IsFlag (x.world.pciedevDevM dev).swap)
    _ _ ⟨rfl, fun _ => rfl⟩ hw h
  · exact fun c hc => config_shielded hc.1 hc.2
  · intro op x m r x' m' hop hstep hx
    replace hstep : boardDriver F op (x, m) r (x', m') := hstep
    have hsame (hbody : BodyOp op) : x'.world.pciedevDevM = x.world.pciedevDevM :=
      (boardDriver_body hbody hstep ⟨rfl, rfl⟩).1.2
    rcases hop with hop | ⟨n, hn, rfl⟩ | rfl | (hop | ⟨n, hn, rfl⟩) | rfl
    · rwa [hsame (ownOp_bodyOp hop)]
    · obtain ⟨rfl, -⟩ := boardDriver_store.mp hstep
      rw [World.updateDev_self]
      exact ⟨hn, hx.2⟩
    · obtain ⟨-, -, rfl, -⟩ := boardDriver_enter.mp hstep
      exact hx
    · rwa [hsame hop]
    · obtain ⟨rfl, -⟩ := boardDriver_store.mp hstep
      rw [World.updateDev_self]
      exact ⟨hx.1, hn⟩
    · obtain ⟨-, rfl, -⟩ := boardDriver_leave.mp hstep
      exact hx

def Op.isStore : Op → Bool
  | .store _ _ => true
  | _ => false

/-- The steps that store nothing and read no BAR array past its end. -/
def plainStep (op : Op) (s : Mutexed (IoAddr → UInt32) × Outcome) :
    Option (op.Res × (Mutexed (IoAddr → UInt32) × Outcome)) :=
  if op.inRange && !op.isStore then boardStep op s else none

theorem plainStep_unique (op : Op) (s : Mutexed (IoAddr → UInt32) × Outcome) (r : op.Res)
    (s' : Mutexed (IoAddr → UInt32) × Outcome) (r' : op.Res)
    (t : Mutexed (IoAddr → UInt32) × Outcome)
    (hstep : plainStep op s = some (r, s')) (h : boardDriver plainSurroundings op s r' t) :
    r' = r ∧ t = s' := by
  unfold plainStep at hstep
  split_ifs at hstep with hop
  rw [boardStep_of_boardDriver (Bool.and_eq_true_iff.mp hop).1 h] at hstep
  exact Prod.mk.inj (Option.some.inj hstep)

/-- Two descriptors, each of which reads one register of the default size. -/
def twoReads : Request Outcome where
  call := .ioctlExp 0 IoctlCmd.vectorRw.code 1
  memory :=
    { request := fun
        | .deviceVectorRw => some { numberOfRw := 2, deviceIocRwPtr := 1 }
        | .deviceIocRw => some
            { registerSize := 3, rwAccessMode := mtcaSimpleRead, barxRw := 0,
              offsetRw := 0, countRw := 1
              dataPtr := 1, maskPtr := 0 }
        | _ => none }

def byteSize : Request Outcome where
  call := .ioctlExp 0 IoctlCmd.setRegisterSize.code 1
  memory := { request := fun
    | .int => some 0
    | _ => none }

def Mutexed.configured (x : Mutexed δ) (dev : Entry) (registerSize swap : ℤ) : Mutexed δ :=
  { x with world := x.world.updateDev dev fun v => (v.setSize registerSize).setSwap swap }

theorem twoReads_result {registerSize swap : ℤ} (hsize : ValidSize registerSize)
    (hswap : IsFlag swap) {tr : Trace} {a : ℤ} {x : Mutexed (IoAddr → UInt32) × Outcome}
    (hrun : twoReads.call.program.Run (boardDriver plainSurroundings)
      ((boardAtRest twoBitsBoard).configured 0 registerSize swap, twoReads.memory) tr a x) :
    a = 2 ∨ a = 4 ∨ a = 8 := by
  have hresult {b : ℤ} (hb : (twoReads.call.program.exec plainStep
      ((boardAtRest twoBitsBoard).configured 0 registerSize swap, twoReads.memory)).map
        (·.2.1) = some b) :
      a = b := by
    obtain ⟨⟨tr', b, x'⟩, hexec, rfl⟩ := Option.map_eq_some_iff.mp hb
    exact (hrun.eq_of_exec plainStep_unique hexec).2.1
  obtain ⟨hlow, hhigh⟩ := hsize
  have hcases : registerSize = 0 ∨ registerSize = 1 ∨ registerSize = 2 := by
    simp only [mtcaMaxRw] at hhigh
    omega
  rcases hcases with rfl | rfl | rfl
  · exact .inl (hresult (by rcases hswap with rfl | rfl <;> decide +kernel))
  · exact .inr (.inl (hresult (by rcases hswap with rfl | rfl <;> decide +kernel)))
  · exact .inr (.inr (hresult (by rcases hswap with rfl | rfl <;> decide +kernel)))

/-- The vector has read its first register, another client makes the size one byte, and the vector
goes on to its end. -/
theorem twoReads_history :
    ((execTo boardStep 18 twoReads.call.program (boardAtRest twoBitsBoard, twoReads.memory)).bind
    fun first => (byteSize.call.program.exec boardStep (first.2.2.1, byteSize.memory)).bind
      fun second =>
        (first.2.1.exec boardStep (second.2.2.1, first.2.2.2)).map (·.2.1)) = some 5 := by
  decide +kernel

/-- Between the two reads of a vector another client sets the size to one byte: the vector moves 5
bytes, and under no size and no swap of any moments of the call does it move 5 bytes. -/
theorem vector_two_sizes :
    ∃ (s₁ s : Crowd driverInterface (Request Outcome) ℤ (Mutexed (IoAddr → UInt32)) Outcome Bool)
      (tr : Trace)
        (m : Outcome),
      (configClients plainSurroundings twoBitsBoard 0).Steps
        (.initial (boardAtRest twoBitsBoard)) s₁ ∧
      s₁.running false = some ⟨twoReads, [], twoReads.call.program, twoReads.memory⟩ ∧
      (configClients plainSurroundings twoBitsBoard 0).During false twoReads
        (fun _ _ => True) s₁ s ∧
      s.running false = some ⟨twoReads, tr, .ret 5, m⟩ ∧
      ∀ s' s'',
        (configClients plainSurroundings twoBitsBoard 0).During false twoReads
          (fun _ _ => True) s₁ s' →
        (configClients plainSurroundings twoBitsBoard 0).During false twoReads
          (fun _ _ => True) s₁ s'' →
        ∀ tr' a x, twoReads.call.program.Run (boardDriver plainSurroundings)
          (s₁.shared.configured 0 (s'.shared.world.pciedevDevM 0).registerSize
            (s''.shared.world.pciedevDevM 0).swap, twoReads.memory) tr' a x → a ≠ 5 := by
  have hallowed {c : Request Outcome} (hc : c.call.IsConfig) :
      (configClients plainSurroundings twoBitsBoard 0).allowed c := ⟨hc, rfl⟩
  have hinit : (configClients plainSurroundings twoBitsBoard 0).Steps
      (.initial (boardAtRest twoBitsBoard)) _ :=
    .single (.start (t := false) twoReads rfl (hallowed ⟨.vectorRw, by decide, rfl⟩))
  -- the steps of one client, while the vector goes on
  have hsteps (op : Op) (y : Mutexed (IoAddr → UInt32) × Outcome) (r : op.Res)
      (y' : Mutexed (IoAddr → UInt32) × Outcome) (h : boardStep op y = some (r, y')) :
      boardDriver plainSurroundings op y r y' ∧ True :=
    ⟨boardDriver_of_boardStep op y r y' h, trivial⟩
  obtain ⟨⟨es, q, x, m⟩, hfirst, hrest⟩ := Option.bind_eq_some_iff.mp twoReads_history
  obtain ⟨⟨es', a', x', m'⟩, hsecond, hrest⟩ := Option.bind_eq_some_iff.mp hrest
  obtain ⟨⟨es'', _, x'', m''⟩, hthird, rfl⟩ := Option.map_eq_some_iff.mp hrest
  have hread := Clients.During.reaches (S := configClients plainSurroundings twoBitsBoard 0)
    (P := fun _ _ => True) (t := false) (d := false) (reaches_of_execTo hsteps hfirst)
    (s := (Crowd.initial (boardAtRest twoBitsBoard)).update (boardAtRest twoBitsBoard) false
      (some ⟨twoReads, [], twoReads.call.program, twoReads.memory⟩) []) rfl rfl fun z u hu =>
        ⟨u, rfl, hu⟩
  have hsetter :=
    hread.tail ⟨.start (t := true) byteSize rfl (hallowed ⟨.setRegisterSize, by decide, rfl⟩),
    trivial, _, rfl, rfl⟩
  have hset := hsetter.trans (Clients.During.reaches (P := fun _ _ => True) (t := true)
    (run_of_exec hsteps hsecond).reaches rfl rfl fun z u _ => ⟨_, rfl, rfl⟩)
  have hlast := hset.trans (Clients.During.reaches (P := fun _ _ => True) (t := false)
    (run_of_exec hsteps hthird).reaches rfl rfl fun z u hu => ⟨u, rfl, hu⟩)
  refine ⟨_, _, _, _, hinit, rfl, hlast, rfl, ?_⟩
  intro s' s'' hs' hs'' tr' a x hrun
  have hvalues
      {s : Crowd driverInterface (Request Outcome) ℤ (Mutexed (IoAddr → UInt32)) Outcome Bool}
      (hs : (configClients plainSurroundings twoBitsBoard 0).During false twoReads
        (fun _ _ => True) _ s) :=
    configClients_values (hinit.trans hs.steps) ⟨⟨by decide, by decide⟩, .inl rfl⟩
  rcases twoReads_result (hvalues hs').1 (hvalues hs'').2 hrun with rfl | rfl | rfl <;> decide

def swapOn : Request Outcome where
  call := .ioctlExp 0 IoctlCmd.setSwap.code 1
  memory := { request := fun
    | .int => some 1
    | _ => none }

/-- The steps that leave the default register size as it is. -/
def steadyStep (op : Op) (y : Mutexed (IoAddr → UInt32) × Outcome) :
    Option (op.Res × (Mutexed (IoAddr → UInt32) × Outcome)) :=
  (boardStep op y).filter fun p =>
    (p.2.1.world.pciedevDevM 0).registerSize = (y.1.world.pciedevDevM 0).registerSize

theorem steadyStep_still (op : Op) (y : Mutexed (IoAddr → UInt32) × Outcome) (r : op.Res)
    (y' : Mutexed (IoAddr → UInt32) × Outcome) (h : steadyStep op y = some (r, y')) :
    boardDriver plainSurroundings op y r y' ∧
      (configShield plainSurroundings twoBitsBoard 0).Still y.1 y'.1 := by
  obtain ⟨hstep, hstill⟩ := Option.filter_eq_some_iff.mp h
  have hsame : (y'.1.world.pciedevDevM 0).registerSize = (y.1.world.pciedevDevM 0).registerSize :=
    of_decide_eq_true hstill
  exact ⟨boardDriver_of_boardStep op y r y' hstep, hsame⟩

/-- The vector has read its first register, a `PCIEDEV_SET_SWAP` comes as far as the lock, the
vector goes on to its end, and then the swap is stored. -/
theorem swapWaits_history : ((execTo steadyStep 18 twoReads.call.program
      (boardAtRest twoBitsBoard, twoReads.memory)).bind fun first =>
    (execTo steadyStep 3 swapOn.call.program (first.2.2.1, swapOn.memory)).bind fun second =>
    (first.2.1.exec steadyStep (second.2.2.1, first.2.2.2)).bind fun third =>
    (second.2.1.exec steadyStep (third.2.2.1, second.2.2.2)).map fun fourth =>
      (second.2.2.1.locked 0, third.2.1, (fourth.2.2.1.world.pciedevDevM 0).swap)) =
    some (true, 8, 1) := by
  decide +kernel

/-- Another client makes `PCIEDEV_SET_SWAP` while the vector is in its region: it waits for the
lock, and its swap is stored before the vector has returned. -/
theorem vector_one_configuration_swap :
    ∃ (s₁ s₂ s s' s'' : Crowd driverInterface (Request Outcome) ℤ (Mutexed (IoAddr → UInt32))
        Outcome Bool) (tr tr' : Trace) (m : Outcome),
      (configClients plainSurroundings twoBitsBoard 0).Steps (.initial (boardAtRest twoBitsBoard))
        s₁ ∧
      (configClients plainSurroundings twoBitsBoard 0).During false twoReads
        ((configShield plainSurroundings twoBitsBoard 0).Undisturbed false) s₁ s₂ ∧
      s₂.shared.locked 0 = true ∧ (∃ u, s₂.running true = some u ∧ u.call = swapOn) ∧
      (configClients plainSurroundings twoBitsBoard 0).During false twoReads
        ((configShield plainSurroundings twoBitsBoard 0).Undisturbed false) s₂ s ∧
      s.running false = some ⟨twoReads, tr, .ret 8, m⟩ ∧
      (s.shared.world.pciedevDevM 0).swap = 1 ∧
      (configClients plainSurroundings twoBitsBoard 0).During false twoReads
        ((configShield plainSurroundings twoBitsBoard 0).Undisturbed false) s₁ s' ∧
      (configClients plainSurroundings twoBitsBoard 0).During false twoReads
        ((configShield plainSurroundings twoBitsBoard 0).Undisturbed false) s' s'' ∧
      twoReads.call.program.Run (boardDriver plainSurroundings) (s'.shared, twoReads.memory) tr' 8
        (s''.shared, m) := by
  have hallowed {c : Request Outcome} (hc : c.call.IsConfig) :
      (configClients plainSurroundings twoBitsBoard 0).allowed c := ⟨hc, rfl⟩
  have hinit : (configClients plainSurroundings twoBitsBoard 0).Steps
      (.initial (boardAtRest twoBitsBoard)) _ :=
    .single (.start (t := false) twoReads rfl (hallowed ⟨.vectorRw, by decide, rfl⟩))
  obtain ⟨⟨es, q, x, m⟩, hfirst, hrest⟩ := Option.bind_eq_some_iff.mp swapWaits_history
  obtain ⟨⟨es₂, q₂, x₂, m₂⟩, hsecond, hrest⟩ := Option.bind_eq_some_iff.mp hrest
  obtain ⟨⟨es₃, a, x₃, m₃⟩, hthird, hrest⟩ := Option.bind_eq_some_iff.mp hrest
  obtain ⟨⟨es₄, a₄, x₄, m₄⟩, hfourth, hresult⟩ := Option.map_eq_some_iff.mp hrest
  obtain ⟨hlocked, rfl, hswap⟩ : x₂.locked 0 = true ∧ a = 8 ∧
      (x₄.world.pciedevDevM 0).swap = 1 := by
    simpa only [Prod.mk.injEq] using hresult
  have hread := Clients.During.reaches (S := configClients plainSurroundings twoBitsBoard 0)
    (t := false) (d := false) (reaches_of_execTo steadyStep_still hfirst)
    (s := (Crowd.initial (boardAtRest twoBitsBoard)).update (boardAtRest twoBitsBoard) false
      (some ⟨twoReads, [], twoReads.call.program, twoReads.memory⟩) []) rfl rfl
    fun z u hu => ⟨u, rfl, hu⟩
  have hsetter := hread.tail ⟨.start (t := true) swapOn rfl (hallowed ⟨.setSwap, by decide, rfl⟩),
    rfl, _, rfl, rfl⟩
  have hwaits := hsetter.trans (Clients.During.reaches (t := true)
    (reaches_of_execTo steadyStep_still hsecond) rfl rfl fun z u _ => ⟨_, rfl, rfl⟩)
  obtain ⟨s₂, hbefore, hshared, hvector, hswapOn⟩ : ∃ s₂,
      (configClients plainSurroundings twoBitsBoard 0).During false twoReads
        (fun s s' => (configShield plainSurroundings twoBitsBoard 0).Still s.shared s'.shared)
          _ s₂ ∧
      s₂.shared = x₂ ∧ s₂.running false = some ⟨twoReads, [] ++ es, q, m⟩ ∧
      s₂.running true = some ⟨swapOn, [] ++ es₂, q₂, m₂⟩ :=
    ⟨_, hwaits, rfl, rfl, rfl⟩
  have hvectorEnds := Clients.During.reaches (S := configClients plainSurroundings twoBitsBoard 0)
    (t := false) (d := false) (run_of_exec steadyStep_still hthird).reaches hshared hvector
    fun z u hu => ⟨u, rfl, hu⟩
  have hswapEnds := hvectorEnds.trans (Clients.During.reaches (t := true)
    (run_of_exec steadyStep_still hfourth).reaches rfl hswapOn fun z u _ => ⟨_, rfl, rfl⟩)
  have hundisturbed {s s' : Crowd driverInterface (Request Outcome) ℤ
      (Mutexed (IoAddr → UInt32)) Outcome Bool}
      (h : (configClients plainSurroundings twoBitsBoard 0).During false twoReads
        (fun s s' => (configShield plainSurroundings twoBitsBoard 0).Still s.shared s'.shared) s
          s') :
      (configClients plainSurroundings twoBitsBoard 0).During false twoReads
        ((configShield plainSurroundings twoBitsBoard 0).Undisturbed false) s s' :=
    h.mono fun _ _ hstill _ _ _ => hstill
  obtain ⟨s', s'', hfrom, hin, -, tr', hrun⟩ := vector_one_configuration (F := plainSurroundings)
    (w := twoBitsBoard) (c := twoReads) (a := 8) rfl rfl hinit rfl
    (hundisturbed (hbefore.trans hswapEnds)) rfl
  exact ⟨_, s₂, _, s', s'', _, tr', m₃, hinit, hundisturbed hbefore, hshared ▸ hlocked,
    ⟨_, hswapOn, rfl⟩, hundisturbed hswapEnds, rfl, hswap, hfrom, hin, hrun⟩

end Upciedev
