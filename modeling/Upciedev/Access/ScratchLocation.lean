import Upciedev.Access.ErrorDetection

/-!
# The location of the scratch register

`PCIEDEV_SCRATCH_REG` stores a BAR number and an offset as they come, and
`PCIEDEV_SET_REGISTER_SIZE` a width. Command 2 and the scratch checks of later reads use all three
without looking at the BAR they lead to.
-/
namespace Upciedev

open Foundations Program

def registerRead : Op → Option (Width × IoAddr)
  | .kernel (.ioread width a) => some (width, a)
  | _ => none

/-- The register reads of a trace inside the scratch check. -/
def scratchReads : Bool → Trace → List (Width × IoAddr)
  | _, [] => []
  | inScratch, e :: tr =>
    (if inScratch then (registerRead e.op).toList else []) ++
      scratchReads (inScratchAfter inScratch e.op) tr

/-- A read inside the BAR that the entry names for its scratch register. -/
def PciedevDev.InScratch (v : PciedevDev) (x : Width × IoAddr) : Prop :=
  ∃ bar : Bar, v.scratchBar.toNat = bar.val ∧ x.2.base = v.memmoryBase bar ∧ 0 ≤ x.2.off ∧
    x.2.off + x.1.bytes ≤ ((v.memBaseEnd bar - v.memBase bar).toNat : ℤ)

/-- The scratch register is in a BAR that exists and, where that is mapped, inside its window. -/
structure Located (v : PciedevDev) : Prop where
  bar_lt : v.scratchBar.toNat < numberOfBars
  fits : ∀ bar : Bar, v.scratchBar.toNat = bar.val → v.memmoryBase bar ≠ none →
    v.scratchOffset.toNat + v.scratchWidth.bytes ≤ (v.memBaseEnd bar - v.memBase bar).toNat

/-- Every scratch read of a part of a trace is inside the BAR, and the part ends as it starts:
inside the scratch check, or outside of it. -/
structure ReadsIn (v : PciedevDev) (inScratch : Bool) (tr : Trace) : Prop where
  stays : scratchAfter inScratch tr = inScratch
  inside : ∀ x ∈ scratchReads inScratch tr, v.InScratch x

section
variable {v : PciedevDev} {b : Bool} {tr tr' : Trace} {e : Event driverInterface}

@[simp] theorem scratchReads_nil : scratchReads b [] = [] := rfl

@[simp] theorem scratchReads_append :
    scratchReads b (tr ++ tr') = scratchReads b tr ++ scratchReads (scratchAfter b tr) tr' := by
  induction tr generalizing b with
  | nil => rfl
  | cons e tr ih => simp [scratchReads, ih]

theorem readsIn_composed (v : PciedevDev) (b : Bool) : Composed (ReadsIn v b) where
  nil := ⟨rfl, by simp⟩
  append h h' := by
    refine ⟨by rw [scratchAfter_append, h.stays, h'.stays], fun x hx => ?_⟩
    rw [scratchReads_append, h.stays, List.mem_append] at hx
    exact hx.elim (h.inside x) (h'.inside x)

theorem ReadsIn.one (hstays : inScratchAfter b e.op = b)
    (hinside : b = true → ∀ x, registerRead e.op = some x → v.InScratch x) : ReadsIn v b [e] := by
  refine ⟨hstays, fun x hx => ?_⟩
  cases b with
  | false => simp [scratchReads] at hx
  | true =>
    have hread : registerRead e.op = some x := by simpa [scratchReads] using hx
    exact hinside rfl x hread

theorem ReadsIn.outside (hstays : inScratchAfter false e.op = false) : ReadsIn v false [e] :=
  .one hstays fun h => nomatch h

theorem MoveOp.stays {dev : Entry} {op : Op} (h : MoveOp dev op) (b : Bool) :
    inScratchAfter b op = b :=
  (accessOp_readOnly (moveOp_accessOp dev h)).2 b

theorem frameOp_stays {op : Op} (h : FrameOp op) (b : Bool) : inScratchAfter b op = b := by
  cases op with
  | note n => exact h.elim
  | _ => rfl

theorem windowOp_stays {dev : Entry} {op : Op} (h : WindowOp dev op) (b : Bool) :
    inScratchAfter b op = b := by
  cases op with
  | note n => exact h.elim
  | _ => rfl

end

section
variable {α : Type} {owner : File → Entry} {table : Entry → PciedevDev} {dev : Entry}
  {v : PciedevDev} {b : Bool}

theorem ReadsIn.call (op : Op) {k : op.Res → Kernel α} (hro : op.ReadOnly)
    (hstays : inScratchAfter b op = b)
    (hinside : b = true → ∀ x, registerRead op = some x → v.InScratch x)
    (hk : ∀ r, tableAnswers owner table op r →
      (k r).Sat (tableAnswers owner table) Op.ReadOnly fun tr _ => ReadsIn v b tr) :
    (Program.call (I := driverInterface) op k).Sat (tableAnswers owner table) Op.ReadOnly
      fun tr _ =>
      ReadsIn v b tr :=
  (sat_call ..).mpr ⟨hro, fun r hr => (hk r hr).imp fun _ _ htr =>
    (readsIn_composed v b).append (ReadsIn.one (e := ⟨op, r⟩) hstays hinside) htr⟩

theorem Located.inScratch (h : Located v) {base : IoPtr}
    (hbase : barEntry v.memmoryBase v.scratchBar base) (hmapped : base ≠ none) :
    v.InScratch (v.scratchWidth, ⟨base, v.scratchOffset.toNat⟩) := by
  have hentry : base = v.memmoryBase ⟨v.scratchBar.toNat, h.bar_lt⟩ := hbase h.bar_lt
  have hfits := h.fits ⟨v.scratchBar.toNat, h.bar_lt⟩ rfl (hentry ▸ hmapped)
  refine ⟨⟨v.scratchBar.toNat, h.bar_lt⟩, rfl, hentry, Int.natCast_nonneg _, ?_⟩
  show (v.scratchOffset.toNat : ℤ) + v.scratchWidth.bytes ≤ _
  exact_mod_cast hfits

theorem readScratch_readsIn (h : Located (table dev)) :
    (readScratch dev).Sat (tableAnswers owner table) Op.ReadOnly fun tr _ =>
      ReadsIn (table dev) true tr := by
  have hM := readsIn_composed (table dev) true
  have hnone {op : Op} (hop : registerRead op = none) (_ : true = true) (x : Width × IoAddr)
      (hx : registerRead op = some x) : (table dev).InScratch x := by simp [hop] at hx
  have hread : mtcaSimpleRead < mtcaSimpleWrite := by decide
  simp only [readScratch, perform_eq, call_bind, ret_bind, readWritePrivate_eq hread]
  apply ReadsIn.call (.load dev) trivial rfl (hnone rfl)
  rintro _ rfl
  apply ReadsIn.call (.memmoryBase dev _) trivial rfl (hnone rfl)
  intro base hbase
  apply ReadsIn.call (.load dev) trivial rfl (hnone rfl)
  rintro _ rfl
  apply ReadsIn.call (.load dev) trivial rfl (hnone rfl)
  rintro _ rfl
  apply ReadsIn.call (.memmoryBase dev _) trivial rfl (hnone rfl)
  intro tested htested
  refine (sat_ite ..).mpr ⟨fun _ => hM.nil, fun hmapped => ?_⟩
  have hsame : base = tested := (hbase h.bar_lt).trans (htested h.bar_lt).symm
  have htest : (deviceScrachTest dev).Only fun op => op = Op.load dev := by simp [deviceScrachTest]
  refine hM.bind (hM.of_only htest (fun _ hop => hop ▸ trivial) fun e he => ?_) fun _ => ?_
  · exact .one (he ▸ rfl) (hnone (he ▸ rfl))
  apply ReadsIn.call (.load dev) trivial rfl (hnone rfl)
  rintro _ rfl
  apply ReadsIn.call (.kernel .uninit) trivial rfl (hnone rfl)
  intro word _
  apply ReadsIn.call _ trivial rfl (hnone rfl)
  intro _ _
  refine ReadsIn.call _ trivial rfl (fun _ x hx => ?_) fun r _ => ?_
  · obtain rfl : _ = x := Option.some.inj hx
    exact h.inScratch hbase (hsame ▸ hmapped)
  · exact (sat_ite ..).mpr ⟨fun _ => hM.nil, fun _ => hM.nil⟩

theorem pciedevCheckScratch_readsIn (h : Located (table dev)) :
    (pciedevCheckScratch dev).Sat (tableAnswers owner table) Op.ReadOnly fun tr _ =>
      ReadsIn (table dev) false tr := by
  simp only [pciedevCheckScratch, perform_eq, call_bind, ret_bind, sat_call, sat_bind, sat_ret,
    pure_eq]
  refine ⟨trivial, fun _ _ => (readScratch_readsIn h).imp fun tr _ htr => ⟨trivial, fun _ _ => ?_⟩⟩
  constructor
  · simp [inScratchAfter, htr.stays]
  · simpa [scratchReads, inScratchAfter, registerRead] using htr.inside

theorem inline_readsIn (h : Located (table dev)) (hsize : ValidSize (table dev).registerSize)
    (dir : Direction) {c : InlineCall} {code : ℕ} (hdev : c.dev = dev)
    (hcode : c.registerSize = correctedSize (table dev) code) :
    (dir.inline c).Sat (tableAnswers owner table) Op.ReadOnly fun tr _ =>
      ReadsIn (table dev) false tr := by
  subst hdev
  have hM := readsIn_composed (table c.dev) false
  have hmove {op : Op} (hop : MoveOp c.dev op) : op.ReadOnly :=
    (accessOp_readOnly (moveOp_accessOp c.dev hop)).1
  have hvalid : ValidCode c.registerSize := hcode ▸ validCode_correctedSize hsize code
  have hwindow : (openWindow c).Sat (tableAnswers owner table) Op.ReadOnly fun tr _ =>
      ReadsIn (table c.dev) false tr :=
    ((openWindow_emits hvalid).and_only (openWindow_only c)).imp fun tr _ hpost =>
      hM.of_forall fun e he => .outside (windowOp_stays (hpost.2 e he) false)
  have hout : false = true → ∀ x, registerRead (.note (dir.note c)) = some x →
      (table c.dev).InScratch x := fun hfalse => nomatch hfalse
  rw [dir.inline_eq]
  cases dir with
  | read =>
    refine ReadsIn.call _ trivial rfl hout fun _ _ => hM.bind hwindow fun window => ?_
    cases window with
    | none => exact hM.nil
    | some window =>
      refine ReadsIn.call _ trivial rfl (fun hfalse => nomatch hfalse) fun word _ => ?_
      exact hM.readLoop (fun _ => hmove) (fun _ hop => .outside (hop.stays false))
        (pciedevCheckScratch_readsIn h) _ _ _ _ _ _
  | write =>
    refine ReadsIn.call _ trivial rfl hout fun _ _ => hM.bind hwindow fun window => ?_
    cases window with
    | none => exact hM.nil
    | some window =>
      refine ReadsIn.call _ trivial rfl (fun hfalse => nomatch hfalse) fun word _ => ?_
      exact hM.of_only (writeLoop_only c _ _ _ _ _ _ _ _) (fun _ => hmove)
        fun _ hop => .outside (hop.stays false)

theorem dataRequest_readsIn (h : Located (table dev)) (hlive : Live (table dev)) {c : FileCall}
    (hc : c.IsDataRequest) (howner : owner c.filp = dev) :
    c.program.Sat (tableAnswers owner table) Op.ReadOnly fun tr _ =>
      ReadsIn (table dev) false tr := by
  have logic : InlineLogic owner table dev (tableAnswers owner table) Op.ReadOnly
      fun _ tr => ReadsIn (table dev) false tr :=
    { answers := fun _ _ hr => hr
      allows := fun _ => frameOp_readOnly
      inline := fun dir _ _ => inline_readsIn h hlive.registerSize dir }
  apply (dataRequest_sat logic hc howner hlive.devSts).imp
  intro tr _ htr
  exact htr.composed (readsIn_composed _ _) (fun e he => .outside (frameOp_stays he false))
    fun _ _ hl => hl

theorem KernelCall.nonempty_res (c : KernelCall) : Nonempty c.Res := by
  cases c <;> infer_instance

theorem tableAnswers_exists {op : Op} (hop : op.ReadOnly) : ∃ r, tableAnswers owner table op r := by
  have hentry {β : Type} [Inhabited β] (arr : Bar → β) (i : UInt32) : ∃ r, barEntry arr i r := by
    by_cases hi : i.toNat < numberOfBars
    · exact ⟨arr ⟨i.toNat, hi⟩, fun _ => rfl⟩
    · exact ⟨default, fun hlt => absurd hlt hi⟩
  cases op with
  | memmoryBase | memBase | memBaseEnd => exact hentry _ _
  | fault => exact hop.elim
  | kernel c => exact c.nonempty_res.elim fun r => ⟨r, trivial⟩
  | privateData | load | enterCritRegion => exact ⟨_, rfl⟩
  | setPrivateData | setFPos | store | setCdev | setDrvdata | setBaseRow | setBaseBar =>
      exact hop.elim
  | cdev => exact ⟨({} : PciedevCdev), trivial⟩
  | baseRow => exact ⟨({} : UpciedevPhysAddress), trivial⟩
  | baseBar => exact ⟨({} : UpciedevBarAddress), trivial⟩
  | drvdata => exact ⟨(none : Option Entry), trivial⟩
  | note => exact ⟨(), trivial⟩
  | leaveCritRegion | longLockOfCriticalRegion | unlockLongCritRegion => exact ⟨(0 : ℤ), trivial⟩

/-- What a data request is about to read in the scratch check is inside the BAR. -/
theorem dataRequest_reads_inScratch {ε : Type} {E : Environment ε} {w t : World ε}
    (h : Located (w.pciedevDevM dev)) (hlive : Live (w.pciedevDevM dev)) {c : FileCall}
    (hc : c.IsDataRequest) (hfile : w.privateData c.filp = dev) {tr : Trace} {width : Width}
    {a : IoAddr} {k : UInt32 → Kernel ℤ}
    (hr : Reaches (driver E) c.program w tr
      (.call (I := driverInterface) (.kernel (.ioread width a)) k) t)
    (hscratch : scratchAfter false tr = true) : (w.pciedevDevM dev).InScratch (width, a) := by
  have hsat := dataRequest_readsIn h hlive hc hfile
  have hrest := hsat.rest hr
    (fun op _ r _ hsame hop => driver_steady_step op _ r _ hsame hop.steady) ⟨rfl, rfl⟩
  obtain ⟨tr', _, htr⟩ := (hrest.2 0 trivial).exists_trace fun _ => tableAnswers_exists
  apply htr.inside
  simp [scratchReads, hscratch, registerRead]

end

/-- The entry with the scratch register where the copied data puts it. -/
def relocated (v : PciedevDev) : (op : Op) → op.Res → Option PciedevDev
  | .kernel (.copyFromUser .deviceIoctrlData _), some (data : DeviceIoctrlData) =>
      if data.cmd = 0 then
        some { v with scratchBar := data.data, scratchOffset := data.offset } else none
  | .kernel (.copyFromUser .int _), some (nUserValue : UInt32) =>
      some { v with registerSize := correctRegisterSize (cInt nUserValue) 2 }
  | _, _ => none

/-- The entry is as it was, or as copied data of the trace makes it. -/
def Relocates (v : PciedevDev) (tr : Trace) (v' : PciedevDev) : Prop :=
  v' = v ∨ ∃ e ∈ tr, relocated v e.op e.res = some v'

theorem Relocates.cons {v v' : PciedevDev} {tr : Trace} (h : Relocates v tr v')
    (e : Event driverInterface) : Relocates v (e :: tr) v' := by
  rcases h with h | ⟨e', he', h⟩
  · exact .inl h
  · exact .inr ⟨e', List.mem_cons_of_mem _ he', h⟩

theorem Relocates.append {v v' : PciedevDev} {tr : Trace} (h : Relocates v tr v') (pre : Trace) :
    Relocates v (pre ++ tr) v' := by
  induction pre with
  | nil => exact h
  | cons e pre ih => exact ih.cons e

section
variable {ε : Type} {E : Environment ε} {w : World ε} {d : Entry} {filp : File}

theorem accessError_wp (cmd : UInt32) (arg : UInt64) :
    (accessError cmd arg).wp (driver E) w fun _ _ u => ∃ e, u = w.withEnv e := by
  refine (wp_ite ..).mpr ⟨fun _ => ?_, fun _ => ⟨w.env, rfl⟩⟩
  exact (wp_kernel ..).mpr fun _ e _ => ⟨e, rfl⟩

theorem ioctl_relocates (hfile : w.privateData filp = d) (c : IoctlCmd) (arg : UInt64)
    (hcase : ∀ e, (ioctlCase d arg c).wp (driver E) (w.withEnv e) fun tr _ u =>
      Relocates (w.pciedevDevM d) tr (u.pciedevDevM d)) :
    (pciedevIoctlExp filp c.code arg).wp (driver E) w fun tr _ u =>
      Relocates (w.pciedevDevM d) tr (u.pciedevDevM d) := by
  simp only [pciedevIoctlExp, perform_eq, call_bind, ret_bind, wp_privateData, wp_load, hfile]
  refine (wp_ite ..).mpr ⟨fun _ => .inl rfl, fun _ => (wp_bind ..).mpr ?_⟩
  apply wp_mono (accessError_wp c.code arg)
  intro tr err u hpost
  obtain ⟨e, hu⟩ := hpost
  subst hu
  refine (wp_ite ..).mpr ⟨fun _ => .inl rfl, fun _ => ?_⟩
  rw [IoctlCmd.decode_code]
  exact wp_mono (hcase e) fun tr' _ u' hcase => ((hcase.append tr).cons _).cons _

theorem steady_wp {α : Type} {p : Kernel α} (hp : p.Only Op.Steady) (d : Entry) :
    p.wp (driver E) w fun _ _ u => u.pciedevDevM d = w.pciedevDevM d := by
  have hstep (op : Op) (u : World ε) (r : op.Res) (u' : World ε)
      (hu : u.pciedevDevM d = w.pciedevDevM d) (hop : op.Steady) (hstep : driver E op u r u') :
      u'.pciedevDevM d = w.pciedevDevM d := by
    rw [(driver_steady hop hstep).2.2, hu]
  exact hp.wp_inv hstep rfl

theorem answer_steady (T : UserType) (arg : UInt64) (v : T.Val) :
    (answer d T arg v).Only Op.Steady := by
  simp [answer, leaveWith, Op.Steady]

theorem readScratchReg_steady (base : IoPtr) (data : DeviceIoctrlData) :
    (readScratchReg d base data).Only Op.Steady := by
  simp [readScratchReg, Op.Steady]

theorem scratchReg_relocates (arg : UInt64) :
    (ioctlCase d arg .scratchReg).wp (driver E) w fun tr _ u =>
      Relocates (w.pciedevDevM d) tr (u.pciedevDevM d) := by
  have hsteady {p : Kernel ℤ} (hp : p.Only Op.Steady) {e : ε} (pre : Trace) :
      p.wp (driver E) (w.withEnv e) fun tr _ u =>
        Relocates (w.pciedevDevM d) (pre ++ tr) (u.pciedevDevM d) :=
    wp_mono (steady_wp hp d) fun _ _ _ h => .inl h
  simp only [ioctlCase, ioctlScratchReg, withCritRegion, perform_eq, call_bind, ret_bind,
    wp_enterCritRegion]
  refine (wp_ite ..).mpr ⟨fun h => absurd rfl h, fun _ => (wp_kernel ..).mpr ?_⟩
  rintro (_ | (data : DeviceIoctrlData)) e _
  · exact hsteady (by simp [leaveWith, Op.Steady]) [_, _]
  · refine (wp_ite ..).mpr ⟨fun _ => ?_, fun _ => (wp_ite ..).mpr ⟨fun hset => ?_, fun _ => ?_⟩⟩
    · refine hsteady ?_ [_, _]
      simp [answer, leaveWith, Op.Steady]
    · have hcopied :
          relocated (w.pciedevDevM d) (.kernel (.copyFromUser .deviceIoctrlData arg)) (some data) =
          some { w.pciedevDevM d with scratchBar := data.data, scratchOffset := data.offset } := by
        simp [relocated, hset]
      refine (wp_store ..).mpr ((wp_store ..).mpr ?_)
      refine wp_mono (steady_wp (answer_steady ..) d) fun tr _ u hu => .inr
        ⟨⟨.kernel (.copyFromUser .deviceIoctrlData arg), some data⟩, by simp, ?_⟩
      rw [hcopied, hu, World.updateDev_self, World.updateDev_self]
      rfl
    · refine hsteady ?_ [_, _]
      simp only [pciedevGetBaraddress, only_ite, perform_eq, call_bind, ret_bind, only_call]
      refine ⟨fun _ =>
        ⟨trivial, fun _ => ⟨trivial, fun _ => ⟨fun _ => ?_, fun _ => ?_⟩⟩⟩, fun _ => ?_⟩
      · simp [leaveWith, Op.Steady]
      · exact (readScratchReg_steady ..).bind fun _ => answer_steady ..
      · exact answer_steady ..

theorem setRegisterSize_relocates (arg : UInt64) :
    (ioctlCase d arg .setRegisterSize).wp (driver E) w fun tr _ u =>
      Relocates (w.pciedevDevM d) tr (u.pciedevDevM d) := by
  apply (wp_kernel ..).mpr
  rintro (_ | nUserValue) e _
  · exact .inl rfl
  · refine (wp_store ..).mpr
      (.inr ⟨⟨.kernel (.copyFromUser .int arg), some nUserValue⟩, by simp, ?_⟩)
    simp [relocated]

def ReadInScratch (v : PciedevDev) (op : Op) : Prop := ∀ x, registerRead op = some x → v.InScratch x

theorem readInScratch_of_none (v : PciedevDev) {op : Op} (h : registerRead op = none) :
    ReadInScratch v op := fun x hx => by simp [h] at hx

theorem answer_guarded (v : PciedevDev) (T : UserType) (arg : UInt64) (x : T.Val) :
    (answer d T arg x).Guarded (driver E) (ReadInScratch v) w := by
  have honly : (answer d T arg x).Only fun op => registerRead op = none := by
    simp [answer, leaveWith, registerRead]
  exact (honly.mono fun _ => readInScratch_of_none v).guarded w

theorem guarded_loaded {α : Type} {G : Op → Prop} (hG : G (.load d)) (k : PciedevDev → Kernel α) :
    (Program.call (I := driverInterface) (.load d) k).Guarded (driver E) G w ↔
      (k (w.pciedevDevM d)).Guarded (driver E) G w :=
  (guarded_step (.load d) (fun _ _ => Iff.rfl) k).trans (and_iff_right hG)

theorem readScratchWord_guarded_iff (width : Width) (base : IoPtr) (k : UInt32 → DeviceIoctrlData) :
    (Program.call (I := driverInterface) (.load d) fun v =>
      Program.call (I := driverInterface)
        (.kernel (.ioread width ⟨base, v.scratchOffset.toNat⟩)) fun r =>
        ret (k r)).Guarded (driver E) (ReadInScratch (w.pciedevDevM d)) w ↔
      (w.pciedevDevM d).InScratch (width, ⟨base, (w.pciedevDevM d).scratchOffset.toNat⟩) := by
  rw [guarded_loaded (readInScratch_of_none _ rfl)]
  constructor
  · intro h
    exact h.1 _ rfl
  · intro h
    refine ⟨fun x hx => ?_, fun _ _ _ => trivial⟩
    obtain rfl := Option.some.inj hx
    exact h

/-- With a size code as the register size, the register is read at the width of the scratch
check. -/
theorem readScratchReg_guarded_iff (hsize : ValidSize (w.pciedevDevM d).registerSize) (base : IoPtr)
    (data : DeviceIoctrlData) :
    (readScratchReg d base data).Guarded (driver E) (ReadInScratch (w.pciedevDevM d)) w ↔
      (w.pciedevDevM d).InScratch
        ((w.pciedevDevM d).scratchWidth, ⟨base, (w.pciedevDevM d).scratchOffset.toNat⟩) := by
  have hcases : (w.pciedevDevM d).registerSize = 0 ∨ (w.pciedevDevM d).registerSize = 1 ∨
      (w.pciedevDevM d).registerSize = 2 := by
    have hthree : (w.pciedevDevM d).registerSize < 3 := hsize.2
    have hzero := hsize.1
    omega
  simp only [readScratchReg, perform_eq, call_bind, ret_bind, pure_eq]
  have hread := readScratchWord_guarded_iff (E := E) (w := w) (d := d)
  rw [guarded_loaded (readInScratch_of_none _ rfl)]
  rcases hcases with hcode | hcode | hcode
  · have hwidth : (w.pciedevDevM d).scratchWidth = .w8 := by
      rw [PciedevDev.scratchWidth, hcode]; decide
    rw [if_pos hcode, hwidth]
    exact hread .w8 base fun r => { data with data := Width.w8.low r }
  · have hwidth : (w.pciedevDevM d).scratchWidth = .w16 := by
      rw [PciedevDev.scratchWidth, hcode]; decide
    rw [if_neg (by omega), if_pos hcode, hwidth]
    exact hread .w16 base fun r => { data with data := Width.w16.low r }
  · have hwidth : (w.pciedevDevM d).scratchWidth = .w32 := by
      rw [PciedevDev.scratchWidth, hcode]; decide
    rw [if_neg (by omega), if_neg (by omega), if_pos hcode, hwidth]
    exact hread .w32 base fun r => { data with data := r }

/-- Wherever the mapping of its BAR comes from, a located scratch register is inside that BAR. -/
theorem located_iff (v : PciedevDev) : Located v ↔
    ∀ base, barEntry v.memmoryBase v.scratchBar base →
    base ≠ none → v.InScratch (v.scratchWidth, ⟨base, v.scratchOffset.toNat⟩) := by
  constructor
  · exact fun h base => h.inScratch
  · intro h
    have hbar : v.scratchBar.toNat < numberOfBars := by
      by_contra hout
      obtain ⟨bar, hbar, -⟩ := h (some 0) (fun hlt => absurd hlt hout) (Option.some_ne_none 0)
      exact hout (hbar ▸ bar.isLt)
    refine ⟨hbar, fun bar heq hmapped => ?_⟩
    have hentry : barEntry v.memmoryBase v.scratchBar (v.memmoryBase bar) :=
      (barEntry_iff heq).mpr rfl
    obtain ⟨bar', heq', -, -, hfits⟩ := h _ hentry hmapped
    obtain rfl : bar' = bar := Fin.ext (heq'.symm.trans heq)
    have hsum : (v.scratchOffset.toNat : ℤ) + v.scratchWidth.bytes ≤
      ((v.memBaseEnd bar' - v.memBase bar').toNat : ℤ) := hfits
    exact_mod_cast hsum

/-- Once command 2 is copied, its reads are inside the BAR exactly if the register is located. -/
theorem command2_guarded_iff (hsize : ValidSize (w.pciedevDevM d).registerSize) (arg : UInt64)
    (data : DeviceIoctrlData) :
    (do
      let address ← pciedevGetBaraddress (← load d).scratchBar d
      if address = none then leaveWith d eFault
      else do
        let data ← readScratchReg d address data
        answer d .deviceIoctrlData arg data : Kernel ℤ).Guarded (driver E)
      (ReadInScratch (w.pciedevDevM d)) w ↔ Located (w.pciedevDevM d) := by
  have hnone {op : Op} (hop : registerRead op = none) := readInScratch_of_none (w.pciedevDevM d) hop
  have hleave : (leaveWith d eFault).Guarded (driver E) (ReadInScratch (w.pciedevDevM d)) w :=
    ⟨hnone rfl, fun _ _ _ => trivial⟩
  have hfound (address : IoPtr) (hmapped : ¬ address = none) :
      (readScratchReg d address data >>= fun data => answer d .deviceIoctrlData arg data).Guarded
        (driver E) (ReadInScratch (w.pciedevDevM d)) w ↔ (w.pciedevDevM d).InScratch
          ((w.pciedevDevM d).scratchWidth, ⟨address, (w.pciedevDevM d).scratchOffset.toNat⟩) := by
    refine (guarded_bind ..).trans
      ((and_iff_left ?_).trans (readScratchReg_guarded_iff hsize address data))
    exact wp_of_forall fun _ _ _ => answer_guarded ..
  simp only [pciedevGetBaraddress, perform_eq, call_bind, ret_bind]
  rw [guarded_loaded (hnone rfl), located_iff]
  constructor
  · intro h base hbase hmapped
    exact (hfound base hmapped).mp (((guarded_ite ..).mp (h.2 base w ⟨hbase, rfl⟩)).2 hmapped)
  · intro h
    refine ⟨hnone rfl, ?_⟩
    rintro base w ⟨hbase, rfl⟩
    refine (guarded_ite ..).mpr ⟨fun _ => hleave, fun hmapped => ?_⟩
    exact (hfound base hmapped).mpr (h base hbase hmapped)

theorem ioctlScratchReg_guarded (hsize : ValidSize (w.pciedevDevM d).registerSize)
    (h : Located (w.pciedevDevM d)) (arg : UInt64) :
    (ioctlScratchReg d arg).Guarded (driver E) (ReadInScratch (w.pciedevDevM d)) w := by
  have hnone {op : Op} (hop : registerRead op = none) := readInScratch_of_none (w.pciedevDevM d) hop
  simp only [ioctlScratchReg, withCritRegion, perform_eq, call_bind, ret_bind]
  refine ⟨hnone rfl, ?_⟩
  rintro _ w ⟨rfl, rfl⟩
  refine (guarded_ite ..).mpr ⟨fun _ => trivial, fun _ => ⟨hnone rfl, ?_⟩⟩
  rintro (_ | (data : DeviceIoctrlData)) _ ⟨e, -, rfl⟩
  · exact ⟨hnone rfl, fun _ _ _ => trivial⟩
  refine (guarded_ite ..).mpr ⟨fun _ => ?_, fun _ =>
    (guarded_ite ..).mpr ⟨fun _ => ?_, fun _ => ?_⟩⟩
  · rw [guarded_loaded (hnone rfl), guarded_loaded (hnone rfl)]
    exact answer_guarded ..
  · exact ⟨hnone rfl, fun _ _ _ => ⟨hnone rfl, fun _ _ _ => answer_guarded ..⟩⟩
  · refine (guarded_ite ..).mpr ⟨fun _ => ?_, fun _ => answer_guarded ..⟩
    exact (command2_guarded_iff (w := w.withEnv e) hsize arg data).mpr h

/-- Where anything may be copied, a register that is not located is read outside its BAR. -/
theorem ioctlScratchReg_not_guarded {w : World Unit} {d : Entry}
    (hsize : ValidSize (w.pciedevDevM d).registerSize) (h : ¬ Located (w.pciedevDevM d))
    (arg : UInt64) :
    ¬ (ioctlScratchReg d arg).Guarded (driver openEnvironment)
      (ReadInScratch (w.pciedevDevM d)) w := by
  intro hguarded
  simp only [ioctlScratchReg, withCritRegion, perform_eq, call_bind, ret_bind] at hguarded
  have hentered := hguarded.2 (0 : ℤ) w ⟨rfl, rfl⟩
  let data : DeviceIoctrlData := { offset := 0, data := 0, cmd := 2, reserved := 0 }
  have hcopied := (((guarded_ite ..).mp hentered).2 (by decide)).2 (some data)
    w ⟨(), trivial, rfl⟩
  exact h ((command2_guarded_iff hsize arg _).mp hcopied)

theorem ioctl_guarded (hfile : w.privateData filp = d) {v : PciedevDev} (c : IoctlCmd)
    (arg : UInt64)
    (hcase : ∀ e, (ioctlCase d arg c).Guarded (driver E) (ReadInScratch v) (w.withEnv e)) :
    (pciedevIoctlExp filp c.code arg).Guarded (driver E) (ReadInScratch v) w := by
  simp only [pciedevIoctlExp, perform_eq, call_bind, ret_bind]
  refine ⟨readInScratch_of_none v rfl, ?_⟩
  rintro _ w ⟨rfl, rfl⟩
  rw [hfile, guarded_loaded (readInScratch_of_none v rfl)]
  refine (guarded_ite ..).mpr ⟨fun _ => trivial, fun _ => (guarded_bind ..).mpr ⟨?_, ?_⟩⟩
  · have honly : (accessError c.code arg).Only fun op => registerRead op = none := by
      simp [accessError, registerRead]
    exact (honly.mono fun _ => readInScratch_of_none v).guarded w
  · apply wp_mono (accessError_wp c.code arg)
    intro _ err u hpost
    obtain ⟨e, hu⟩ := hpost
    subst hu
    refine (guarded_ite ..).mpr ⟨fun _ => trivial, fun _ => ?_⟩
    rw [IoctlCmd.decode_code]
    exact hcase e

/-- On a live board, where anything may be answered, an ioctl comes to its case. -/
theorem ioctl_guarded_case {w : World Unit} {d : Entry} {filp : File}
    (hfile : w.privateData filp = d) (hlive : Live (w.pciedevDevM d)) {v : PciedevDev}
    (c : IoctlCmd) (arg : UInt64)
    (h : (pciedevIoctlExp filp c.code arg).Guarded (driver openEnvironment) (ReadInScratch v) w) :
    (ioctlCase d arg c).Guarded (driver openEnvironment) (ReadInScratch v) w := by
  simp only [pciedevIoctlExp, perform_eq, call_bind, ret_bind] at h
  have hopened := h.2 d w ⟨hfile.symm, rfl⟩
  rw [guarded_loaded (readInScratch_of_none v rfl), if_neg hlive.devSts] at hopened
  obtain ⟨tr, haccess⟩ :
      ∃ tr, (accessError c.code arg).Run (driver openEnvironment) w tr false w := by
    by_cases hdir : iocDir c.code ≠ 0
    · rw [accessError, if_pos hdir]
      exact ⟨_, true, w, [], ⟨(), trivial, rfl⟩, rfl, rfl, rfl, rfl⟩
    · rw [accessError, if_neg hdir]
      exact ⟨[], rfl, rfl, rfl⟩
  have hcase := haccess.of_wp ((guarded_bind ..).mp hopened).2
  rw [if_neg Bool.false_ne_true, IoctlCmd.decode_code] at hcase
  exact hcase

end

/-- The calls that set the scratch register or its width, and the requests for data. -/
def FileCall.UsesScratch (c : FileCall) : Prop :=
  c.IsDataRequest ∨ ∃ filp arg, c = .ioctlExp filp IoctlCmd.scratchReg.code arg ∨
    c = .ioctlExp filp IoctlCmd.setRegisterSize.code arg

/-- A register read after the trace is one of the scratch register: always in `PCIEDEV_SCRATCH_REG`,
and in the scratch check. -/
def FileCall.AtScratch (c : FileCall) (tr : Trace) : Prop :=
  (∃ filp arg, c = .ioctlExp filp IoctlCmd.scratchReg.code arg) ∨ scratchAfter false tr = true

/-- The scratch reads a call comes to are inside the BAR its board names for the scratch
register. -/
def ScratchInside {ε : Type} (E : Environment ε) (d : Entry) (w : World ε) (c : FileCall) : Prop :=
  ∀ tr width a k t, Reaches (driver E) c.program w tr
    (.call (I := driverInterface) (.kernel (.ioread width a)) k) t →
      c.AtScratch tr → (w.pciedevDevM d).InScratch (width, a)

/-- Wherever copied data puts the scratch register of the entry, it is located. -/
def Fitting (v : PciedevDev) (tr : Trace) : Prop :=
  ∀ e ∈ tr, ∀ v' ∈ relocated v e.op e.res, Located v'

/-- Calls on the files of a board one after the other, with fitting data only. -/
inductive ScratchRun {ε : Type} (E : Environment ε) (d : Entry) (w₀ : World ε) : World ε → Prop
  | start : ScratchRun E d w₀ w₀
  | call {w w' : World ε} {c : FileCall} {tr : Trace} {retval : ℤ} (h : ScratchRun E d w₀ w)
      (hc : c.UsesScratch) (hfile : w.privateData c.filp = d)
      (hrun : c.program.Run (driver E) w tr retval w') (hfits : Fitting (w.pciedevDevM d) tr) :
      ScratchRun E d w₀ w'

section
variable {ε : Type} {E : Environment ε} {w₀ w w' : World ε} {d : Entry} {c : FileCall} {tr : Trace}

theorem Located.relocates {v v' : PciedevDev} (h : Located v) (hfits : Fitting v tr)
    (hv : Relocates v tr v') : Located v' := by
  rcases hv with rfl | ⟨e, he, hv⟩
  · exact h
  · exact hfits e he v' hv

theorem Located.call (h : Located (w.pciedevDevM d)) (hlive : Live (w.pciedevDevM d))
    (hc : c.UsesScratch) (hfile : w.privateData c.filp = d) {retval : ℤ}
    (hrun : c.program.Run (driver E) w tr retval w') (hfits : Fitting (w.pciedevDevM d) tr) :
    Located (w'.pciedevDevM d) := by
  rcases hc with hdata | ⟨filp, arg, rfl | rfl⟩
  · have hsat := dataRequest_readsIn h hlive hdata hfile
    have hsame : SameData w w' := (Sat.run hsat
      (fun op _ r _ hsame hop => driver_steady_step op _ r _ hsame hop.steady) ⟨rfl, rfl⟩ hrun).2.2
    rwa [hsame.2]
  · exact h.relocates hfits
      (hrun.of_wp (ioctl_relocates hfile .scratchReg arg fun _ => scratchReg_relocates arg))
  · exact h.relocates hfits
      (hrun.of_wp (ioctl_relocates hfile .setRegisterSize arg fun _ =>
        setRegisterSize_relocates arg))

theorem ScratchRun.fromProbe (h₀ : FromProbe E d w₀) (h : ScratchRun E d w₀ w) :
    FromProbe E d w := by
  induction h with
  | start => exact h₀
  | call _ _ _ hrun _ ih => exact .call ih _ hrun

theorem ScratchRun.located (h₀ : FromProbe E d w₀) (hlocated : Located (w₀.pciedevDevM d))
    (h : ScratchRun E d w₀ w) : Located (w.pciedevDevM d) := by
  induction h with
  | start => exact hlocated
  | call h hc hfile hrun hfits ih => exact ih.call (h.fromProbe h₀).live hc hfile hrun hfits

theorem ioctlSetRegisterSize_guarded (v : PciedevDev) (arg : UInt64) :
    (ioctlSetRegisterSize d arg).Guarded (driver E) (ReadInScratch v) w := by
  have honly : (ioctlSetRegisterSize d arg).Only fun op => registerRead op = none := by
    simp only [ioctlSetRegisterSize, perform_eq, call_bind, ret_bind, only_call]
    refine ⟨rfl, ?_⟩
    rintro (_ | nUserValue) <;> simp [registerRead]
  exact (honly.mono fun _ => readInScratch_of_none v).guarded w

theorem Located.scratchInside (h : Located (w.pciedevDevM d)) (hlive : Live (w.pciedevDevM d))
    (hc : c.UsesScratch) (hfile : w.privateData c.filp = d) : ScratchInside E d w c := by
  intro tr width a k t hr hscratch
  rcases hc with hdata | ⟨filp, arg, rfl | rfl⟩
  · rcases hscratch with ⟨filp, arg, rfl⟩ | hscratch
    · obtain ⟨cmd, hmem, hcmd⟩ := hdata
      obtain rfl := IoctlCmd.code_injective hcmd
      exact absurd hmem (by decide)
    · exact dataRequest_reads_inScratch h hlive hdata hfile hr hscratch
  · have hguarded := ioctl_guarded (E := E) hfile .scratchReg arg fun e =>
      ioctlScratchReg_guarded (w := w.withEnv e) hlive.registerSize h arg
    exact (guarded_iff_reaches _ _).mp hguarded _ _ _ _ hr _ rfl
  · have hguarded := ioctl_guarded (E := E) (w := w) hfile .setRegisterSize arg fun e =>
      ioctlSetRegisterSize_guarded (w.pciedevDevM d) arg
    exact (guarded_iff_reaches _ _).mp hguarded _ _ _ _ hr _ rfl

/-- From a probed board whose scratch register is located, and as long as the setters are given
fitting data, every scratch read stays inside its BAR. -/
theorem scratch_reads_inside (h₀ : FromProbe E d w₀) (hlocated : Located (w₀.pciedevDevM d))
    (h : ScratchRun E d w₀ w) (hc : c.UsesScratch) (hfile : w.privateData c.filp = d) :
    ScratchInside E d w c :=
  (h.located h₀ hlocated).scratchInside (h.fromProbe h₀).live hc hfile

end

/-- Where a board's scratch register is not located, command 2 can read outside its BAR. -/
theorem scratch_reads_inside_only {w : World Unit} {d : Entry} {filp : File}
    (h : FromProbe openEnvironment d w) (hfile : w.privateData filp = d)
    (hlocated : ¬ Located (w.pciedevDevM d)) (arg : UInt64) :
    ¬ ScratchInside openEnvironment d w (.ioctlExp filp IoctlCmd.scratchReg.code arg) := by
  intro hinside
  apply ioctlScratchReg_not_guarded h.live.registerSize hlocated arg
  apply ioctl_guarded_case hfile h.live .scratchReg arg
  rw [guarded_iff_reaches]
  rintro tr op k t hr ⟨width, a⟩ hx
  cases op with
  | kernel call =>
    cases call with
    | ioread width' a' =>
      obtain ⟨rfl, rfl⟩ := Prod.mk.inj (Option.some.inj hx)
      exact hinside tr _ _ k t hr (.inl ⟨filp, arg, rfl⟩)
    | _ => simp [registerRead] at hx
  | _ => simp [registerRead] at hx

/-- Command 0 with an offset in BAR 0, or command 2. -/
def scratchRequest (cmd offset : UInt32) : Outcome :=
  { request := fun
      | .deviceIoctrlData => some { offset, data := 0, cmd, reserved := 0 }
      | _ => none }

abbrev scratchCall : FileCall := .ioctlExp 0 IoctlCmd.scratchReg.code 0

instance (v : PciedevDev) (x : Width × IoAddr) : Decidable (v.InScratch x) :=
  inferInstanceAs
    (Decidable (∃ bar : Bar, v.scratchBar.toNat = bar.val ∧ x.2.base = v.memmoryBase bar ∧
    0 ≤ x.2.off ∧ x.2.off + x.1.bytes ≤ ((v.memBaseEnd bar - v.memBase bar).toNat : ℤ)))

instance (v : PciedevDev) : Decidable (Located v) :=
  decidable_of_iff (v.scratchBar.toNat < numberOfBars ∧ ∀ bar : Bar, v.scratchBar.toNat = bar.val →
    v.memmoryBase bar ≠ none →
      v.scratchOffset.toNat + v.scratchWidth.bytes ≤ (v.memBaseEnd bar - v.memBase bar).toNat)
    ⟨fun h => ⟨h.1, h.2⟩, fun h => ⟨h.1, h.2⟩⟩

instance (v : PciedevDev) (tr : Trace) : Decidable (Fitting v tr) :=
  inferInstanceAs (Decidable (∀ e ∈ tr, ∀ v' ∈ relocated v e.op e.res, Located v'))

set_option maxRecDepth 8000 in
theorem scratch_reads_inside_offset : ∃ w w', FromProbe openEnvironment 0 w ∧
    ScratchRun openEnvironment 0 w w' ∧ ScratchInside openEnvironment 0 w' scratchCall := by
  obtain ⟨_, w, hprobe, _, _, w', hset, hlocated, hfits, hfile, hfile'⟩ :
      ∃ tr₀ w,
        (pciedevProbeExp 0 0 0).Run (driver openEnvironment) (.uniform {}) tr₀ ((0 : ℤ), 0) w ∧
      ∃ tr retval w', scratchCall.program.Run (driver openEnvironment) w tr retval w' ∧
      Located (w.pciedevDevM 0) ∧ Fitting (w.pciedevDevM 0) tr ∧
      w.privateData scratchCall.filp = 0 ∧ w'.privateData scratchCall.filp = 0 :=
    ⟨_, _, run_of_answers (Outcome.answers {}) (fun _ _ _ _ _ => trivial) rfl, _, _, _,
      run_of_answers (scratchRequest 0 0x40).answers (fun _ _ _ _ _ => trivial) rfl, by
        decide, by decide,
      by decide, by decide⟩
  have hboard : FromProbe openEnvironment 0 w := .probe hprobe
  have huses : scratchCall.UsesScratch := .inr ⟨0, 0, .inl rfl⟩
  have hrun : ScratchRun openEnvironment 0 w w' := .call .start huses hfile hset hfits
  exact ⟨w, w', hboard, hrun, scratch_reads_inside hboard hlocated hrun huses hfile'⟩

set_option maxRecDepth 8000 in
/-- The offset 0x2000 is taken as it is, and read by command 2. -/
theorem scratch_read_behind_window :
    ∃ w w' w'' tr tr' retval retval', FromProbe openEnvironment 0 w ∧
    scratchCall.program.Run (driver openEnvironment) w tr retval w' ∧
    scratchCall.program.Run (driver openEnvironment) w' tr' retval' w'' ∧
    ∃ width a, ∃ r : UInt32, ⟨.kernel (.ioread width a), r⟩ ∈ tr' ∧
      ¬ (w'.pciedevDevM 0).InScratch (width, a) := by
  obtain ⟨tr₀, w, hprobe, tr, retval, w', hset, tr', retval', w'', hread, width, a, r, hmem, hout⟩ :
      ∃ tr₀ w,
        (pciedevProbeExp 0 0 0).Run (driver openEnvironment) (.uniform {}) tr₀ ((0 : ℤ), 0) w ∧
      ∃ tr retval w', scratchCall.program.Run (driver openEnvironment) w tr retval w' ∧
      ∃ tr' retval' w'', scratchCall.program.Run (driver openEnvironment) w' tr' retval' w'' ∧
      ∃ width a, ∃ r : UInt32, ⟨.kernel (.ioread width a), r⟩ ∈ tr' ∧
        ¬ (w'.pciedevDevM 0).InScratch (width, a) :=
    ⟨_, _, run_of_answers (Outcome.answers {}) (fun _ _ _ _ _ => trivial) rfl, _, _, _,
      run_of_answers (scratchRequest 0 0x2000).answers (fun _ _ _ _ _ => trivial) rfl, _, _, _,
      run_of_answers (scratchRequest 2 0).answers (fun _ _ _ _ _ => trivial) rfl, .w32,
        ⟨some 1, 0x2000⟩, 0,
      List.mem_of_getElem? (i := 9) rfl, by decide⟩
  exact ⟨w, w', w'', tr, tr', retval, retval', .probe hprobe, hset, hread, width, a, r, hmem, hout⟩

end Upciedev
