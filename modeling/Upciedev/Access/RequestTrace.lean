import Upciedev.Access.DataEvents

/-!
# The shape of a request

A call on a file that moves registers copies request structures and answers each with
one inline call; a positional read or write makes one inline call without a copy. What
is known about every inline call therefore extends to the trace of a whole request.
-/
namespace Upciedev

open Foundations Program

def dataCommands : List IoctlCmd := [.setBits, .swapBits, .lockedRead, .vectorRw, .singleIocAccess]

/-- The calls on a file that reach the two inline functions. -/
def FileCall.IsDataRequest : FileCall → Prop
  | readExp .. | writeExp .. => True
  | ioctlExp _ cmd _ => ∃ c ∈ dataCommands, cmd = c.code
  | _ => False

def FileCall.filp : FileCall → File
  | openExp _ _ filp | releaseExp filp | readExp filp .. | writeExp filp .. => filp
  | llseek filp | ioctlExp filp .. | remapMmapExp filp _ => filp

/-- The position word a positional read or write decodes, and its count. -/
def positionOf (count fPosPtr fPos : UInt64) : Option (UInt64 × UInt64) :=
  if fPos ≠ pciedFpos then some (fPosPtr, count) else none

def FileCall.position : FileCall → Option (UInt64 × UInt64)
  | readExp _ _ count fPosPtr fPos | writeExp _ _ count fPosPtr fPos =>
      positionOf count fPosPtr fPos
  | _ => none

/-- Operations of a request outside its inline calls. -/
@[reducible] def FrameOp : Op → Prop
  | .privateData _ | .load _ | .enterCritRegion _ | .leaveCritRegion _ => True
  | .kernel (.accessOk _ _) => True
  | .kernel (.copyFromUser .deviceRw _) | .kernel (.copyFromUser .deviceIocRw _) => True
  | .kernel (.copyFromUser .deviceVectorRw _) => True
  | _ => False

/-- Events around the inline calls: frame operations that bring no request. -/
def Quiet (e : Event driverInterface) : Prop :=
  FrameOp e.op ∧ ∀ bar offset count, dataEvent e.op e.res ≠ some (.request bar offset count)

def AllQuiet (tr : Trace) : Prop := ∀ e ∈ tr, Quiet e

theorem allQuiet_nil : AllQuiet [] := by simp [AllQuiet]

/-- The call does what the copied structure asks for. -/
def InlineCall.Answers (c : InlineCall) (e : Event driverInterface) : Prop :=
  FrameOp e.op ∧ dataEvent e.op e.res = some (.request c.bar c.offset c.count)

/-- A trace that answers every request it copies with one inline call; `K` holds of each
inline call and its part of the trace. -/
inductive RequestTrace (K : InlineCall → Trace → Prop) : Trace → Prop
  | nil : RequestTrace K []
  | quiet {e : Event driverInterface} {tr : Trace} (he : Quiet e) (h : RequestTrace K tr) :
      RequestTrace K (e :: tr)
  | call {e : Event driverInterface} {c : InlineCall} {mid l tr : Trace} (he : c.Answers e)
      (hmid : AllQuiet mid) (hl : K c l) (h : RequestTrace K tr) :
      RequestTrace K (e :: (mid ++ l ++ tr))

/-- The trace of one inline call, with quiet events before it and a rest in `R` behind it. -/
def CallTrace (K : InlineCall → Trace → Prop) (R : Trace → Prop) (bar offset : UInt32) (count : ℕ)
    (tr : Trace) : Prop :=
  ∃ c pre l post, tr = pre ++ l ++ post ∧ AllQuiet pre ∧ K c l ∧ R post ∧
    c.bar = bar ∧ c.offset = offset ∧ c.count = count

section
variable {K : InlineCall → Trace → Prop} {R : Trace → Prop} {bar offset : UInt32} {count : ℕ}
  {tr : Trace} {e : Event driverInterface}

theorem RequestTrace.of_quiet (h : AllQuiet tr) : RequestTrace K tr := by
  induction tr with
  | nil => exact .nil
  | cons e tr ih =>
    obtain ⟨he, htr⟩ := List.forall_mem_cons.mp h
    exact .quiet he (ih htr)

theorem RequestTrace.append {tr' : Trace} (h : RequestTrace K tr) (h' : RequestTrace K tr') :
    RequestTrace K (tr ++ tr') := by
  induction h with
  | nil => exact h'
  | quiet he _ ih => exact .quiet he ih
  | call he hmid hl _ ih =>
    rw [List.cons_append, List.append_assoc]
    exact .call he hmid hl ih

theorem CallTrace.cons (he : Quiet e) (h : CallTrace K R bar offset count tr) :
    CallTrace K R bar offset count (e :: tr) := by
  obtain ⟨c, pre, l, post, rfl, hpre, hrest⟩ := h
  exact ⟨c, e :: pre, l, post, by simp, List.forall_mem_cons.mpr ⟨he, hpre⟩, hrest⟩

theorem CallTrace.request (hop : FrameOp e.op)
    (he : dataEvent e.op e.res = some (.request bar offset count))
    (h : CallTrace K (RequestTrace K) bar offset count tr) : RequestTrace K (e :: tr) := by
  obtain ⟨c, pre, l, post, rfl, hpre, hl, hpost, rfl, rfl, rfl⟩ := h
  exact .call ⟨hop, he⟩ hpre hl hpost

end

/-- A positional request makes one inline call with the fields of its position word, any other
one answers each request it copies. -/
def DataTrace (K : InlineCall → Trace → Prop) : Option (UInt64 × UInt64) → Trace → Prop
  | some (p, count), tr => CallTrace K AllQuiet (posBarx p) (posOffset p) count.toNat tr
  | none, tr => RequestTrace K tr

theorem DataTrace.cons {K : InlineCall → Trace → Prop} {position : Option (UInt64 × UInt64)}
    {e : Event driverInterface} {tr : Trace} (he : Quiet e) (h : DataTrace K position tr) :
    DataTrace K position (e :: tr) := by
  cases position with
  | none => exact .quiet he h
  | some p => exact CallTrace.cons he h

section
variable {K : InlineCall → Trace → Prop} {M : Trace → Prop} {tr : Trace} (hM : Composed M)
  (hone : ∀ e : Event driverInterface, FrameOp e.op → M [e]) (hK : ∀ c tr, K c tr → M tr)
include hM hone

theorem AllQuiet.composed (h : AllQuiet tr) : M tr := hM.of_forall fun e he => hone e (h e he).1

include hK

theorem RequestTrace.composed (h : RequestTrace K tr) : M tr := by
  induction h with
  | nil => exact hM.nil
  | quiet he _ ih => exact hM.append (hone _ he.1) ih
  | call he hmid hl _ ih =>
    exact hM.append (hone _ he.1) (hM.append (hM.append (hmid.composed hM hone) (hK _ _ hl)) ih)

theorem DataTrace.composed {position : Option (UInt64 × UInt64)} (h : DataTrace K position tr) :
    M tr := by
  cases position with
  | none => exact RequestTrace.composed hM hone hK h
  | some p =>
    obtain ⟨c, pre, l, post, rfl, hpre, hl, hpost, -⟩ := h
    exact hM.append (hM.append (hpre.composed hM hone) (hK c l hl)) (hpost.composed hM hone)

end

/-- What has to be known to extend a property `K` of inline calls to requests. -/
structure InlineLogic (owner : File → Entry) (table : Entry → PciedevDev) (dev : Entry)
    (A : (op : Op) → op.Res → Prop) (G : Op → Prop) (K : InlineCall → Trace → Prop) : Prop where
  answers op r : A op r → tableAnswers owner table op r
  allows op : FrameOp op → G op
  inline (dir : Direction) (c : InlineCall) (code : ℕ) :
    c.dev = dev → c.registerSize = correctedSize (table dev) code →
      (dir.inline c).Sat A G fun tr _ => K c tr

section
variable {α : Type} {owner : File → Entry} {table : Entry → PciedevDev} {dev : Entry}
  {A : (op : Op) → op.Res → Prop} {G : Op → Prop} {K : InlineCall → Trace → Prop}
  {R : Trace → Prop} {bar offset : UInt32} {count : ℕ} {Q : Trace → α → Prop}
  (logic : InlineLogic owner table dev A G K)
include logic

theorem frame_sat {op : Op} {k : op.Res → Kernel α} (hop : FrameOp op)
    (hk : ∀ r, tableAnswers owner table op r → (k r).Sat A G fun tr a => Q (⟨op, r⟩ :: tr) a) :
    (Program.call (I := driverInterface) op k).Sat A G Q :=
  (sat_call ..).mpr ⟨logic.allows op hop, fun r hr => hk r (logic.answers op r hr)⟩

theorem withCritRegion_sat {Q : Trace → ℤ → Prop} {body : Kernel ℤ}
    (h : body.Sat A G fun tr a => Q (⟨.enterCritRegion dev, (0 : ℤ)⟩ :: tr) a) :
    (withCritRegion dev body).Sat A G Q := by
  apply frame_sat logic trivial
  rintro _ rfl
  exact h

theorem withCritRegion_requests {body : Kernel ℤ}
    (h : body.Sat A G fun tr _ => RequestTrace K tr) :
    (withCritRegion dev body).Sat A G fun tr _ => RequestTrace K tr :=
  withCritRegion_sat logic (h.imp fun _ _ htr => .quiet ⟨trivial, by simp [dataEvent]⟩ htr)

theorem withCritRegion_call {body : Kernel ℤ}
    (h : body.Sat A G fun tr _ => CallTrace K R bar offset count tr) :
    (withCritRegion dev body).Sat A G fun tr _ => CallTrace K R bar offset count tr :=
  withCritRegion_sat logic (h.imp fun _ _ htr => htr.cons ⟨trivial, by simp [dataEvent]⟩)

theorem leaveWith_sat (retval : ℤ) : (leaveWith dev retval).Sat A G fun tr _ => AllQuiet tr :=
  frame_sat logic trivial fun _ _ => (sat_ret ..).mpr
    (List.forall_mem_singleton.mpr ⟨trivial, by simp [dataEvent]⟩)

/-- `correctFrom` reads the entry at most once and yields the corrected size. -/
theorem correctFrom_sat {code : ℕ} {f : UInt16 → Kernel α}
    (hf : (f (correctedSize (table dev) code)).Sat A G fun tr _ =>
      CallTrace K R bar offset count tr) :
    (correctFrom dev code >>= f).Sat A G fun tr _ => CallTrace K R bar offset count tr := by
  unfold correctedSize at hf
  unfold correctFrom
  split_ifs at hf ⊢
  · apply frame_sat logic trivial
    rintro _ rfl
    exact hf.imp fun _ _ h => h.cons ⟨trivial, by simp [dataEvent]⟩
  · exact hf

theorem inline_sat (dir : Direction) {c : InlineCall} {f : ℤ → Kernel α} {code : ℕ}
    (hdev : c.dev = dev) (hcode : c.registerSize = correctedSize (table dev) code)
    (hf : ∀ a, (f a).Sat A G fun tr _ => R tr) :
    (dir.inline c >>= f).Sat A G fun tr _ => CallTrace K R c.bar c.offset c.count tr := by
  rw [sat_bind]
  refine (logic.inline dir c code hdev hcode).imp fun l a hl => (hf a).imp fun post _ hpost => ?_
  exact ⟨c, [], l, post, by simp, allQuiet_nil, hl, hpost, rfl, rfl, rfl⟩

theorem transfer_sat (rw : DeviceIocRw) {f : ℤ → Kernel α} {code : ℕ}
    (hf : ∀ a, (f a).Sat A G fun tr _ => R tr) :
    (transfer dev (correctedSize (table dev) code) rw >>= f).Sat A G fun tr _ =>
      CallTrace K R rw.barxRw rw.offsetRw rw.countRw.toNat tr := by
  unfold transfer
  split_ifs
  · exact inline_sat logic .read rfl rfl hf
  · exact inline_sat logic .write rfl rfl hf

/-- The copy of a request and the call that answers it, or the way out when it fails. -/
theorem request_sat {T : UserType} {src : UInt64} {k : Option T.Val → Kernel α}
    {bar offset : T.Val → UInt32} {count : T.Val → ℕ} (hT : FrameOp (.kernel (.copyFromUser T src)))
    (hasks : ∀ v, dataEvent (.kernel (.copyFromUser T src)) (some v) =
      some (.request (bar v) (offset v) (count v)))
    (hnone : (k none).Sat A G fun tr _ => AllQuiet tr)
    (hsome : ∀ v, (k (some v)).Sat A G fun tr _ =>
      CallTrace K (RequestTrace K) (bar v) (offset v) (count v) tr) :
    (Program.call (I := driverInterface) (.kernel (.copyFromUser T src)) k).Sat A G fun tr _ =>
      RequestTrace K tr := by
  apply frame_sat logic hT
  rintro (_ | v) _
  · refine hnone.imp fun tr _ htr => .quiet ⟨hT, ?_⟩ (.of_quiet htr)
    cases T <;> first | exact fun _ _ _ => Option.some_ne_none _ ∘ Eq.symm | exact hT.elim
  · exact (hsome v).imp fun tr _ htr => htr.request hT (hasks v)

theorem deviceIocRw_sat {src : UInt64} {k : Option DeviceIocRw → Kernel α}
    (hnone : (k none).Sat A G fun tr _ => AllQuiet tr)
    (hsome : ∀ rw : DeviceIocRw, (k (some rw)).Sat A G fun tr _ =>
      CallTrace K (RequestTrace K) rw.barxRw rw.offsetRw rw.countRw.toNat tr) :
    (Program.call (I := driverInterface) (.kernel (.copyFromUser .deviceIocRw src)) k).Sat A G
      fun tr _ => RequestTrace K tr :=
  request_sat logic trivial (fun _ => rfl) hnone hsome

theorem vectorLoop_sat (n : ℕ) (pUserRWdata : UInt64) (retval : ℤ) :
    (vectorLoop dev n pUserRWdata retval).Sat A G fun tr _ => RequestTrace K tr := by
  induction n generalizing pUserRWdata retval with
  | zero => exact .nil
  | succ n ih =>
    refine deviceIocRw_sat logic allQuiet_nil fun rw => correctFrom_sat logic ?_
    exact transfer_sat logic rw fun _ => ih _ _

theorem leave_requests (retval : ℤ) :
    (leaveWith dev retval).Sat A G fun tr _ => RequestTrace K tr :=
  (leaveWith_sat logic retval).imp fun _ _ htr => .of_quiet htr

theorem singleIocTransfer_sat (rw : DeviceIocRw) {code : ℕ} :
    (singleIocTransfer dev (correctedSize (table dev) code) rw).Sat A G fun tr _ =>
      CallTrace K (RequestTrace K) rw.barxRw rw.offsetRw rw.countRw.toNat tr := by
  unfold singleIocTransfer
  split_ifs
  · exact withCritRegion_call logic
      (inline_sat logic .read rfl rfl fun _ => leave_requests logic _)
  · exact inline_sat logic .read rfl rfl fun _ => .nil
  · exact withCritRegion_call logic
      (inline_sat logic .write rfl rfl fun _ => leave_requests logic _)

/-- Each of the five commands answers every request it copies with one inline call. -/
theorem ioctlCase_sat (arg : UInt64) {c : IoctlCmd} (hc : c ∈ dataCommands) :
    (ioctlCase dev arg c).Sat A G fun tr _ => RequestTrace K tr := by
  simp only [dataCommands, List.mem_cons, List.not_mem_nil, or_false] at hc
  rcases hc with rfl | rfl | rfl | rfl | rfl
  · refine withCritRegion_requests logic
      (deviceIocRw_sat logic (leaveWith_sat logic _) fun rw => ?_)
    exact correctFrom_sat logic (inline_sat logic .write rfl rfl fun _ => leave_requests logic _)
  · refine withCritRegion_requests logic
      (deviceIocRw_sat logic (leaveWith_sat logic _) fun rw => ?_)
    exact correctFrom_sat logic (inline_sat logic .write rfl rfl fun _ => leave_requests logic _)
  · refine deviceIocRw_sat logic allQuiet_nil fun rw => correctFrom_sat logic ?_
    exact withCritRegion_call logic
      (inline_sat logic .read rfl rfl fun _ => leave_requests logic _)
  · apply frame_sat logic trivial
    have hquiet (r : Option DeviceVectorRw) :
        Quiet ⟨.kernel (.copyFromUser .deviceVectorRw arg), r⟩ := ⟨trivial, by simp [dataEvent]⟩
    rintro (_ | vector) _
    · exact .quiet (hquiet none) .nil
    · apply withCritRegion_sat logic
      rw [sat_bind]
      apply (vectorLoop_sat logic _ _ _).imp
      intro tr _ htr
      refine (leaveWith_sat logic _).imp fun tr' _ htr' => .quiet (hquiet _) (.quiet ?_ ?_)
      · exact ⟨trivial, by simp [dataEvent]⟩
      · exact htr.append (.of_quiet htr')
  · refine withCritRegion_requests logic
      (deviceIocRw_sat logic (leaveWith_sat logic _) fun rw => ?_)
    exact correctFrom_sat logic (singleIocTransfer_sat logic rw)

theorem accessError_sat (cmd : UInt32) (arg : UInt64) :
    (accessError cmd arg).Sat A G fun tr _ => AllQuiet tr := by
  refine (sat_ite ..).mpr ⟨fun _ => frame_sat logic trivial fun _ _ => ?_, fun _ => allQuiet_nil⟩
  exact List.forall_mem_singleton.mpr ⟨trivial, by simp [dataEvent]⟩

theorem pciedevIoctlExp_sat {filp : File} (howner : owner filp = dev) (arg : UInt64) {c : IoctlCmd}
    (hc : c ∈ dataCommands) :
    (pciedevIoctlExp filp c.code arg).Sat A G fun tr _ => RequestTrace K tr := by
  apply frame_sat logic trivial
  intro d hd
  obtain rfl : d = dev := hd.trans howner
  apply frame_sat logic trivial
  intro v _
  apply Sat.imp (Q := fun tr _ => RequestTrace K tr) _ fun _ _ htr =>
    .quiet ⟨trivial, by simp [dataEvent]⟩ (.quiet ⟨trivial, by simp [dataEvent]⟩ htr)
  change (if v.devSts = 0 then pure eFault else accessError c.code arg >>= _ : Kernel ℤ).Sat A G _
  rw [IoctlCmd.decode_code]
  refine (sat_ite ..).mpr ⟨fun _ => .nil, fun _ => (sat_bind ..).mpr ?_⟩
  apply (accessError_sat logic c.code arg).imp
  intro tr err htr
  refine (sat_ite ..).mpr ⟨fun _ => ?_, fun _ =>
    (ioctlCase_sat logic arg hc).imp fun tr' _ htr' => ?_⟩
  · exact (RequestTrace.of_quiet htr).append .nil
  · exact (RequestTrace.of_quiet htr).append htr'

theorem accessBody_sat (dir : Direction) (accessMode : UInt16) (refused : ℤ)
    (buf count fPosPtr fPos : UInt64) :
    (accessBody dir accessMode refused dev buf count fPosPtr fPos).Sat A G fun tr _ =>
      DataTrace K (positionOf count fPosPtr fPos) tr := by
  have hregion {R : Trace → Prop} (hR : ∀ tr, AllQuiet tr → R tr) (code : ℕ) {bar offset : UInt32}
      {n : ℕ} {calls : UInt16 → InlineCall}
      (hcalls : ∀ s, (calls s).dev = dev ∧ (calls s).registerSize = s ∧ (calls s).bar = bar ∧
        (calls s).offset = offset ∧ (calls s).count = n) :
      (accessRegion dir dev code calls).Sat A G fun tr _ => CallTrace K R bar offset n tr := by
    obtain ⟨hdev, hcode, rfl, rfl, rfl⟩ := hcalls (correctedSize (table dev) code)
    refine correctFrom_sat logic (inline_sat logic dir hdev hcode fun _ => ?_)
    exact (leaveWith_sat logic sizeofDeviceRw).imp fun tr _ => hR tr
  unfold accessBody positionOf
  split_ifs with hpos
  · exact hregion (fun _ h => h) _ fun _ => ⟨rfl, rfl, rfl, rfl, rfl⟩
  · refine request_sat logic trivial (fun _ => rfl) allQuiet_nil fun reading => ?_
    exact hregion (fun _ h => RequestTrace.of_quiet h) _ fun _ => ⟨rfl, rfl, rfl, rfl, rfl⟩

theorem accessExp_sat (dir : Direction) (accessMode : UInt16) (dead refused : ℤ) {filp : File}
    (howner : owner filp = dev) (hlive : (table dev).devSts ≠ 0) (buf count fPosPtr fPos : UInt64) :
    (accessExp dir accessMode dead refused filp buf count fPosPtr fPos).Sat A G fun tr _ =>
      DataTrace K (positionOf count fPosPtr fPos) tr := by
  have hquiet {e : Event driverInterface}
      (he : e.op = .privateData filp ∨ e.op = .load dev ∨ e.op = .enterCritRegion dev) :
      Quiet e := by
    obtain ⟨op, r⟩ := e
    rcases he with rfl | rfl | rfl <;> exact ⟨trivial, by simp [dataEvent]⟩
  apply frame_sat logic trivial
  intro d hd
  obtain rfl : d = dev := hd.trans howner
  apply frame_sat logic trivial
  rintro _ rfl
  refine (sat_ite ..).mpr ⟨fun h => absurd h hlive, fun _ => withCritRegion_sat logic ?_⟩
  apply (accessBody_sat logic dir accessMode refused buf count fPosPtr fPos).imp
  intro tr _ htr
  exact ((htr.cons (hquiet (.inr (.inr rfl)))).cons (hquiet (.inr (.inl rfl)))).cons
    (hquiet (.inl rfl))

/-- What is known of the inline calls is known of every data request on a live board. -/
theorem dataRequest_sat {c : FileCall} (hc : c.IsDataRequest) (howner : owner c.filp = dev)
    (hlive : (table dev).devSts ≠ 0) : c.program.Sat A G fun tr _ => DataTrace K c.position tr := by
  cases c with
  | readExp filp buf count fPosPtr fPos =>
    rw [FileCall.program, pciedevReadExp_eq]
    exact accessExp_sat logic .read _ _ _ howner hlive buf count fPosPtr fPos
  | writeExp filp buf count fPosPtr fPos =>
    rw [FileCall.program, pciedevWriteExp_eq]
    exact accessExp_sat logic .write _ _ _ howner hlive buf count fPosPtr fPos
  | ioctlExp filp cmd arg =>
    obtain ⟨c, hmem, rfl⟩ := hc
    exact pciedevIoctlExp_sat logic howner arg hmem
  | openExp | releaseExp | llseek | remapMmapExp => exact hc.elim

end

end Upciedev
