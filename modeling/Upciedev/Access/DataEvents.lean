import Upciedev.Model.Requests

/-!
# What a request does to registers

The register accesses and user copies of a run, without those of the scratch check,
and a judgement on programs that says what they emit against fixed driver data.
-/
namespace Upciedev

open Foundations Program

inductive DataEvent where
  | request (bar offset : UInt32) (count : ℕ)
  | call (dir : Direction) (c : InlineCall)
  | access (regSize : UInt16) (a : IoAddr)
  | io (w : Width) (a : IoAddr)
  | copy (bytes : UInt32)
  deriving DecidableEq, Repr

/-- A request copied from the caller, the entry of an inline function, a call of
`Read_Write_Private`, an I/O instruction, or the copy of one element. -/
def dataEvent : (op : Op) → op.Res → Option DataEvent
  | .kernel (.copyFromUser .deviceRw _), some (reading : DeviceRw) =>
      some (.request reading.barxRw reading.offsetRw 1)
  | .kernel (.copyFromUser .deviceIocRw _), some (rw : DeviceIocRw) =>
      some (.request rw.barxRw rw.offsetRw rw.countRw.toNat)
  | .note (.readInline c), _ => some (.call .read c)
  | .note (.writeInline c), _ => some (.call .write c)
  | .note (.readWritePrivate regSize _ a), _ => some (.access regSize a)
  | .kernel (.ioread w a), _ => some (.io w a)
  | .kernel (.iowrite w a _), _ => some (.io w a)
  | .kernel (.copyFromUser (.data bytes) _), _ => some (.copy bytes)
  | .kernel (.copyToUser (.data bytes) _ _), _ => some (.copy bytes)
  | _, _ => none

/-- Whether the scratch check is running after an operation. -/
def inScratchAfter (inScratch : Bool) : Op → Bool
  | .note .checkScratch => true
  | .note .scratchChecked => false
  | _ => inScratch

def scratchAfter (inScratch : Bool) (tr : Trace) : Bool :=
  tr.foldl (fun b e => inScratchAfter b e.op) inScratch

/-- The data events of a trace outside the scratch check. -/
def dataEvents : Bool → Trace → List DataEvent
  | _, [] => []
  | inScratch, e :: tr =>
    (if inScratch then [] else (dataEvent e.op e.res).toList) ++
      dataEvents (inScratchAfter inScratch e.op) tr

@[simp] theorem scratchAfter_nil (b : Bool) : scratchAfter b [] = b := rfl

@[simp] theorem scratchAfter_cons (b : Bool) (e : Event driverInterface) (tr : Trace) :
    scratchAfter b (e :: tr) = scratchAfter (inScratchAfter b e.op) tr := rfl

@[simp] theorem scratchAfter_append (b : Bool) (tr tr' : Trace) :
    scratchAfter b (tr ++ tr') = scratchAfter (scratchAfter b tr) tr' := List.foldl_append

@[simp] theorem dataEvents_append (b : Bool) (tr tr' : Trace) :
    dataEvents b (tr ++ tr') = dataEvents b tr ++ dataEvents (scratchAfter b tr) tr' := by
  induction tr generalizing b with
  | nil => rfl
  | cons e tr ih => simp [dataEvents, ih]

@[reducible] def Op.Steady : Op → Prop
  | .setPrivateData _ _ | .setFPos _ _ | .store _ _ | .setCdev _ | .setDrvdata _ _ => False
  | .setBaseRow _ _ _ | .setBaseBar _ _ _ _ => False
  | _ => True

/-- Operations that return and leave the driver data alone. -/
@[reducible] def Op.ReadOnly : Op → Prop
  | .fault _ => False
  | op => op.Steady

theorem Op.ReadOnly.steady {op : Op} (h : op.ReadOnly) : op.Steady := by
  cases op <;> trivial

/-- Answers that agree with given owners of files and a given table. -/
def tableAnswers (owner : File → Entry) (table : Entry → PciedevDev) : (op : Op) → op.Res → Prop
  | .privateData filp, r => r = owner filp
  | .load d, r => r = table d
  | .memmoryBase d i, r => barEntry (table d).memmoryBase i r
  | .memBase d i, r => barEntry (table d).memBase i r
  | .memBaseEnd d i, r => barEntry (table d).memBaseEnd i r
  | .enterCritRegion _, r => r = (0 : ℤ)
  | _, _ => True

/-- The program ends outside the scratch check with events and a result in `R`; on the way it
changes no driver data and meets no fault. -/
def Emits {α : Type} (owner : File → Entry) (table : Entry → PciedevDev) (p : Kernel α)
    (R : List DataEvent → α → Prop) : Prop :=
  p.Sat (tableAnswers owner table) Op.ReadOnly fun tr a =>
    scratchAfter false tr = false ∧ R (dataEvents false tr) a

section
variable {α β ε : Type} {owner : File → Entry} {table : Entry → PciedevDev}
  {R R' : List DataEvent → α → Prop}

theorem Emits.imp {p : Kernel α} (h : Emits owner table p R) (hR : ∀ l a, R l a → R' l a) :
    Emits owner table p R' := Sat.imp h fun _ _ hQ => ⟨hQ.1, hR _ _ hQ.2⟩

@[simp] theorem emits_ret (a : α) : Emits owner table (ret a) R ↔ R [] a :=
  and_iff_right rfl

theorem Emits.call {op : Op} {k : op.Res → Kernel α} (hro : op.ReadOnly)
    (hop : ∀ b, inScratchAfter b op = b)
    (hk : ∀ r, tableAnswers owner table op r →
      Emits owner table (k r) fun l a => R ((dataEvent op r).toList ++ l) a) :
    Emits owner table (Program.call (I := driverInterface) op k) R := by
  refine ⟨hro, fun r hr => Sat.imp (hk r hr) fun tr a hQ => ?_⟩
  simpa [dataEvents, hop] using hQ

theorem Emits.bind {p : Kernel α} {f : α → Kernel β} {S : List DataEvent → β → Prop}
    (hp : Emits owner table p R)
    (hf : ∀ l a, R l a → Emits owner table (f a) fun l' b => S (l ++ l') b) :
    Emits owner table (p >>= f) S := by
  rw [Emits, sat_bind]
  refine Sat.imp hp fun tr a ⟨hscratch, hR⟩ => Sat.imp (hf _ a hR) fun tr' b hQ => ?_
  rwa [scratchAfter_append, dataEvents_append, hscratch]

theorem emits_ite {c : Prop} [Decidable c] {p q : Kernel α} (hp : c → Emits owner table p R)
    (hq : ¬ c → Emits owner table q R) : Emits owner table (if c then p else q) R :=
  (sat_ite ..).mpr ⟨hp, hq⟩

end

/-- What holds of two traces holds of one after the other. -/
structure Composed (M : Trace → Prop) : Prop where
  nil : M []
  append {tr tr' : Trace} : M tr → M tr' → M (tr ++ tr')

section
variable {α β : Type} {M : Trace → Prop} (hM : Composed M) {A : (op : Op) → op.Res → Prop}
  {G G' : Op → Prop}
include hM

theorem Composed.of_forall {tr : Trace} (h : ∀ e ∈ tr, M [e]) : M tr := by
  induction tr with
  | nil => exact hM.nil
  | cons e tr ih =>
    obtain ⟨he, htr⟩ := List.forall_mem_cons.mp h
    exact hM.append he (ih htr)

theorem Composed.of_only {p : Kernel α} (hp : p.Only G') (hG : ∀ op, G' op → G op)
    (hone : ∀ e : Event driverInterface, G' e.op → M [e]) : p.Sat A G fun tr _ => M tr :=
  Sat.of_only hp hG fun _ _ htr => hM.of_forall fun e he => hone e (htr e he)

theorem Composed.bind {p : Kernel α} {f : α → Kernel β} (hp : p.Sat A G fun tr _ => M tr)
    (hf : ∀ a, (f a).Sat A G fun tr _ => M tr) : (p >>= f).Sat A G fun tr _ => M tr :=
  (sat_bind ..).mpr (hp.imp fun _ a htr => (hf a).imp fun _ _ htr' => hM.append htr htr')

/-- A read loop is composed of operations on registers and elements, and of scratch checks. -/
theorem Composed.readLoop {c : InlineCall} (hG : ∀ op, MoveOp c.dev op → G op)
    (hone : ∀ e : Event driverInterface, MoveOp c.dev e.op → M [e])
    (hcheck : (pciedevCheckScratch c.dev).Sat A G fun tr _ => M tr) (u : UInt32) (n : ℕ)
    (pcUserBuf : UInt64) (a : IoAddr) (tmpDataForRw : UInt32) (retval : ℤ) :
    (Upciedev.readLoop c u n pcUserBuf a tmpDataForRw retval).Sat A G fun tr _ => M tr := by
  have hret {γ : Type} (r : γ) : (ret r : Kernel γ).Sat A G fun tr _ => M tr := hM.nil
  induction n generalizing pcUserBuf a tmpDataForRw retval with
  | zero => exact hret _
  | succ n ih =>
    unfold Upciedev.readLoop
    apply hM.bind (hM.of_only (readWritePrivate_only c.dev _ _ _ _ _ _) hG hone)
    intro read
    refine hM.bind ((sat_ite ..).mpr ⟨fun _ => hcheck, fun _ => hret _⟩) fun failed => ?_
    refine (sat_ite ..).mpr ⟨fun _ => hret _, fun _ => ?_⟩
    have hload : (load c.dev).Only (MoveOp c.dev) := by simp [MoveOp, AccessOp]
    apply hM.bind (hM.of_only hload hG hone)
    intro v
    have hcopy (dst : UInt64) (x : UInt32) :
        (if c.userData ≠ 0 then copyToUser (.data u) dst x else
          pure false).Only (MoveOp c.dev) := by
      simp [MoveOp, AccessOp]
    apply hM.bind (hM.of_only (hcopy _ _) hG hone)
    intro uncopied
    exact (sat_ite ..).mpr ⟨fun _ => hret _, fun _ => ih _ _ _ _⟩

end

section
variable {α ε : Type} {E : Environment ε} {w w' w'' : World ε}

def SameData (w w' : World ε) : Prop :=
  w'.privateData = w.privateData ∧ w'.pciedevDevM = w.pciedevDevM

theorem driver_steady {op : Op} {r : op.Res} (hsteady : op.Steady) (hop : driver E op w r w') :
    tableAnswers w.privateData w.pciedevDevM op r ∧ SameData w w' := by
  cases op with
  | kernel c =>
    obtain ⟨e, -, rfl⟩ := hop
    exact ⟨trivial, rfl, rfl⟩
  | note n =>
    subst hop
    exact ⟨trivial, rfl, rfl⟩
  | fault f => exact r.elim
  | setPrivateData | setFPos | store | setCdev | setDrvdata | setBaseRow | setBaseBar =>
    exact hsteady.elim
  | _ =>
    obtain ⟨hr, rfl⟩ := hop
    exact ⟨by first | exact hr | trivial, rfl, rfl⟩

theorem driver_steady_step (op : Op) (w' : World ε) (r : op.Res) (w'' : World ε)
    (hsame : SameData w w') (hsteady : op.Steady) (hop : driver E op w' r w'') :
    tableAnswers w.privateData w.pciedevDevM op r ∧ SameData w w'' := by
  have h := driver_steady hsteady hop
  rw [hsame.1, hsame.2] at h
  exact ⟨h.1, h.2.1.trans hsame.1, h.2.2.trans hsame.2⟩

/-- What holds against the driver data at the start holds of the runs from there. -/
theorem steady_run {G : Op → Prop} {Q : Trace → α → Prop} {p : Kernel α} {tr : Trace} {a : α}
    (h : p.Sat (tableAnswers w.privateData w.pciedevDevM) G Q) (hG : ∀ op, G op → op.Steady)
    (hr : p.Run (driver E) w tr a w') : Q tr a :=
  (Sat.run h (fun op _ r _ hsame hop => driver_steady_step op _ r _ hsame (hG op hop))
    ⟨rfl, rfl⟩ hr).2.1

/-- Operations that return are the only ones an interrupted run stops before. -/
theorem readOnly_no_fault {Q : Trace → α → Prop} {p : Kernel α} {tr : Trace}
    (h : p.Sat (tableAnswers w.privateData w.pciedevDevM) Op.ReadOnly Q) (f : Fault)
    (k : Empty → Kernel α) :
    ¬ Reaches (driver E) p w tr (Program.call (I := driverInterface) (.fault f) k) w' := fun hr =>
  Sat.reaches hr h (fun op _ r _ hsame hop => driver_steady_step op _ r _ hsame hop.steady)
    ⟨rfl, rfl⟩ _ _ rfl

end
end Upciedev
