import Upciedev.Access.TransferOutcome

/-!
# What a vector request reports

`PCIEDEV_VECTOR_RW` adds up what its transfers return in one `int`: byte counts and error
codes alike. The sum is compared with a ledger of the descriptors that were handled.
-/
namespace Upciedev

open Foundations Program

def Move.fetchedBytes : Move → ℕ
  | .fetched w _ _ => w.bytes
  | _ => 0

def Move.storedBytes : Move → ℕ
  | .stored w _ _ => w.bytes
  | _ => 0

def Move.deliveredBytes : Move → ℕ
  | .delivered _ bytes _ => bytes.toNat
  | _ => 0

/-- The bytes that the moves of a descriptor account for: delivered to the buffer by a read, or
read from registers where there is no buffer, and written to registers by a write. -/
def bytesMoved (rw : DeviceIocRw) (l : List Move) : ℕ :=
  if rw.rwAccessMode < mtcaSimpleWrite then
    if rw.dataPtr = 0 then (l.map Move.fetchedBytes).sum else (l.map Move.deliveredBytes).sum
  else (l.map Move.storedBytes).sum

/-- A descriptor, the part of the trace that belongs to its transfer, and what the transfer
returned. -/
structure Descriptor where
  rw : DeviceIocRw
  seg : Trace
  result : ℤ

namespace Descriptor

def moved (d : Descriptor) : ℕ := bytesMoved d.rw (moves false d.seg)

/-- What a transfer with an access mode that the driver does not know returned: the write loop
counts the registers that it only reads then. -/
def unknown (d : Descriptor) : ℤ := if mtcaSwapBits < d.rw.rwAccessMode then d.result else 0

/-- What the transfer comes to, by its descriptor, the window and what it is answered. -/
def outcome (d : Descriptor) (v : PciedevDev) (dev : Entry) : ℤ :=
  if hbar : d.rw.barxRw.toNat < numberOfBars then
    (d.rw.transferCall dev (correctedSize v d.rw.registerSize.toNat)).outcome d.rw.direction v
      ⟨d.rw.barxRw.toNat, hbar⟩ (heard d.seg)
  else 0

/-- The bytes that a transfer with a known access mode comes to. -/
def bytes (d : Descriptor) (v : PciedevDev) (dev : Entry) : ℤ :=
  if mtcaSwapBits < d.rw.rwAccessMode then 0 else d.outcome v dev

/-- The bytes that a transfer with an unknown access mode is counted with. -/
def stray (d : Descriptor) (v : PciedevDev) (dev : Entry) : ℤ :=
  if mtcaSwapBits < d.rw.rwAccessMode then d.outcome v dev else 0

end Descriptor

/-- The descriptor that an event copies from the caller. -/
def copiedDescriptor (e : Event driverInterface) : Option DeviceIocRw :=
  match e.op, e.res with
  | .kernel (.copyFromUser .deviceIocRw _), r => r
  | _, _ => none

/-- The descriptors of a trace: each one that was copied, with the run of its transfer. -/
inductive Ledger (dev : Entry) : Trace → List Descriptor → Prop
  | nil : Ledger dev [] []
  | skip {e : Event driverInterface} {tr : Trace} {ds : List Descriptor}
      (he : copiedDescriptor e = none) (h : Ledger dev tr ds) : Ledger dev (e :: tr) ds
  | handled {e : Event driverInterface} {rw : DeviceIocRw} {pre seg tr : Trace} {regSize : UInt16}
      {result : ℤ} {ds : List Descriptor} (he : copiedDescriptor e = some rw)
      (hpre : (correctFrom dev rw.registerSize.toNat).Run (anyHandler driverInterface) ()
        pre regSize ())
      (hseg : (transfer dev regSize rw).Run (anyHandler driverInterface) () seg result ())
      (h : Ledger dev tr ds) :
      Ledger dev (e :: (pre ++ (seg ++ tr))) (⟨rw, seg, result⟩ :: ds)

/-- The vector structure that was copied in a trace. -/
def copiedVector (tr : Trace) : Option DeviceVectorRw :=
  tr.findSome? fun e =>
    match e.op, e.res with
    | .kernel (.copyFromUser .deviceVectorRw _), r => r
    | _, _ => none

def total (ds : List Descriptor) : ℤ := (ds.map Descriptor.result).sum

def totalMoved (ds : List Descriptor) : ℕ := (ds.map Descriptor.moved).sum

/-- A result that is not negative says that all descriptors were handled without an error and how
many bytes they moved, and an error is not kept quiet. -/
structure Accounts (number : Option ℕ) (ds : List Descriptor) (retval : ℤ) : Prop where
  counted : 0 ≤ retval → number = some ds.length ∧ (∀ d ∈ ds, 0 ≤ d.result) ∧ retval = totalMoved ds
  error : (∃ d ∈ ds, d.result < 0) → retval < 0

def fetchFails (e : Event driverInterface) : Bool :=
  match e.op, e.res with
  | .kernel (.copyFromUser .deviceIocRw _), none => true
  | _, _ => false

def FetchesSucceed (tr : Trace) : Prop := ∀ e ∈ tr, ¬ fetchFails e

instance (tr : Trace) : Decidable (FetchesSucceed tr) :=
  inferInstanceAs (Decidable (∀ e ∈ tr, ¬ fetchFails e))

/-- The requests that are accounted for, by the copies of the structure and its descriptors and by
what each transfer comes to. -/
inductive Accountable (vector : Option DeviceVectorRw) (tr : Trace) (v : PciedevDev) (dev : Entry)
    (ds : List Descriptor) : Prop
  /-- The vector structure cannot be copied. -/
  | unread (h : vector = none)
  /-- The number of descriptors is an `int` and all of them are copied, none is refused or meets a
  lost board, their bytes fit an `int`, and those of unknown access modes come to a multiple of
  `2 ^ 32`. -/
  | sound {request : DeviceVectorRw} (hrequest : vector = some request)
      (hnumber : request.numberOfRw.toNat < 2 ^ 31) (hfetched : FetchesSucceed tr)
      (herror : ∀ d ∈ ds, 0 ≤ d.outcome v dev) (hfits : (ds.map (·.bytes v dev)).sum < 2 ^ 31)
      (hstray : 2 ^ 32 ∣ (ds.map (·.stray v dev)).sum)
  /-- Byte counts and error codes add up to a negative `int`. -/
  | negative (h : 2 ^ 31 ≤ (ds.map (·.outcome v dev)).sum % 2 ^ 32)

/-- The result counts the bytes that were moved, or those of an unknown access mode. -/
def Descriptor.Sound (d : Descriptor) : Prop := 0 ≤ d.result → d.result = d.moved + d.unknown

theorem Ledger.unique {dev : Entry} {tr : Trace} {ds ds' : List Descriptor} (h : Ledger dev tr ds)
    (h' : Ledger dev tr ds') : ds = ds' := by
  induction h generalizing ds' with
  | nil =>
    cases h'
    rfl
  | skip he _ ih =>
    cases h' with
    | skip _ h' => exact ih h'
    | handled he' => rw [he] at he'; cases he'
  | @handled e rw pre seg tr regSize result ds he hpre hseg _ ih =>
    generalize hrest : pre ++ (seg ++ tr) = rest at h'
    cases h' with
    | skip he' => rw [he] at he'; cases he'
    | @handled _ _ pre' seg' tr' regSize' result' _ he' hpre' hseg' h' =>
      obtain rfl := Option.some.inj (he.symm.trans he')
      obtain ⟨rfl, rfl⟩ := hpre.prefix_unique hpre' hrest
      have hsegs := List.append_cancel_left hrest
      obtain ⟨rfl, rfl⟩ := hseg.prefix_unique hseg' hsegs
      obtain rfl := List.append_cancel_left hsegs
      rw [ih h']

theorem sum_zero_of_begun {f : Move → ℕ} {l : List Move} (hf : ∀ m : Move, m.Begun → f m = 0)
    (h : ∀ m ∈ l, m.Begun) : (l.map f).sum = 0 := by
  rw [List.sum_eq_zero_iff]
  intro x hx
  obtain ⟨m, hm, rfl⟩ := List.mem_map.mp hx
  exact hf m (h m hm)

theorem TransferEnd.sum_eq {copies : Prop} {Round : Cursor → List Move → Prop} {u : UInt32}
    {p : Cursor} {n size : ℕ} {scratch : Prop} {l : List Move} {a : ℤ} {f : Move → ℕ}
    (h : TransferEnd copies Round u p n scratch 0 l a) (ha : 0 ≤ a)
    (hround : ∀ q round, Round q round → (round.map f).sum = size)
    (hbegun : copies → ∀ m : Move, m.Begun → f m = 0) (hlost : f .lost = 0) :
    ∃ k : ℕ, a = k * u.toNat ∧ (l.map f).sum = k * size := by
  cases h with
  | complete _ hl => exact ⟨n, by simp, hl.sum_eq hround⟩
  | @lost k _ _ hcopies _ _ hl hmoves =>
    refine ⟨k, by simp, ?_⟩
    rw [List.map_append, List.sum_append, List.map_append, List.sum_append, hl.sum_eq hround,
      sum_zero_of_begun (hbegun hcopies) hmoves]
    simp [hlost]
  | error => exact absurd ha (by decide)

theorem sum_copyMoves {f : Move → ℕ} (hf : ∀ src bytes v, f (.taken src bytes v) = 0) (src : UInt64)
    (bytes : UInt32) (d : Option UInt32) : ((copyMoves src bytes d).map f).sum = 0 := by
  cases d with
  | none => rfl
  | some d => simp [copyMoves, hf]

section
variable {rw : DeviceIocRw} {c : InlineCall} {v : PciedevDev} {u : UInt32} {p : Cursor}
  {round : List Move}

theorem ReadRound.sum_fetched (hnull : c.userData = 0) (h : ReadRound c v u p round) :
    (round.map Move.fetchedBytes).sum = (Width.ofRegSize c.registerSize).bytes := by
  obtain ⟨r, rfl⟩ := h
  simp [hnull, Move.fetchedBytes]

theorem ReadRound.sum_delivered (hbuffer : c.userData ≠ 0) (h : ReadRound c v u p round) :
    (round.map Move.deliveredBytes).sum = u.toNat := by
  obtain ⟨r, rfl⟩ := h
  simp [hbuffer, Move.deliveredBytes]

/-- A round of a write writes its register, unless the access mode is an unknown one. -/
theorem WriteRound.sum_stored (hmode : mtcaSimpleWrite ≤ c.rwAccessMode)
    (h : WriteRound c v u p round) :
    (round.map Move.storedBytes).sum =
      if mtcaSwapBits < c.rwAccessMode then 0 else (Width.ofRegSize c.registerSize).bytes := by
  obtain ⟨data, mask, value, regs, -, -, -, hregs, rfl⟩ := h
  have hcopy := sum_copyMoves (f := Move.storedBytes) fun _ _ _ => rfl
  simp only [List.map_append, List.sum_append, hcopy, zero_add]
  cases hregs with
  | write heq =>
    have hknown : ¬ mtcaSwapBits < mtcaSimpleWrite := by decide
    simp [heq, hknown, Move.storedBytes]
  | update heq =>
    have hknown : ¬ mtcaSwapBits < c.rwAccessMode := by
      rcases heq with heq | heq <;> rw [heq] <;> decide
    simp [hknown, Move.storedBytes]
  | read hwrite hset hswap =>
    rw [ne_eq, ← UInt16.toNat_inj] at hwrite hset hswap
    have hunknown : mtcaSwapBits < c.rwAccessMode := by
      rw [UInt16.le_iff_toNat_le] at hmode
      rw [UInt16.lt_iff_toNat_lt]
      change 5 ≤ _ at hmode
      change ¬ _ = 5 at hwrite
      change ¬ _ = 6 at hset
      change ¬ _ = 7 at hswap
      change 7 < _
      omega
    simp [hunknown, Move.storedBytes]

end

/-- In what a transfer returns, its bytes are counted, and those of an unknown access mode. -/
theorem InlineEnd.sound {rw : DeviceIocRw} {dev : Entry} {regSize : UInt16} {v : PciedevDev}
    {bar : Bar} {l : List Move} {scratch : Prop} {a : ℤ} (hcode : ValidCode regSize)
    (h : InlineEnd rw.direction (rw.transferCall dev regSize) v bar l scratch a) :
    0 ≤ a → a = bytesMoved rw l + if mtcaSwapBits < rw.rwAccessMode then a else 0 := by
  intro hnonneg
  have ha : 0 ≤ a := hnonneg
  have hwidth := (rw.transferCall dev regSize).width_agrees hcode v
  by_cases hopen : (rw.transferCall dev regSize).Opens v bar
  swap
  · obtain ⟨-, rfl⟩ := h.of_closed hopen
    exact absurd ha (by decide)
  have hend := h.of_opens hopen
  have hbegun (f : Move → ℕ) (hfetched : ∀ w a r, f (.fetched w a r) = 0)
      (htaken : ∀ src bytes v, f (.taken src bytes v) = 0) (m : Move) (hm : m.Begun) : f m = 0 := by
    cases m <;> first | exact hfetched .. | exact htaken .. | exact hm.elim
  unfold bytesMoved
  by_cases hread : rw.rwAccessMode < mtcaSimpleWrite
  · have hknown : ¬ mtcaSwapBits < rw.rwAccessMode := by
      rw [UInt16.lt_iff_toNat_lt] at hread ⊢
      change _ < 5 at hread
      change ¬ 7 < _
      omega
    rw [DeviceIocRw.direction, if_pos hread] at hend
    simp only [hread, hknown, if_true, if_false, add_zero]
    split_ifs with hnull
    · obtain ⟨k, hk, hsum⟩ := hend.sum_eq ha (fun _ _ hr => ReadRound.sum_fetched hnull hr)
        (fun hcopies => absurd hnull hcopies) rfl
      rw [hk, hsum, hwidth]
      push_cast
      rfl
    · obtain ⟨k, hk, hsum⟩ := hend.sum_eq ha (fun _ _ hr => ReadRound.sum_delivered hnull hr)
        (fun _ => hbegun _ (fun _ _ _ => rfl) fun _ _ _ => rfl) rfl
      rw [hk, hsum]
      push_cast
      rfl
  · rw [DeviceIocRw.direction, if_neg hread] at hend
    obtain ⟨k, hk, hsum⟩ := hend.sum_eq ha
      (fun _ _ hr => WriteRound.sum_stored (UInt16.not_lt.mp hread) hr)
      (fun _ => hbegun _ (fun _ _ _ => rfl) fun _ _ _ => rfl) rfl
    have hmode : (rw.transferCall dev regSize).rwAccessMode = rw.rwAccessMode := rfl
    rw [if_neg hread, hsum, hmode]
    split_ifs with hunknown
    · simp
    · rw [hk, hwidth]
      push_cast
      ring

def BarsExist (ds : List Descriptor) : Prop := ∀ d ∈ ds, d.rw.barxRw.toNat < numberOfBars

section
variable {owner : File → Entry} {table : Entry → PciedevDev} {dev : Entry}

@[simp] theorem fetchesSucceed_nil : FetchesSucceed [] := by simp [FetchesSucceed]

@[simp] theorem fetchesSucceed_cons {e : Event driverInterface} {tr : Trace} :
    FetchesSucceed (e :: tr) ↔ ¬ fetchFails e ∧ FetchesSucceed tr := List.forall_mem_cons

@[simp] theorem fetchesSucceed_append {tr tr' : Trace} :
    FetchesSucceed (tr ++ tr') ↔ FetchesSucceed tr ∧ FetchesSucceed tr' := List.forall_mem_append

theorem not_inlineOp_fetch (dev : Entry) (src : UInt64) :
    ¬ InlineOp dev (.kernel (.copyFromUser .deviceIocRw src)) := by
  rintro (hop | ⟨c, hop | hop⟩)
  · exact hop.elim
  · cases hop
  · cases hop

theorem fetchesSucceed_of_inlineOp {tr : Trace} (htr : ∀ e ∈ tr, InlineOp dev e.op) :
    FetchesSucceed tr := by
  intro e he hfails
  obtain ⟨op, r⟩ := e
  unfold fetchFails at hfails
  split at hfails
  · rename_i src hop hr
    obtain rfl : op = .kernel (.copyFromUser .deviceIocRw src) := hop
    exact not_inlineOp_fetch dev src (htr _ he)
  · exact absurd hfails (by decide)

/-- A transfer to or from an existing BAR. -/
structure Transferred (v : PciedevDev) (dev : Entry) (d : Descriptor) : Prop where
  sound : d.Sound
  result_eq : d.result = d.outcome v dev

theorem transfer_transferred (hsize : ValidSize (table dev).registerSize) (rw : DeviceIocRw) :
    (transfer dev (correctedSize (table dev) rw.registerSize.toNat) rw).Sat
      (tableAnswers owner table) Op.ReadOnly fun seg result =>
        ((rw.barxRw.toNat < numberOfBars → Transferred (table dev) dev ⟨rw, seg, result⟩) ∧
          FetchesSucceed seg) ∧
        (transfer dev (correctedSize (table dev) rw.registerSize.toNat) rw).Run
          (anyHandler driverInterface) () seg result () := by
  have hcode := validCode_correctedSize hsize rw.registerSize.toNat
  apply Sat.runs
  rw [transfer_eq]
  have honly := rw.direction.inline_only
    (rw.transferCall dev (correctedSize (table dev) rw.registerSize.toNat))
  by_cases hbar : rw.barxRw.toNat < numberOfBars
  · let bar : Bar := ⟨rw.barxRw.toNat, hbar⟩
    let call := rw.transferCall dev (correctedSize (table dev) rw.registerSize.toNat)
    have hsame : call.bar.toNat = bar.val := rfl
    have hmode := rw.direction_eq_read.mp
    have hmoved : Moved owner table dev (rw.direction.inline call) _ :=
      inline_moved rw.direction rfl hcode hmode hsame
    have houtcome : (rw.direction.inline call).Sat (tableAnswers owner table) Op.ReadOnly _ :=
      inline_outcome rw.direction rfl hsize hcode hmode hsame
    apply ((Sat.and hmoved houtcome).and_only honly).imp
    intro seg result hpost
    obtain ⟨⟨⟨-, hend⟩, hresult⟩, hops⟩ := hpost
    refine ⟨fun _ => ⟨hend.sound hcode, ?_⟩, fetchesSucceed_of_inlineOp hops⟩
    rw [Descriptor.outcome, dif_pos hbar]
    exact hresult
  · have hall : (rw.direction.inline (rw.transferCall dev (correctedSize (table dev)
        rw.registerSize.toNat))).Sat (tableAnswers owner table) Op.ReadOnly fun _ _ => True := by
      rw [rw.direction.inline_eq]
      exact ⟨trivial, fun _ _ => Sat.imp (registers_emits rw.direction hcode) fun _ _ _ => trivial⟩
    exact (hall.and_only honly).imp fun seg result hpost =>
      ⟨fun hlt => absurd hlt hbar, fetchesSucceed_of_inlineOp hpost.2⟩

theorem correctFrom_corrected (code : ℕ) :
    (correctFrom dev code).Sat (tableAnswers owner table) Op.ReadOnly fun pre regSize =>
      (regSize = correctedSize (table dev) code ∧ FetchesSucceed pre) ∧
        (correctFrom dev code).Run (anyHandler driverInterface) () pre regSize () := by
  apply Sat.runs
  unfold correctFrom correctedSize
  split_ifs with hcode
  · refine ⟨trivial, fun v hv => ?_⟩
    obtain rfl : v = table dev := hv
    exact ⟨rfl, by simp [fetchFails]⟩
  · exact ⟨rfl, by simp⟩

theorem wrapInt_add (x y : ℤ) : wrapInt (wrapInt x + y) = wrapInt (x + y) := Int.bmod_add_bmod ..

theorem Ledger.append_skip {tr tr' : Trace} {ds : List Descriptor}
    (htr : ∀ e ∈ tr, copiedDescriptor e = none) (h : Ledger dev tr' ds) :
    Ledger dev (tr ++ tr') ds := by
  induction tr with
  | nil => exact h
  | cons e tr ih =>
    obtain ⟨he, htr⟩ := List.forall_mem_cons.mp htr
    exact .skip he (ih htr)

/-- What is known of the descriptors of a trace, of which at most `n` are asked for. -/
structure Handled (v : PciedevDev) (dev : Entry) (n : ℕ) (tr : Trace)
    (ds : List Descriptor) : Prop where
  transferred : BarsExist ds → ∀ d ∈ ds, Transferred v dev d
  length_le : ds.length ≤ n
  fetched_iff : FetchesSucceed tr ↔ ds.length = n

theorem vectorLoop_ledger (hsize : ValidSize (table dev).registerSize) (n : ℕ)
    (pUserRWdata : UInt64) (x : ℤ) :
    (vectorLoop dev n pUserRWdata (wrapInt x)).Sat (tableAnswers owner table) Op.ReadOnly
      fun tr retval =>
      ∃ ds, (∀ rest, Ledger dev rest [] → Ledger dev (tr ++ rest) ds) ∧
        retval = wrapInt (x + total ds) ∧
        Handled (table dev) dev n tr ds := by
  induction n generalizing pUserRWdata x with
  | zero =>
    exact ⟨[], fun _ hrest => hrest, by simp [total], by simp, le_rfl, by simp⟩
  | succ n ih =>
    simp only [vectorLoop, perform_eq, call_bind, ret_bind]
    refine ⟨trivial, fun copied _ => ?_⟩
    cases copied with
    | none =>
      refine ⟨[], fun _ hrest => .skip rfl hrest, by simp [total], by simp, Nat.zero_le _, ?_⟩
      simp [fetchFails]
    | some rw =>
      refine (sat_bind ..).mpr ((correctFrom_corrected _).imp fun pre regSize hpost => ?_)
      obtain ⟨⟨rfl, hfetched⟩, hpre⟩ := hpost
      refine (sat_bind ..).mpr ((transfer_transferred hsize rw).imp fun seg result hpost => ?_)
      obtain ⟨⟨hfirst, hseg⟩, hrun⟩ := hpost
      rw [wrapInt_add]
      apply (ih (pUserRWdata + 32) (x + result)).imp
      intro tr retval hpost
      obtain ⟨ds, hledger, hretval, hds⟩ := hpost
      refine ⟨⟨rw, seg, result⟩ :: ds, fun rest hrest => ?_, ?_, fun hbars => ?_, ?_, ?_⟩
      · simpa using Ledger.handled
          (e := ⟨.kernel (.copyFromUser .deviceIocRw pUserRWdata), some rw⟩)
          rfl hpre hrun (hledger rest hrest)
      · rw [hretval, total, total, List.map_cons, List.sum_cons, add_assoc]
      · obtain ⟨hbar, hbars⟩ := List.forall_mem_cons.mp hbars
        exact List.forall_mem_cons.mpr ⟨hfirst hbar, hds.transferred hbars⟩
      · exact Nat.succ_le_succ hds.length_le
      · simp [hfetched, hseg, hds.fetched_iff, fetchFails]

/-- What is known of a whole trace of the ioctl. -/
structure VectorHandled (v : PciedevDev) (dev : Entry) (tr : Trace) (retval : ℤ)
    (ds : List Descriptor) :
    Prop where
  ledger : Ledger dev tr ds
  transferred : BarsExist ds → ∀ d ∈ ds, Transferred v dev d
  result : (copiedVector tr = none ∧ retval < 0) ∨
    (copiedVector tr ≠ none ∧ retval = wrapInt (total ds))
  number : ∀ request ∈ copiedVector tr,
    request.numberOfRw.toNat = ds.length ↔ request.numberOfRw.toNat < 2 ^ 31 ∧ FetchesSucceed tr

/-- All descriptors of a number that is an `int` are asked for, and fewer of a larger number. -/
theorem announced_iff {n : UInt64} {k : ℕ} (hk : k ≤ (cInt n.toUInt32).toNat) :
    n.toNat = k ↔ n.toNat < 2 ^ 31 ∧ k = (cInt n.toUInt32).toNat := by
  have hword : n.toUInt32.toNat = n.toNat % 2 ^ 32 := rfl
  unfold cInt at hk ⊢
  rw [hword] at hk ⊢
  split_ifs at hk ⊢ <;> omega

/-- The case of the switch: the structure is copied, and its descriptors are gone through. -/
theorem ioctlVectorRw_ledger (hsize : ValidSize (table dev).registerSize) (arg : UInt64) :
    (ioctlVectorRw dev arg).Sat (tableAnswers owner table) Op.ReadOnly fun tr retval =>
      ∃ ds, VectorHandled (table dev) dev tr retval ds := by
  simp only [ioctlVectorRw, perform_eq, call_bind, ret_bind]
  refine ⟨trivial, fun copied _ => ?_⟩
  cases copied with
  | none => exact ⟨[], .skip rfl .nil, by simp, .inl ⟨rfl, by decide⟩, by simp [copiedVector]⟩
  | some vector =>
    simp only [withCritRegion, perform_eq, call_bind, ret_bind]
    refine ⟨trivial, fun entered hentered => ?_⟩
    obtain rfl : entered = (0 : ℤ) := hentered
    refine (sat_ite ..).mpr ⟨fun hbusy => absurd rfl hbusy, fun _ => (sat_bind ..).mpr ?_⟩
    apply (vectorLoop_ledger hsize _ vector.deviceIocRwPtr 0).imp
    intro tr retval hpost
    obtain ⟨ds, hledger, hretval, hds⟩ := hpost
    refine ⟨trivial, fun left _ => ⟨ds, ?_, hds.transferred, .inr ⟨?_, ?_⟩, ?_⟩⟩
    · exact .skip rfl (.skip rfl (hledger _ (.skip rfl .nil)))
    · exact fun hnone => absurd hnone (Option.some_ne_none vector)
    · rw [hretval, zero_add]
    · intro request hrequest
      obtain rfl : vector = request := Option.some.inj hrequest
      rw [announced_iff hds.length_le, ← hds.fetched_iff]
      simp [fetchFails]

theorem vectorIoctl_ledger (hsize : ValidSize (table dev).registerSize)
    (hlive : (table dev).devSts ≠ 0) {filp : File} (hfile : owner filp = dev) (arg : UInt64) :
    (pciedevIoctlExp filp IoctlCmd.vectorRw.code arg).Sat (tableAnswers owner table) Op.ReadOnly
      fun tr retval => ∃ ds, VectorHandled (table dev) dev tr retval ds := by
  subst hfile
  simp only [pciedevIoctlExp, perform_eq, call_bind, ret_bind]
  refine ⟨trivial, fun d hd => ⟨trivial, fun v hv => ?_⟩⟩
  obtain rfl : d = owner filp := hd
  obtain rfl : v = table (owner filp) := hv
  have hask : iocDir IoctlCmd.vectorRw.code ≠ 0 := by decide
  refine (sat_ite ..).mpr ⟨fun hdead => absurd hdead hlive, fun _ => ?_⟩
  simp only [IoctlCmd.decode_code, accessError, if_pos hask, perform_eq, call_bind, ret_bind,
    pure_eq]
  refine ⟨trivial, fun ok _ => (sat_ite ..).mpr ⟨fun _ => ?_, fun _ => ?_⟩⟩
  · exact ⟨[], .skip rfl (.skip rfl (.skip rfl .nil)), by simp, .inl ⟨rfl, by decide⟩,
      by simp [copiedVector]⟩
  · apply (ioctlVectorRw_ledger hsize arg).imp
    intro tr retval hpost
    obtain ⟨ds, hds⟩ := hpost
    refine ⟨ds, .skip rfl (.skip rfl (.skip rfl hds.ledger)), hds.transferred, hds.result, ?_⟩
    intro request hrequest
    have hnumber := hds.number request hrequest
    simpa [fetchFails] using hnumber

end

theorem wrapInt_neg_iff (x : ℤ) : wrapInt x < 0 ↔ 2 ^ 31 ≤ x % 2 ^ 32 := by
  unfold wrapInt
  rw [Int.bmod_def]
  split_ifs <;> omega

/-- Wrapping takes off a multiple of the word, and leaves a small number alone. -/
theorem wrapInt_eq_iff (m : ℕ) (x : ℤ) : wrapInt (m + x) = m ↔ m < 2 ^ 31 ∧ 2 ^ 32 ∣ x := by
  unfold wrapInt
  rw [Int.bmod_def]
  split_ifs <;> omega

section
variable {v : PciedevDev} {dev : Entry} {ds : List Descriptor}

theorem total_eq (hds : ∀ d ∈ ds, Transferred v dev d) :
    total ds = (ds.map (·.outcome v dev)).sum :=
  congrArg List.sum (List.map_congr_left fun d hd => (hds d hd).result_eq)

/-- A transfer without an error moves its bytes, or none with an unknown access mode. -/
theorem Transferred.moved_eq {d : Descriptor} (h : Transferred v dev d)
    (herror : 0 ≤ d.outcome v dev) :
    d.moved = d.bytes v dev ∧ d.outcome v dev = d.bytes v dev + d.stray v dev := by
  have hsound := h.sound (h.result_eq ▸ herror)
  rw [h.result_eq] at hsound
  unfold Descriptor.unknown at hsound
  unfold Descriptor.bytes Descriptor.stray
  rw [h.result_eq] at hsound
  split_ifs at hsound ⊢ <;> omega

theorem totals_eq (hds : ∀ d ∈ ds, Transferred v dev d) (herror : ∀ d ∈ ds, 0 ≤ d.outcome v dev) :
    totalMoved ds = (ds.map (·.bytes v dev)).sum ∧
      (ds.map (·.outcome v dev)).sum = totalMoved ds + (ds.map (·.stray v dev)).sum := by
  induction ds with
  | nil => exact ⟨rfl, rfl⟩
  | cons d ds ih =>
    obtain ⟨hfirst, hothers⟩ := List.forall_mem_cons.mp hds
    obtain ⟨hd, hrest⟩ := List.forall_mem_cons.mp herror
    obtain ⟨hbytes, hsum⟩ := ih hothers hrest
    obtain ⟨hmoved, hstray⟩ := hfirst.moved_eq hd
    simp only [totalMoved, List.map_cons, List.sum_cons, Nat.cast_add] at hbytes hsum ⊢
    rw [hsum, hstray, hmoved]
    exact ⟨by rw [hbytes], by ring⟩

theorem accounts_iff {tr : Trace} {retval : ℤ} (h : VectorHandled v dev tr retval ds)
    (hbars : BarsExist ds) :
    Accounts ((copiedVector tr).map fun v => v.numberOfRw.toNat) ds retval ↔
      Accountable (copiedVector tr) tr v dev ds := by
  have hds := h.transferred hbars
  have hsame (d : Descriptor) (hd : d ∈ ds) : 0 ≤ d.result ↔ 0 ≤ d.outcome v dev := by
    rw [(hds d hd).result_eq]
  rcases h.result with ⟨hnone, hneg⟩ | ⟨hsome, hretval⟩
  · refine iff_of_true ⟨fun hpos => absurd hneg (not_lt.mpr hpos), fun _ => hneg⟩ (.unread hnone)
  obtain ⟨request, hrequest⟩ := Option.ne_none_iff_exists'.mp hsome
  have hnumber := h.number request hrequest
  rw [total_eq hds] at hretval
  subst hretval
  constructor
  · intro haccounts
    by_cases hneg : wrapInt (ds.map (·.outcome v dev)).sum < 0
    · exact .negative ((wrapInt_neg_iff _).mp hneg)
    · obtain ⟨hall, herror, hcount⟩ := haccounts.counted (not_lt.mp hneg)
      rw [hrequest] at hall
      obtain ⟨hlt, hfetched⟩ := hnumber.mp (Option.some.inj hall)
      have herror' : ∀ d ∈ ds, 0 ≤ d.outcome v dev := fun d hd => (hsame d hd).mp (herror d hd)
      obtain ⟨hmoved, hsum⟩ := totals_eq hds herror'
      rw [hsum, wrapInt_eq_iff] at hcount
      exact .sound hrequest hlt hfetched herror' (hmoved ▸ by exact_mod_cast hcount.1) hcount.2
  · intro haccountable
    cases haccountable with
    | unread hnone => exact absurd hnone hsome
    | sound hvector hlt hfetched herror hfits hstray =>
      obtain rfl := Option.some.inj (hrequest.symm.trans hvector)
      obtain ⟨hmoved, hsum⟩ := totals_eq hds herror
      have herror' : ∀ d ∈ ds, 0 ≤ d.result := fun d hd => (hsame d hd).mpr (herror d hd)
      refine ⟨fun _ => ⟨?_, herror', ?_⟩, fun hex => ?_⟩
      · rw [hrequest]
        exact congrArg some (hnumber.mpr ⟨hlt, hfetched⟩)
      · rw [hsum]
        rw [← hmoved] at hfits
        exact (wrapInt_eq_iff _ _).mpr ⟨by exact_mod_cast hfits, hstray⟩
      · obtain ⟨d, hd, hlt⟩ := hex
        exact absurd hlt (not_lt.mpr (herror' d hd))
    | negative hlarge =>
      have hneg := (wrapInt_neg_iff _).mpr hlarge
      exact ⟨fun hpos => absurd hneg (not_lt.mpr hpos), fun _ => hneg⟩

end

/-- A vector request on a probed board has one ledger, and it is accounted for exactly if its
structure cannot be copied, or all its descriptors are copied and come to bytes that fit, or they
come to a negative sum. -/
theorem vector_accounts_iff {ε : Type} {E : Environment ε} {w w' : World ε} {d : Entry}
    {filp : File} {arg : UInt64} (hw : FromProbe E d w) (hfile : w.privateData filp = d)
    {tr : Trace} {retval : ℤ}
    (hrun : (pciedevIoctlExp filp IoctlCmd.vectorRw.code arg).Run (driver E) w tr retval w') :
    (∃ ds, Ledger d tr ds) ∧ ∀ ds, Ledger d tr ds → BarsExist ds →
      (Accounts ((copiedVector tr).map fun v => v.numberOfRw.toNat) ds retval ↔
        Accountable (copiedVector tr) tr (w.pciedevDevM d) d ds) := by
  have hlive := hw.live
  obtain ⟨ds, hds⟩ := steady_run
    (vectorIoctl_ledger hlive.registerSize hlive.devSts hfile arg)
    (fun _ => Op.ReadOnly.steady) hrun
  refine ⟨⟨ds, hds.ledger⟩, fun ds' hledger' hbars => ?_⟩
  obtain rfl := hds.ledger.unique hledger'
  exact accounts_iff hds hbars

/-- One descriptor is announced and copied as given. -/
def vectorRequest (descriptor : Option DeviceIocRw) : Outcome :=
  { request := fun
      | .deviceVectorRw => some { numberOfRw := 1, deviceIocRwPtr := 0x2000 }
      | .deviceIocRw => descriptor
      | _ => none }

def readRegister : DeviceIocRw :=
  { registerSize := 2, rwAccessMode := mtcaSimpleRead, barxRw := 0, offsetRw := 0, countRw := 1
    dataPtr := 0x1000, maskPtr := 0 }

set_option maxRecDepth 8000 in
theorem vector_fetch_failure_hidden :
    ∃ (tr : Trace) (w w' : World Unit), FromProbe openEnvironment 0 w ∧
    (pciedevIoctlExp 0 IoctlCmd.vectorRw.code 0x3000).Run (driver openEnvironment) w tr 0 w' ∧
    Ledger 0 tr [] ∧ ¬ Accounts ((copiedVector tr).map fun v => v.numberOfRw.toNat) [] 0 := by
  obtain ⟨_, tr, w, w', hprobe, hrun, hnone, hvector⟩ : ∃ (tr₀ tr : Trace) (w w' : World Unit),
      (pciedevProbeExp 0 0 0).Run (driver openEnvironment) (.uniform {}) tr₀ ((0 : ℤ), 0) w ∧
      (pciedevIoctlExp 0 IoctlCmd.vectorRw.code 0x3000).Run (driver openEnvironment) w tr 0 w' ∧
      (∀ e ∈ tr, copiedDescriptor e = none) ∧
      copiedVector tr = some { numberOfRw := 1, deviceIocRwPtr := 0x2000 } :=
    ⟨_, _, _, _, run_of_answers (Outcome.answers {}) (fun _ _ _ _ _ => trivial) rfl,
      run_of_answers (vectorRequest none).answers (fun _ _ _ _ _ => trivial) rfl, by decide, rfl⟩
  refine ⟨tr, w, w', .probe hprobe, hrun, by simpa using Ledger.append_skip hnone .nil, fun h => ?_⟩
  have hall := (h.counted le_rfl).1
  rw [hvector] at hall
  exact absurd (Option.some.inj hall) (by decide)

set_option maxRecDepth 8000 in
theorem vector_accounts_iff_read : ∃ (tr : Trace) (w w' : World Unit) (retval : ℤ)
    (ds : List Descriptor), FromProbe openEnvironment 0 w ∧
    (pciedevIoctlExp 0 IoctlCmd.vectorRw.code 0x3000).Run (driver openEnvironment) w tr retval w' ∧
    Ledger 0 tr ds ∧ Accounts ((copiedVector tr).map fun v => v.numberOfRw.toNat) ds retval := by
  obtain ⟨_, tr, seg, w, w', u, retval, result, hprobe, hfile, hrun, hseg, htr, hquiet, hvector,
      houtcome, hfetched⟩ : ∃ (tr₀ tr seg : Trace) (w w' u : World Unit) (retval result : ℤ),
      (pciedevProbeExp 0 0 0).Run (driver openEnvironment) (.uniform {}) tr₀ ((0 : ℤ), 0) w ∧
      w.privateData 0 = 0 ∧
      (pciedevIoctlExp 0 IoctlCmd.vectorRw.code 0x3000).Run (driver openEnvironment) w
        tr retval w' ∧
      (transfer 0 2 readRegister).Run (driver openEnvironment) w seg result u ∧
      tr = tr.take 5 ++ ⟨.kernel (.copyFromUser .deviceIocRw 0x2000), some readRegister⟩ ::
        ([] ++ (seg ++ [⟨.leaveCritRegion 0, (0 : ℤ)⟩])) ∧
      (∀ e ∈ tr.take 5, copiedDescriptor e = none) ∧
      copiedVector tr = some { numberOfRw := 1, deviceIocRwPtr := 0x2000 } ∧
      (⟨readRegister, seg, result⟩ : Descriptor).outcome (w.pciedevDevM 0) 0 = 4 ∧
      FetchesSucceed tr :=
    ⟨_, _, _, _, _, _, _, _,
      run_of_answers (Outcome.answers {}) (fun _ _ _ _ _ => trivial) rfl, rfl,
      run_of_answers (vectorRequest (some readRegister)).answers (fun _ _ _ _ _ => trivial) rfl,
      run_of_answers (vectorRequest (some readRegister)).answers
        (fun _ _ _ _ _ => trivial) rfl, rfl,
      by decide, rfl, by decide, by decide⟩
  have hpre :
      (correctFrom 0 readRegister.registerSize.toNat).Run (anyHandler driverInterface) () [] 2 () :=
    ⟨rfl, rfl, rfl⟩
  have hleave : Ledger 0 [⟨.leaveCritRegion 0, (0 : ℤ)⟩] [] := .skip rfl .nil
  have hhandled :=
    Ledger.handled (e := ⟨.kernel (.copyFromUser .deviceIocRw 0x2000), some readRegister⟩)
    rfl hpre hseg.forget hleave
  have hledger := Ledger.append_skip hquiet hhandled
  rw [← htr] at hledger
  have hboard : FromProbe openEnvironment 0 w := .probe hprobe
  have hknown : ¬ mtcaSwapBits < readRegister.rwAccessMode := by decide
  refine ⟨tr, w, w', _, _, hboard, hrun, hledger, ?_⟩
  refine ((vector_accounts_iff hboard hfile hrun).2 _ hledger
    (by simp [BarsExist, readRegister])).mpr ?_
  apply Accountable.sound hvector (by decide) hfetched
  · simp [houtcome]
  · simp [Descriptor.bytes, houtcome, hknown]
  · simp [Descriptor.stray, hknown]

end Upciedev
