import Upciedev.Foundations.Consecutive
import Upciedev.Access.ByteOrder
import Upciedev.Access.Window

/-!
# What a transfer moves

The registers and user words that a run of an inline function moves, in order and with
their values, and whether the scratch check reported an error on the way.
-/
namespace Upciedev

open Foundations Program

/-- A register read or written, or one element copied to or from the caller. A copy that
left bytes uncopied is `lost`. -/
inductive Move where
  | fetched (w : Width) (a : IoAddr) (r : UInt32)
  | stored (w : Width) (a : IoAddr) (v : UInt32)
  | delivered (dst : UInt64) (bytes v : UInt32)
  | taken (src : UInt64) (bytes v : UInt32)
  | lost
  deriving DecidableEq, Repr

def move : (op : Op) → op.Res → Option Move
  | .kernel (.ioread w a), r => some (.fetched w a r)
  | .kernel (.iowrite w a v), _ => some (.stored w a v)
  | .kernel (.copyToUser (.data bytes) dst v), uncopied =>
      some (if uncopied then .lost else .delivered dst bytes v)
  | .kernel (.copyFromUser (.data bytes) src), some v => some (.taken src bytes v)
  | .kernel (.copyFromUser (.data _) _), none => some .lost
  | _, _ => none

/-- The moves of a trace outside the scratch check. -/
def moves : Bool → Trace → List Move
  | _, [] => []
  | inScratch, e :: tr =>
    (if inScratch then [] else (move e.op e.res).toList) ++ moves (inScratchAfter inScratch e.op) tr

@[simp] theorem moves_append (b : Bool) (tr tr' : Trace) :
    moves b (tr ++ tr') = moves b tr ++ moves (scratchAfter b tr) tr' := by
  induction tr generalizing b with
  | nil => rfl
  | cons e tr ih => simp [moves, ih]

/-- A run of the scratch check that reports an error is part of the trace. -/
def ScratchError (dev : Entry) (tr : Trace) : Prop :=
  ∃ pre seg post result, tr = pre ++ (seg ++ post) ∧
    (pciedevCheckScratch dev).Run (anyHandler driverInterface) () seg result () ∧ result ≠ 0

section
variable {dev : Entry} {tr tr' : Trace} {result : ℤ}

theorem scratchAfter_accessOps (h : ∀ e ∈ tr, AccessOp dev e.op) (b : Bool) :
    scratchAfter b tr = b := by
  induction tr with
  | nil => rfl
  | cons e tr ih =>
    obtain ⟨he, htr⟩ := List.forall_mem_cons.mp h
    rw [scratchAfter_cons, (accessOp_readOnly he).2]
    exact ih htr

theorem moves_accessOps (h : ∀ e ∈ tr, AccessOp dev e.op) : moves true tr = [] := by
  induction tr with
  | nil => rfl
  | cons e tr ih =>
    obtain ⟨he, htr⟩ := List.forall_mem_cons.mp h
    simpa [moves, (accessOp_readOnly he).2] using ih htr

theorem checkScratch_trace
    (h : (pciedevCheckScratch dev).Run (anyHandler driverInterface) () tr result ()) :
    ∃ body : Trace, tr = ⟨.note .checkScratch, ()⟩ :: (body ++ [⟨.note .scratchChecked, ()⟩]) ∧
      ∀ e ∈ body, AccessOp dev e.op := by
  simp only [pciedevCheckScratch, perform_eq, call_bind, ret_bind] at h
  obtain ⟨_, _, rest, -, rfl, h⟩ := h
  rw [run_bind] at h
  obtain ⟨body, _, _, last, hbody, rfl, h⟩ := h
  obtain ⟨_, _, _, -, rfl, rfl, -, -⟩ := h
  exact ⟨body, rfl, (readScratch_only dev).run hbody⟩

/-- A part of a scratch check that starts with it and does not reach its end is still in it. -/
theorem scratchAfter_started {seg : Trace} {e : Event driverInterface}
    (h : (pciedevCheckScratch dev).Run (anyHandler driverInterface) () seg result ())
    (heq : seg = tr ++ e :: tr') (htr : tr ≠ []) (b : Bool) : scratchAfter b tr = true := by
  obtain ⟨body, rfl, hbody⟩ := checkScratch_trace h
  cases tr with
  | nil => exact absurd rfl htr
  | cons first tr =>
    obtain ⟨rfl, htail⟩ := List.cons_eq_cons.mp heq
    have hrest : body ++ [⟨.note .scratchChecked, ()⟩] = tr ++ e :: tr' := htail
    have hlength := congrArg List.length hrest
    simp only [List.length_append, List.length_cons, List.length_nil] at hlength
    have hall : tr <+: body ++ [⟨.note .scratchChecked, ()⟩] := ⟨e :: tr', hrest.symm⟩
    have hbefore : tr <+: body :=
      List.prefix_of_prefix_length_le hall (List.prefix_append _ _) (by omega)
    have hinside : ∀ e ∈ tr, AccessOp dev e.op := fun x hx => hbody x (hbefore.mem hx)
    exact scratchAfter_accessOps hinside true

theorem scratchError_append (hcut : scratchAfter false tr = false) :
    ScratchError dev (tr ++ tr') ↔ ScratchError dev tr ∨ ScratchError dev tr' := by
  constructor
  · rintro ⟨pre, seg, post, result, heq, hrun, hne⟩
    rcases List.append_eq_append_iff.mp heq with ⟨as, rfl, rfl⟩ | ⟨bs, rfl, hrest⟩
    · exact .inr ⟨as, seg, post, result, rfl, hrun, hne⟩
    rcases List.append_eq_append_iff.mp hrest with ⟨cs, rfl, -⟩ | ⟨ds, hseg, htr'⟩
    · exact .inl ⟨pre, seg, cs, result, rfl, hrun, hne⟩
    cases ds with
    | nil =>
      rw [List.append_nil] at hseg
      exact .inl ⟨pre, seg, [], result, by rw [hseg, List.append_nil], hrun, hne⟩
    | cons e ds =>
      cases bs with
      | nil => exact .inr ⟨[], seg, post, result, by rw [htr', hseg]; simp, hrun, hne⟩
      | cons b bs =>
        rw [scratchAfter_append, scratchAfter_started hrun hseg (by simp)] at hcut
        cases hcut
  · rintro (⟨pre, seg, post, result, rfl, h⟩ | ⟨pre, seg, post, result, rfl, h⟩)
    · exact ⟨pre, seg, post ++ tr', result, by simp, h⟩
    · exact ⟨tr ++ pre, seg, post, result, by simp, h⟩

theorem scratchError_starts (h : ScratchError dev tr) : ∃ e ∈ tr, e.op = .note .checkScratch := by
  obtain ⟨pre, seg, post, result, rfl, hrun, -⟩ := h
  obtain ⟨body, rfl, -⟩ := checkScratch_trace hrun
  exact ⟨⟨.note .checkScratch, ()⟩, by simp, rfl⟩

def Op.startsCheck : Op → Bool
  | .note .checkScratch => true
  | _ => false

theorem not_scratchError (h : ∀ e ∈ tr, ¬ e.op.startsCheck) :
    ¬ ScratchError dev tr := fun herror => by
  obtain ⟨e, he, hop⟩ := scratchError_starts herror
  exact h e he (by rw [hop]; rfl)

@[simp] theorem scratchError_nil : ¬ ScratchError dev [] := fun h => by
  simpa using scratchError_starts h

theorem scratchError_single {e : Event driverInterface} (he : e.op ≠ .note .checkScratch) :
    ¬ ScratchError dev [e] := fun h => by
  obtain ⟨_, hmem, hop⟩ := scratchError_starts h
  obtain rfl := List.mem_singleton.mp hmem
  exact he hop

/-- A run of the scratch check contains the error it reports and no other. -/
theorem scratchError_check
    (h : (pciedevCheckScratch dev).Run (anyHandler driverInterface) () tr result ()) :
    ScratchError dev tr ↔ result ≠ 0 := by
  constructor
  · rintro ⟨pre, seg, post, result', heq, hrun, hne⟩
    cases pre with
    | nil =>
      obtain ⟨-, rfl⟩ := Run.prefix_unique h hrun ((List.append_nil tr).trans heq)
      exact hne
    | cons first pre =>
      obtain ⟨body, rfl, hbody⟩ := checkScratch_trace h
      obtain ⟨body', rfl, -⟩ := checkScratch_trace hrun
      obtain ⟨-, htail⟩ := List.cons_eq_cons.mp heq
      have hmem : (⟨.note .checkScratch, ()⟩ : Event driverInterface) ∈
          body ++ [⟨.note .scratchChecked, ()⟩] := by rw [htail]; simp
      rcases List.mem_append.mp hmem with hmem | hmem
      · exact (hbody _ hmem).elim
      · simp at hmem
  · exact fun hne => ⟨[], tr, [], result, by simp, h, hne⟩

end

/-- Where a round of a loop stands: two places in user memory and a register. -/
structure Cursor where
  user : UInt64
  mask : UInt64
  addr : IoAddr

def Cursor.next (unRegisterSize : UInt32) (p : Cursor) : Cursor :=
  ⟨p.user + unRegisterSize.toUInt64, p.mask + unRegisterSize.toUInt64,
    p.addr.add unRegisterSize.toNat⟩

/-- One register is read and, unless the buffer is null, its client view is copied out. -/
def ReadRound (c : InlineCall) (v : PciedevDev) (u : UInt32) (p : Cursor) (l : List Move) : Prop :=
  ∃ r, l = .fetched (.ofRegSize c.registerSize) p.addr r ::
    if c.userData = 0 then []
    else [.delivered p.user u ((Width.ofRegSize c.registerSize).low (clientView v.swap u r))]

/-- What an access of a write loop does to the register. -/
inductive RegisterMoves (accessMode : UInt16) (w : Width) (a : IoAddr) (value : UInt32) :
    List Move → Prop
  | write (h : accessMode = mtcaSimpleWrite) :
      RegisterMoves accessMode w a value [.stored w a value]
  | update (h : accessMode = mtcaSetBits ∨ accessMode = mtcaSwapBits) (r v : UInt32) :
      RegisterMoves accessMode w a value [.fetched w a r, .stored w a v]
  | read (hwrite : accessMode ≠ mtcaSimpleWrite) (hset : accessMode ≠ mtcaSetBits)
      (hswap : accessMode ≠ mtcaSwapBits) (r : UInt32) :
      RegisterMoves accessMode w a value [.fetched w a r]

def copyMoves (src : UInt64) (bytes : UInt32) : Option UInt32 → List Move
  | none => []
  | some d => [.taken src bytes d]

/-- Data and mask are copied in unless their pointers are null, and one register is accessed. -/
def WriteRound (c : InlineCall) (v : PciedevDev) (u : UInt32) (p : Cursor) (l : List Move) : Prop :=
  ∃ (data mask : Option UInt32) (value : UInt32) (regs : List Move),
    (data = none ↔ c.userData = 0) ∧ (mask = none ↔ c.userMask = 0) ∧
    (∀ d ∈ data, value = (Width.ofRegSize c.registerSize).low (clientView v.swap u d)) ∧
    RegisterMoves c.rwAccessMode (.ofRegSize c.registerSize) p.addr value regs ∧
    l = copyMoves p.user u data ++ (copyMoves p.mask u mask ++ regs)

def Direction.Round : Direction → InlineCall → PciedevDev → UInt32 → Cursor → List Move → Prop
  | read => ReadRound
  | write => WriteRound

/-- What a round that is not completed may have moved. -/
def Move.Begun : Move → Prop
  | .fetched _ _ _ | .taken _ _ _ => True
  | _ => False

/-- The caller gave a pointer that the loop copies through. -/
def Direction.Copies : Direction → InlineCall → Prop
  | read, c => c.userData ≠ 0
  | write, c => c.userData ≠ 0 ∨ c.userMask ≠ 0

/-- How a loop of at most `n` rounds ends: after all of them, or in a round whose copy, where it
makes copies, or whose scratch check fails. -/
inductive TransferEnd (copies : Prop) (Round : Cursor → List Move → Prop) (u : UInt32) (p : Cursor)
    (n : ℕ) (scratch : Prop) (retval : ℤ) : List Move → ℤ → Prop
  | complete {l : List Move} (hs : ¬ scratch) (hl : Consecutive (Cursor.next u) Round p n l) :
      TransferEnd copies Round u p n scratch retval l (retval + n * u.toNat)
  | lost {k : ℕ} {l begun : List Move} (hcopies : copies) (hs : ¬ scratch) (hk : k < n)
      (hl : Consecutive (Cursor.next u) Round p k l) (hbegun : ∀ m ∈ begun, m.Begun) :
      TransferEnd copies Round u p n scratch retval (l ++ (begun ++ [.lost])) (retval + k * u.toNat)
  | error {k : ℕ} {l begun : List Move} (hs : scratch) (hk : k < n)
      (hl : Consecutive (Cursor.next u) Round p k l) (hbegun : ∀ m ∈ begun, m.Begun) :
      TransferEnd copies Round u p n scratch retval (l ++ begun) eNoMem

section
variable {copies : Prop} {Round : Cursor → List Move → Prop} {u : UInt32} {p : Cursor} {n : ℕ}
  {scratch : Prop} {retval a : ℤ} {begun : List Move}

theorem TransferEnd.done : TransferEnd copies Round u p 0 False retval [] retval := by
  have hend : TransferEnd copies Round u p 0 False retval [] (retval + (0 : ℕ) * u.toNat) :=
    .complete not_false (.nil p)
  simpa using hend

theorem TransferEnd.lost_first (hcopies : copies) (hs : ¬ scratch) (hbegun : ∀ m ∈ begun, m.Begun) :
    TransferEnd copies Round u p (n + 1) scratch retval (begun ++ [.lost]) retval := by
  have hend : TransferEnd copies Round u p (n + 1) scratch retval ([] ++ (begun ++ [.lost]))
      (retval + (0 : ℕ) * u.toNat) := .lost hcopies hs (Nat.succ_pos n) (.nil p) hbegun
  simpa using hend

theorem TransferEnd.error_first (hs : scratch) (hbegun : ∀ m ∈ begun, m.Begun) :
    TransferEnd copies Round u p (n + 1) scratch retval begun eNoMem :=
  .error hs (Nat.succ_pos n) (.nil p) hbegun

end

theorem TransferEnd.cons {copies : Prop} {Round : Cursor → List Move → Prop} {u : UInt32}
    {p : Cursor} {n : ℕ} {scratch : Prop} {retval a : ℤ} {round l : List Move}
    (hround : Round p round)
    (h : TransferEnd copies Round u (p.next u) n scratch (retval + u.toNat) l a) :
    TransferEnd copies Round u p (n + 1) scratch retval (round ++ l) a := by
  cases h with
  | complete hs hl =>
    have hsum : retval + u.toNat + n * u.toNat = retval + (n + 1 : ℕ) * u.toNat := by
      push_cast
      ring
    rw [hsum]
    exact .complete hs (.cons hround hl)
  | @lost k _ _ hcopies hs hk hl hbegun =>
    have hsum : retval + u.toNat + k * u.toNat = retval + (k + 1 : ℕ) * u.toNat := by
      push_cast
      ring
    rw [hsum, ← List.append_assoc]
    exact .lost hcopies hs (by omega) (.cons hround hl) hbegun
  | error hs hk hl hbegun =>
    rw [← List.append_assoc]
    exact .error hs (Nat.add_lt_add_right hk 1) (.cons hround hl) hbegun

/-- The program moves what `R` says of the moves, of whether the scratch check reported an
error, and of the result. -/
def Moved {α : Type} (owner : File → Entry) (table : Entry → PciedevDev) (dev : Entry)
    (p : Kernel α) (R : List Move → Prop → α → Prop) : Prop :=
  p.Sat (tableAnswers owner table) Op.ReadOnly fun tr a =>
    scratchAfter false tr = false ∧ R (moves false tr) (ScratchError dev tr) a

section
variable {α β : Type} {owner : File → Entry} {table : Entry → PciedevDev} {dev : Entry}
  {R R' : List Move → Prop → α → Prop}

theorem Moved.imp {p : Kernel α} (h : Moved owner table dev p R)
    (hR : ∀ l s a, R l s a → R' l s a) :
    Moved owner table dev p R' := Sat.imp h fun _ _ hQ => ⟨hQ.1, hR _ _ _ hQ.2⟩

@[simp] theorem moved_ret (a : α) : Moved owner table dev (ret a) R ↔ R [] False a := by
  have hnone : ScratchError dev [] = False := eq_false scratchError_nil
  simp [Moved, moves, hnone]

theorem Moved.bind {p : Kernel α} {f : α → Kernel β} {S : List Move → Prop → β → Prop}
    (hp : Moved owner table dev p R)
    (hf : ∀ l s a, R l s a → Moved owner table dev (f a) fun l' s' b => S (l ++ l') (s ∨ s') b) :
    Moved owner table dev (p >>= f) S := by
  rw [Moved, sat_bind]
  refine Sat.imp hp fun tr a ⟨hcut, hR⟩ => Sat.imp (hf _ _ a hR) fun tr' b hQ => ?_
  rw [scratchAfter_append, moves_append, hcut, propext (scratchError_append hcut)]
  exact hQ

theorem Moved.call {op : Op} {k : op.Res → Kernel α} (hro : op.ReadOnly)
    (hop : ∀ b, inScratchAfter b op = b)
    (hk : ∀ r, tableAnswers owner table op r →
      Moved owner table dev (k r) fun l s a => R ((move op r).toList ++ l) s a) :
    Moved owner table dev (Program.call (I := driverInterface) op k) R := by
  have hnote : op ≠ .note .checkScratch := by
    rintro rfl
    cases hop false
  refine ⟨hro, fun r hr => Sat.imp (hk r hr) fun tr a hQ => ?_⟩
  have hcut : scratchAfter false [(⟨op, r⟩ : Event driverInterface)] = false := by simp [hop]
  have herror : ScratchError dev (⟨op, r⟩ :: tr) = ScratchError dev tr := by
    rw [← List.singleton_append, propext (scratchError_append hcut)]
    exact propext (or_iff_right (scratchError_single hnote))
  simpa [moves, hop, herror] using hQ

theorem moved_ite {c : Prop} [Decidable c] {p q : Kernel α} (hp : c → Moved owner table dev p R)
    (hq : ¬ c → Moved owner table dev q R) : Moved owner table dev (if c then p else q) R :=
  (sat_ite ..).mpr ⟨hp, hq⟩

theorem pciedevCheckScratch_moved :
    Moved owner table dev (pciedevCheckScratch dev) fun l s result =>
    l = [] ∧ (s ↔ result ≠ 0) := by
  apply (pciedevCheckScratch_emits dev).runs.imp
  intro tr result hpost
  obtain ⟨⟨hcut, _⟩, hrun⟩ := hpost
  refine ⟨hcut, ?_, scratchError_check hrun⟩
  obtain ⟨body, rfl, hbody⟩ := checkScratch_trace hrun
  simp [moves, inScratchAfter, move, moves_accessOps hbody, scratchAfter_accessOps hbody]

theorem Width.ofBytes_eq {c : InlineCall} {u : UInt32} (hu : WidthAgrees c u) :
    Width.ofBytes u = .ofRegSize c.registerSize := by
  have hword : u = UInt32.ofNat (Width.ofRegSize c.registerSize).bytes := by
    rw [← hu, UInt32.ofNat_toNat]
  rw [hword]
  cases Width.ofRegSize c.registerSize <;> rfl

theorem scrachTestOf_eq {c : InlineCall} {u : UInt32} (hu : WidthAgrees c u) :
    scrachTestOf u = (Width.ofRegSize c.registerSize).low 0xffffffff := by
  have hword : u = UInt32.ofNat (Width.ofRegSize c.registerSize).bytes := by
    rw [← hu, UInt32.ofNat_toNat]
  rw [hword]
  cases Width.ofRegSize c.registerSize <;> rfl

theorem registerOp_steady {op : Op} (h : RegisterOp dev op) : op.Steady := by
  cases op <;> trivial

/-- With an access mode of the read side, the register is read into one of the two words. -/
theorem readWritePrivate_eq {accessMode : UInt16} (hmode : accessMode < mtcaSimpleWrite)
    (regSize : UInt16) (a : IoAddr) (value mask extra : UInt32) :
    readWritePrivate regSize accessMode a value mask extra =
      call (I := driverInterface) (.note (.readWritePrivate regSize accessMode a)) fun _ =>
        call (I := driverInterface) (.kernel (.ioread (.ofRegSize regSize) a)) fun r =>
          ret (if accessMode = mtReadToExtraBuffer then
            (value, (Width.ofRegSize regSize).setLow extra r)
            else ((Width.ofRegSize regSize).setLow value r, extra)) := by
  have hne (m : UInt16) (hm : mtcaSimpleWrite ≤ m) : accessMode ≠ m := fun heq => by
    subst heq
    exact absurd hmode (UInt16.not_lt.mpr hm)
  simp only [readWritePrivate, accessRegister, hne mtcaSimpleWrite (by decide),
    hne mtcaSetBits (by decide), hne mtcaSwapBits (by decide), if_false, perform_eq,
      call_bind, ret_bind]
  split_ifs <;> rfl

/-- Whichever of the two words it is, the loop takes the one that was read. -/
theorem readWord_eq (accessMode : UInt16) (word read : UInt32) :
    (if accessMode = mtReadToExtraBuffer then
      (if accessMode = mtReadToExtraBuffer then (word, read) else (read, word)).2
    else (if accessMode = mtReadToExtraBuffer then (word, read) else (read, word)).1) = read := by
  split_ifs <;> rfl

theorem readWritePrivate_fetches {accessMode : UInt16} (hmode : accessMode < mtcaSimpleWrite)
    (regSize : UInt16) (a : IoAddr) (tmp : UInt32) :
    Moved owner table dev (readWritePrivate regSize accessMode a tmp tmp tmp) fun l s words =>
      ¬ s ∧ ∃ r, l = [.fetched (.ofRegSize regSize) a r] ∧
        (if accessMode = mtReadToExtraBuffer then words.2 else words.1) =
          (Width.ofRegSize regSize).setLow tmp r := by
  rw [readWritePrivate_eq hmode]
  refine .call trivial (fun _ => rfl) fun _ _ => .call trivial (fun _ => rfl) fun r _ => ?_
  refine (moved_ret _).mpr ⟨not_false, r, rfl, ?_⟩
  split_ifs <;> rfl

theorem readWritePrivate_stores (regSize accessMode : UInt16) (a : IoAddr)
    (value mask extra : UInt32) :
    Moved owner table dev (readWritePrivate regSize accessMode a value mask extra) fun l s _ =>
      ¬ s ∧ RegisterMoves accessMode (.ofRegSize regSize) a
        ((Width.ofRegSize regSize).low value) l := by
  refine .call trivial (fun _ => rfl) fun _ _ => ?_
  refine moved_ite (fun hwrite => ?_) fun hwrite => moved_ite (fun hset => ?_) fun hset =>
    moved_ite (fun hswap => ?_) fun hswap => moved_ite (fun hextra => ?_) fun hextra => ?_
  · exact .call trivial (fun _ => rfl) fun _ _ => (moved_ret _).mpr ⟨not_false, .write hwrite⟩
  · exact .call trivial (fun _ => rfl) fun r _ => .call trivial (fun _ => rfl) fun _ _ =>
      (moved_ret _).mpr ⟨not_false, .update (.inl hset) r _⟩
  · exact .call trivial (fun _ => rfl) fun r _ => .call trivial (fun _ => rfl) fun _ _ =>
      (moved_ret _).mpr ⟨not_false, .update (.inr hswap) r _⟩
  · exact .call trivial (fun _ => rfl) fun r _ =>
      (moved_ret _).mpr ⟨not_false, .read hwrite hset hswap r⟩
  · exact .call trivial (fun _ => rfl) fun r _ =>
      (moved_ret _).mpr ⟨not_false, .read hwrite hset hswap r⟩

theorem copyWord_moved {u : UInt32} (given src : UInt64) (word : UInt32) :
    Moved owner table dev (copyWord given u src word) fun l s copied =>
      ¬ s ∧ ((copied = none ∧ given ≠ 0 ∧ l = [.lost]) ∨ ∃ d value, copied = some value ∧
        l = copyMoves src u d ∧ (d = none ↔ given = 0) ∧
        ∀ x ∈ d, value = (Width.ofBytes u).setLow word x) := by
  refine moved_ite (fun hnull => ?_) fun hgiven => ?_
  · exact (moved_ret _).mpr ⟨not_false, .inr ⟨none, word, rfl, rfl, by simp [hnull], by simp⟩⟩
  · refine .call trivial (fun _ => rfl) fun r _ => (moved_ret _).mpr ⟨not_false, ?_⟩
    cases r with
    | none => exact .inl ⟨rfl, hgiven, rfl⟩
    | some x => exact .inr ⟨some x, _, rfl, rfl, by simp [hgiven], by simp⟩

theorem copyOut_moved {c : InlineCall} (u : UInt32) (dst : UInt64) (x : UInt32) :
    Moved owner table dev (if c.userData ≠ 0 then copyToUser (.data u) dst x else pure false)
      fun l s uncopied => ¬ s ∧ ((uncopied = true ∧ c.userData ≠ 0 ∧ l = [.lost]) ∨
        (uncopied = false ∧ l = if c.userData = 0 then [] else [.delivered dst u x])) := by
  refine moved_ite (fun hgiven => ?_) fun hnull => ?_
  · refine .call trivial (fun _ => rfl) fun uncopied _ => (moved_ret _).mpr ⟨not_false, ?_⟩
    cases uncopied with
    | true => exact .inl ⟨rfl, hgiven, rfl⟩
    | false => exact .inr ⟨rfl, by simp [hgiven, move]⟩
  · exact (moved_ret _).mpr ⟨not_false, .inr ⟨rfl, by simp [not_not.mp hnull]⟩⟩

theorem readLoop_moved {c : InlineCall} (hdev : c.dev = dev)
    (hmode : c.rwAccessMode < mtcaSimpleWrite) {u : UInt32} (hu : WidthAgrees c u) (n : ℕ)
    (p : Cursor) (tmpDataForRw : UInt32) (retval : ℤ) :
    Moved owner table dev (readLoop c u n p.user p.addr tmpDataForRw retval) fun l s a =>
      TransferEnd (Direction.read.Copies c) (ReadRound c (table dev) u) u p n s retval l a := by
  induction n generalizing p tmpDataForRw retval with
  | zero =>
    apply (moved_ret _).mpr
    exact .done
  | succ n ih =>
    unfold readLoop
    apply (readWritePrivate_fetches hmode _ _ _).bind
    intro l₁ s₁ words hpost
    obtain ⟨hs₁, r, hl₁, hword⟩ := hpost
    simp only [hword]
    have hcheck (x y : UInt32) :
        Moved owner table dev (if x = y then pciedevCheckScratch c.dev else pure 0) fun l s a =>
          l = [] ∧ (s ↔ a ≠ 0) :=
      moved_ite (fun _ => hdev ▸ pciedevCheckScratch_moved) fun _ =>
        (moved_ret _).mpr ⟨rfl, by simp⟩
    apply (hcheck _ _).bind
    intro l₂ s₂ failed hpost
    obtain ⟨hl₂, hs₂⟩ := hpost
    refine moved_ite (fun herror => ?_) fun hfine => ?_
    · have hfailed : s₁ ∨ s₂ ∨ False := .inr (.inl (hs₂.mpr herror))
      apply (moved_ret _).mpr
      exact .error_first hfailed (by simp [hl₁, hl₂, Move.Begun])
    · refine .call trivial (fun _ => rfl) fun v hv => ?_
      obtain rfl : v = table dev := hv.trans (congrArg table hdev)
      apply (copyOut_moved u p.user _).bind
      intro l₃ s₃ uncopied hpost
      obtain ⟨hs₃, hcopied⟩ := hpost
      refine moved_ite (fun hlost => ?_) fun hkept => ?_
      · obtain ⟨-, hgiven, hl₃⟩ := hcopied.resolve_right (by simp [hlost])
        have hnone : ¬ (s₁ ∨ s₂ ∨ s₃ ∨ False) := by simp [hs₁, hs₂, hs₃, not_not.mp hfine]
        have hl : l₁ ++ (l₂ ++ (l₃ ++ [])) = l₁ ++ [.lost] := by simp [hl₂, hl₃]
        apply (moved_ret _).mpr
        exact hl ▸ .lost_first hgiven hnone (by simp [hl₁, Move.Begun])
      · obtain ⟨-, hl₃⟩ := hcopied.resolve_left (by simp [hkept])
        have hround : ReadRound c (table dev) u p (l₁ ++ l₃) := by
          refine ⟨r, ?_⟩
          rw [hl₁, hl₃, Width.ofBytes_eq hu, ← clientView_setLow hu (table dev).swap tmpDataForRw r]
          rfl
        apply (ih (p.next u) _ _).imp
        intro l₄ s₄ a hend
        have hsame : s₁ ∨ s₂ ∨ s₃ ∨ s₄ ↔ s₄ := by simp [hs₁, hs₂, hs₃, not_not.mp hfine]
        have hmoves := TransferEnd.cons hround hend
        simpa [hl₂, move, propext hsame] using hmoves

theorem writeLoop_moved {c : InlineCall} (hdev : c.dev = dev) {u : UInt32} (hu : WidthAgrees c u)
    (n : ℕ) (p : Cursor) (tmpDataForRw tmpMaskForW : UInt32) (retval : ℤ) :
    Moved owner table dev (writeLoop c u n p.user p.mask p.addr tmpDataForRw tmpMaskForW retval)
      fun l s a =>
        TransferEnd (Direction.write.Copies c) (WriteRound c (table dev) u) u p n s retval l a := by
  induction n generalizing p tmpDataForRw tmpMaskForW retval with
  | zero =>
    apply (moved_ret _).mpr
    exact .done
  | succ n ih =>
    have hbegun (src : UInt64) (d : Option UInt32) : ∀ m ∈ copyMoves src u d, m.Begun := by
      cases d <;> simp [copyMoves, Move.Begun]
    unfold writeLoop
    apply (copyWord_moved c.userData p.user tmpDataForRw).bind
    intro l₁ s₁ copied hpost
    obtain ⟨hs₁, hcopied⟩ := hpost
    rcases hcopied with ⟨rfl, hgiven, rfl⟩ | ⟨data, value, rfl, rfl, hdata, hvalue⟩
    · exact (moved_ret _).mpr (.lost_first (.inl hgiven) (by simp [hs₁]) (List.forall_mem_nil _))
    apply (copyWord_moved c.userMask p.mask tmpMaskForW).bind
    intro l₂ s₂ copied hpost
    obtain ⟨hs₂, hcopied⟩ := hpost
    rcases hcopied with ⟨rfl, hgiven, rfl⟩ | ⟨mask, maskValue, rfl, rfl, hmask, -⟩
    · exact (moved_ret _).mpr (.lost_first (.inr hgiven) (by simp [hs₁, hs₂]) (hbegun p.user data))
    refine .call trivial (fun _ => rfl) fun v hv => ?_
    obtain rfl : v = table dev := hv.trans (congrArg table hdev)
    apply (readWritePrivate_stores _ _ _ _ _ _).bind
    intro l₃ s₃ words hpost
    obtain ⟨hs₃, hl₃⟩ := hpost
    have hround : WriteRound c (table dev) u p
        (copyMoves p.user u data ++ (copyMoves p.mask u mask ++ l₃)) := by
      refine ⟨data, mask, _, l₃, hdata, hmask, fun d hd => ?_, hl₃, rfl⟩
      rw [hvalue d hd, Width.ofBytes_eq hu]
      exact clientView_setLow hu (table dev).swap tmpDataForRw d
    apply (ih (p.next u) _ _ _).imp
    intro l₄ s₄ a hend
    have hsame : s₁ ∨ s₂ ∨ s₃ ∨ s₄ ↔ s₄ := by simp [hs₁, hs₂, hs₃]
    have hmoves := TransferEnd.cons hround hend
    simpa [move, propext hsame] using hmoves

end
end Upciedev
