import Upciedev.Boards.BoardTable

/-!
# A set-up that fails

The set-up of a client driver acquires five kinds of resources. Only the first failure finds nothing
to give back; every later one leaves something behind, and a failure before the table of entries is
not noticed at all.
-/
namespace Upciedev

open Foundations Program

variable {ε : Type} {E : Environment ε} {w : World ε}

inductive SetupResource where
  | pciedevCdev
  | chrdevRegion
  | pciedevClass
  | pciedevDev (d : Entry)
  | cdev (d : Entry)
  deriving DecidableEq, Repr

def acquiredBy : (op : Op) → op.Res → Option SetupResource
  | .kernel (.kzalloc .pciedevCdev), allocated => if allocated = true then
    some .pciedevCdev else none
  | .kernel .allocChrdevRegion, (result, _) => if result = (0 : ℤ) then some .chrdevRegion else none
  | .kernel .classCreate, created => if created = true then some .pciedevClass else none
  | .kernel (.kzalloc (.pciedevDev d)), allocated =>
      if allocated = true then some (.pciedevDev d) else none
  | .kernel (.cdevAdd d), result => if result = (0 : ℤ) then some (.cdev d) else none
  | _, _ => none

def releasedBy : Op → Option SetupResource
  | .kernel (.kfree .pciedevCdev) => some .pciedevCdev
  | .kernel .unregisterChrdevRegion => some .chrdevRegion
  | .kernel .classDestroy => some .pciedevClass
  | .kernel (.kfree (.pciedevDev d)) => some (.pciedevDev d)
  | .kernel (.cdevDel d) => some (.cdev d)
  | _ => none

def stepFailed : (op : Op) → op.Res → Bool
  | .kernel (.kzalloc _), allocated => allocated = false
  | .kernel .allocChrdevRegion, (result, _) => result ≠ (0 : ℤ)
  | .kernel .classCreate, created => created = false
  | .kernel (.cdevAdd _), result => result ≠ (0 : ℤ)
  | _, _ => false

def acquired (tr : Trace) : List SetupResource := tr.filterMap fun e => acquiredBy e.op e.res

def released (tr : Trace) : List SetupResource := tr.filterMap fun e => releasedBy e.op

/-- `*pciedev_cdev_pp` was set, and the structure freed without clearing the pointer later. -/
def Dangles (tr : Trace) : Prop :=
  (⟨.note (.pciedevCdevPp true), ()⟩ : Event driverInterface) ∈ tr ∧ .pciedevCdev ∈ released tr ∧
    (⟨.note (.pciedevCdevPp false), ()⟩ : Event driverInterface) ∉ tr

/-- Nothing is left behind: what was acquired is released once, no character device stays registered
in a freed entry, and the pointer of the client driver does not dangle. -/
structure GivenBack (tr : Trace) : Prop where
  once x : x ∈ acquired tr → (released tr).count x = 1
  registered d : .cdev d ∈ acquired tr → .cdev d ∉ released tr → .pciedevDev d ∉ released tr
  pointer : ¬ Dangles tr

/-- The set-up succeeds only if each of its steps did, and otherwise leaves nothing behind. -/
structure SetUpCleanly (tr : Trace) (result : ℤ) : Prop where
  success : result = 0 → ∀ e ∈ tr, stepFailed e.op e.res = false
  failure : result ≠ 0 → GivenBack tr

@[simp] theorem acquired_nil : acquired [] = [] := rfl

@[simp] theorem released_nil : released [] = [] := rfl

@[simp] theorem acquired_cons (e : Event driverInterface) (tr : Trace) :
    acquired (e :: tr) = (acquiredBy e.op e.res).toList ++ acquired tr := by
  cases h : acquiredBy e.op e.res <;> simp [acquired, h]

@[simp] theorem released_cons (e : Event driverInterface) (tr : Trace) :
    released (e :: tr) = (releasedBy e.op).toList ++ released tr := by
  cases h : releasedBy e.op <;> simp [released, h]

@[simp] theorem acquired_append (tr tr' : Trace) :
    acquired (tr ++ tr') = acquired tr ++ acquired tr' :=
  List.filterMap_append

@[simp] theorem released_append (tr tr' : Trace) :
    released (tr ++ tr') = released tr ++ released tr' :=
  List.filterMap_append

/-- What the loop leaves: all steps succeeded, or one failed, after which the structure is freed or
not. -/
inductive EntriesEnd (tr : Trace) : ℤ → Prop
  | added (h : ∀ e ∈ tr, stepFailed e.op e.res = false) (hkept : released tr = []) : EntriesEnd tr 0
  | notAllocated (hfailed : ∃ e ∈ tr, stepFailed e.op e.res = true)
      (hfreed : .pciedevCdev ∈ released tr) :
      EntriesEnd tr eNoMem
  | notAdded (hfailed : ∃ e ∈ tr, stepFailed e.op e.res = true)
      (hkept : .pciedevCdev ∉ released tr) :
      EntriesEnd tr 1

/-- The loop neither clears the pointer of the client driver nor allocates the structure. -/
def EntryCall (op : Op) : Prop :=
  op ≠ .note (.pciedevCdevPp false) ∧ op ≠ .kernel (.kzalloc .pciedevCdev)

theorem freeEntries_only (ds : List Entry) : (freeEntries ds).Only EntryCall := by
  induction ds with
  | nil => trivial
  | cons d ds ih => simp [freeEntries, EntryCall, ih]

theorem initEntries_only (cdevP : PciedevCdev) (added rest : List Entry) :
    (initEntries cdevP added rest).Only EntryCall := by
  induction rest generalizing added with
  | nil => trivial
  | cons i rest ih =>
    simp only [initEntries, perform_eq, call_bind, ret_bind, only_call]
    refine ⟨by simp [EntryCall], fun allocated => ?_⟩
    cases allocated with
    | false =>
      exact (freeEntries_only added).bind fun _ => by simp [EntryCall]
    | true =>
      simp only [if_true, only_call, only_ite]
      refine ⟨by simp [EntryCall], fun _ =>
        ⟨by simp [EntryCall], fun result => ⟨fun _ => trivial, fun _ => ?_⟩⟩⟩
      exact ⟨by simp [EntryCall], fun _ => ih (added ++ [i])⟩

theorem initEntries_ends (cdevP : PciedevCdev) (added rest : List Entry) :
    (initEntries cdevP added rest).wp (driver E) w fun tr result _ => EntriesEnd tr result := by
  induction rest generalizing added w with
  | nil => exact .added (by simp) rfl
  | cons i rest ih =>
    simp only [initEntries, perform_eq, call_bind, ret_bind, wp_kernel]
    intro allocated e _
    cases allocated with
    | false =>
      apply (wp_bind ..).mpr
      apply wp_of_forall
      intro tr _ _
      simp only [wp_kernel, pure_eq, wp_ret]
      intro _ _ _
      exact .notAllocated ⟨_, List.mem_cons_self, rfl⟩ (by simp [releasedBy])
    | true =>
      simp only [if_true, wp_store, wp_kernel, wp_ite]
      intro result e' _
      refine ⟨fun hfailed =>
        .notAdded ⟨⟨.kernel (.cdevAdd i), result⟩, by simp, decide_eq_true hfailed⟩
          (by simp [releasedBy]),
        fun hadded => ?_⟩
      have hresult : result = 0 := not_not.mp hadded
      apply wp_mono (ih (added ++ [i]))
      intro tr _ _ hend
      cases hend with
      | added h hkept =>
        exact .added (by simpa [stepFailed, hresult] using h) (by simpa [releasedBy] using hkept)
      | notAllocated hfailed hfreed =>
        obtain ⟨e, he, hfailed⟩ := hfailed
        exact .notAllocated ⟨e, by simp [he], hfailed⟩ (by simpa [releasedBy] using hfreed)
      | notAdded hfailed hkept =>
        obtain ⟨e, he, hfailed⟩ := hfailed
        exact .notAdded ⟨e, by simp [he], hfailed⟩ (by simpa [releasedBy] using hkept)

theorem EntriesEnd.cleanly_iff {tr : Trace} {result : ℤ} (pre : Trace) (hend : EntriesEnd tr result)
    (honly : ∀ e ∈ tr, EntryCall e.op) (hacquired : .pciedevCdev ∈ acquired pre)
    (hkept : released pre = [])
    (hset : (⟨.note (.pciedevCdevPp true), ()⟩ : Event driverInterface) ∈ pre)
    (hpre : (⟨.note (.pciedevCdevPp false), ()⟩ : Event driverInterface) ∉ pre)
    (hallocated : (⟨.kernel (.kzalloc .pciedevCdev), false⟩ : Event driverInterface) ∉ pre) :
    SetUpCleanly (pre ++ tr) result ↔
      (⟨.kernel (.kzalloc .pciedevCdev), false⟩ : Event driverInterface) ∈ pre ++ tr ∨
        ∀ e ∈ pre ++ tr, stepFailed e.op e.res = false := by
  have hfirst : (⟨.kernel (.kzalloc .pciedevCdev), false⟩ : Event driverInterface) ∉ pre ++ tr := by
    intro hmem
    exact (List.mem_append.mp hmem).elim hallocated fun hmem => (honly _ hmem).2 rfl
  have hclear : (⟨.note (.pciedevCdevPp false), ()⟩ : Event driverInterface) ∉ pre ++ tr := by
    intro hmem
    exact (List.mem_append.mp hmem).elim hpre fun hmem => (honly _ hmem).1 rfl
  have hreleased : released (pre ++ tr) = released tr := by
    rw [released_append, hkept, List.nil_append]
  have hsteps : (∃ e ∈ tr, stepFailed e.op e.res = true) →
      ¬ ∀ e ∈ pre ++ tr, stepFailed e.op e.res = false := by
    rintro ⟨e, he, hfailed⟩ hall
    exact absurd (hall e (List.mem_append_right pre he)) (by simp [hfailed])
  rw [or_iff_right hfirst]
  cases hend with
  | added h hnone =>
      exact ⟨fun hclean => hclean.success rfl, fun hall => ⟨fun _ => hall, fun h => absurd rfl h⟩⟩
  | notAllocated hfailed hfreed =>
    apply iff_of_false _ (hsteps hfailed)
    intro hclean
    apply (hclean.failure (by decide)).pointer
    exact ⟨List.mem_append_left tr hset, hreleased ▸ hfreed, hclear⟩
  | notAdded hfailed hnot =>
    apply iff_of_false _ (hsteps hfailed)
    intro hclean
    have hcount :=
      (hclean.failure (by decide)).once .pciedevCdev (by simp [acquired_append, hacquired])
    rw [hreleased, List.count_eq_zero.mpr hnot] at hcount
    exact absurd hcount (by decide)

/-- The set-up is clean exactly when its first allocation fails or all its steps succeed. -/
theorem set_up_cleanly_iff {tr : Trace} {result : ℤ} {u : World ε}
    (hrun : upciedevInitModuleExp.Run (driver E) w tr result u) :
    SetUpCleanly tr result ↔
      (⟨.kernel (.kzalloc .pciedevCdev), false⟩ : Event driverInterface) ∈ tr ∨
        ∀ e ∈ tr, stepFailed e.op e.res = false := by
  suffices hends : upciedevInitModuleExp.wp (driver E) w fun tr result _ =>
      SetUpCleanly tr result ↔
        (⟨.kernel (.kzalloc .pciedevCdev), false⟩ : Event driverInterface) ∈ tr ∨
          ∀ e ∈ tr, stepFailed e.op e.res = false from hrun.of_wp hends
  simp only [upciedevInitModuleExp, perform_eq, call_bind, ret_bind, wp_kernel]
  intro allocated e _
  cases allocated with
  | false =>
    simp only [Bool.false_eq_true, if_false, pure_eq, wp_ret]
    refine iff_of_true ⟨fun h => absurd h (by decide), fun _ => ?_⟩
      (.inl (List.mem_singleton_self _))
    constructor <;> simp [acquiredBy, releasedBy, Dangles]
  | true =>
    simp only [if_true, wp_note, wp_kernel, wp_setCdev, wp_cdev]
    intro chrdev _ _ created _ _ version _ _
    apply wp_mono (wp_and_only (initEntries_ends _ _ _) (initEntries_only _ _ _))
    rintro tr result _ ⟨hend, honly⟩
    apply hend.cleanly_iff [_, _, _, _, _, _, _] honly <;> simp [acquiredBy, releasedBy]

def noMemoryFor (d : Entry) : Answers Unit
  | .kzalloc (.pciedevDev i), _ => some (decide (i ≠ d), ())
  | c, e => Outcome.answers {} c e

set_option maxRecDepth 8000 in
theorem set_up_cleanly_iff_allocated :
    ∃ (tr : Trace) (u : World Unit),
      upciedevInitModuleExp.Run (driver (Outcome.environment {})) (.uniform {}) tr 0 u ∧
        SetUpCleanly tr 0 := by
  obtain ⟨tr, u, hrun, hsteps⟩ : ∃ (tr : Trace) (u : World Unit),
      upciedevInitModuleExp.Run (driver (Outcome.environment {})) (.uniform {}) tr 0 u ∧
        ∀ e ∈ tr, stepFailed e.op e.res = false :=
    ⟨_, _, run_of_answers (Outcome.answers {}) (fun _ _ _ _ h => h) rfl, by decide⟩
  exact ⟨tr, u, hrun, (set_up_cleanly_iff hrun).mpr (.inr hsteps)⟩

set_option maxRecDepth 8000 in
/-- There is no memory for the second entry: the first one is freed with its character device
registered. -/
theorem second_entry_not_allocated :
    ∃ (tr : Trace) (u : World Unit),
      upciedevInitModuleExp.Run (driver openEnvironment) (.uniform {}) tr eNoMem u ∧
        ¬ SetUpCleanly tr eNoMem := by
  obtain ⟨tr, u, hrun, hadded, hkept, hfreed⟩ : ∃ (tr : Trace) (u : World Unit),
      upciedevInitModuleExp.Run (driver openEnvironment) (.uniform {}) tr eNoMem u ∧
        .cdev 0 ∈ acquired tr ∧ .cdev 0 ∉ released tr ∧ .pciedevDev 0 ∈ released tr :=
    ⟨_, _, run_of_answers (noMemoryFor 1) (fun _ _ _ _ _ => trivial) rfl, by decide, by
      decide, by decide⟩
  exact ⟨tr, u, hrun, fun hclean => (hclean.failure (by decide)).registered 0 hadded hkept hfreed⟩

theorem cleanupEntries_released (ds : List Entry) :
    (cleanupEntries ds).wp (driver E) w fun tr _ _ => released tr = ds.flatMap fun d =>
      [.cdev d, .pciedevDev d] := by
  induction ds generalizing w with
  | nil => rfl
  | cons d ds ih =>
    simp only [cleanupEntries, perform_eq, call_bind, ret_bind, wp_kernel]
    intro _ _ _ _ _ _
    apply wp_mono ih
    intro tr _ _ htr
    simp [releasedBy, htr]

theorem cleanup_releases {tr : Trace} {u : World ε}
    (hrun : (upciedevCleanupModuleExp (List.finRange (pciedevNrDevs + 1))).Run
      (driver E) w tr () u) :
    (∀ x, (released tr).count x = 1) ∧
      (⟨.note (.pciedevCdevPp false), ()⟩ : Event driverInterface) ∈ tr := by
  suffices hends :
      (upciedevCleanupModuleExp (List.finRange (pciedevNrDevs + 1))).wp (driver E) w fun tr _ _ =>
      (∀ x, (released tr).count x = 1) ∧
        (⟨.note (.pciedevCdevPp false), ()⟩ : Event driverInterface) ∈ tr
    from hrun.of_wp hends
  simp only [upciedevCleanupModuleExp, perform_eq, call_bind, ret_bind, wp_kernel]
  intro _ _ _ _ _ _
  apply (wp_bind ..).mpr
  apply wp_mono (cleanupEntries_released _)
  intro tr _ _ htr
  simp only [wp_kernel, wp_note]
  intro _ _ _
  refine ⟨fun x => ?_, by simp⟩
  simp only [releasedBy, released_cons, released_append, htr]
  cases x with
  | pciedevCdev | chrdevRegion | pciedevClass => decide
  | pciedevDev d | cdev d =>
    revert d
    decide

/-- The cleanup gives everything back of which nothing was given back before. -/
theorem cleanup_gives_back {tr tr' : Trace} {u u' : World ε} (hkept : released tr = [])
    (hcleanup : (upciedevCleanupModuleExp (List.finRange (pciedevNrDevs + 1))).Run (driver E)
      u tr' () u') :
    GivenBack (tr ++ tr') := by
  obtain ⟨hcount, hclear⟩ := cleanup_releases hcleanup
  have hreleased : released (tr ++ tr') = released tr' := by
    rw [released_append, hkept, List.nil_append]
  refine ⟨fun x _ => ?_, fun d _ hkept => ?_, fun hdangles => ?_⟩
  · rw [hreleased]
    exact hcount x
  · rw [hreleased] at hkept
    exact absurd (hcount (.cdev d)) (by simp [List.count_eq_zero.mpr hkept])
  · exact hdangles.2.2 (List.mem_append_right tr hclear)

end Upciedev
