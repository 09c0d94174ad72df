import Upciedev.Slots.Lookup

/-!
# The exported slot table

The header defines the slot table `static`, so every translation unit has its own. The
exported pointer is set to the one of `upciedev_drv.c`, and the boards keep the one of
`pciedev_ufn.c`.
-/
namespace Upciedev

open Foundations Program

variable {ε : Type} {E : Environment ε} {u : World ε} {s : Crate ε} {ready : Set ℕ}
  {boards : Set Board}

/-- The table that `p_base_upciedev_dev` points to. -/
def Crate.exported (s : Crate ε) : ℕ → UpciedevPhysAddress := s.baseUpciedevDev .upciedevDrv

/-- The table that `parent_base_dev` of an entry points to. -/
def Crate.parentBase (s : Crate ε) (k : ℕ) (d : Entry) : ℕ → UpciedevPhysAddress :=
  s.baseUpciedevDev ((s.client k).pciedevDevM d).parentBaseDev

/-- The exported table has the rows of the table of every entry. -/
def ExportedAgrees (s : Crate ε) (ready : Set ℕ) : Prop :=
  ∀ k ∈ ready, ∀ d slot, slot < numberOfSlots → s.exported slot = s.parentBase k d slot

theorem CrateRun.exported_zero {P R : Set Board → Board → Prop} (h : CrateRun P R s ready boards)
    (slot : ℕ) : s.exported slot = {} := by
  have hother : TranslationUnit.upciedevDrv ≠ .pciedevUfn := by decide
  have hzero : s.baseUpciedevDev .upciedevDrv = fun _ => {} := by
    refine (h.table_inv (M := fun table _ => table .upciedevDrv = fun _ => {}) rfl ?_ ?_).2
    · intro table boards b _ _ htable
      rw [Board.enterIn, Function.update_of_ne hother, htable]
    · intro table boards b _ _ htable
      rw [Board.clearIn, Function.update_of_ne hother, htable]
  exact congrFun hzero slot

/-- While no board is entered in it, the table of the boards keeps its zeros. -/
theorem CrateRun.parentBase_zero {R : Set Board → Board → Prop}
    (h : CrateRun (fun _ b => ¬ b.hw.Usable) R s ready boards) (k : ℕ) (d : Entry) (slot : ℕ) :
    s.parentBase k d slot = {} := by
  have hinv : s.baseUpciedevDev = (fun _ _ => {}) ∧ boards = ∅ := by
    refine (h.table_inv (M := fun table boards => table = (fun _ _ => {}) ∧ boards = ∅)
      ⟨rfl, rfl⟩ ?_ ?_).2
    · intro table boards b hrefused husable _
      exact absurd husable hrefused
    · rintro table boards b hb _ ⟨_, rfl⟩
      exact absurd hb (Set.notMem_empty b)
  rw [Crate.parentBase, hinv.1]

theorem CrateRun.probe_devStst {P R : Set Board → Board → Prop} (h : CrateRun P R s ready boards)
    {b : Board} (hk : b.client ∈ ready) (hE : b.hw.Answers E b.dev) {fuel : ℕ} {tr : Trace}
    (hrun : (pciedevProbeExp fuel b.dev b.tmpParentNum).Run (driver E) (s.view b.client) tr
      (0, b.entry.val) u) : ((s.put b.client u).parentBase b.client b.entry
      b.slot).devStst = 1 := by
  rcases hrun.of_wp (pciedevProbeExp_effect hE fuel _) with ⟨hr, _⟩ | ⟨b', hval, _, hend⟩
  · have herr : (0 : ℤ) = -1 := congrArg Prod.fst hr
    omega
  · obtain rfl : b.entry = b' := Fin.ext hval
    rcases hend with ⟨_, hentered⟩ | ⟨herr, _⟩
    · have hparent : (u.pciedevDevM b.entry).parentBaseDev = .pciedevUfn :=
        hentered.parentBaseDev.trans (h.paired.parentBaseDev b.client hk b.entry)
      have hrow : u.baseUpciedevDev .pciedevUfn b.slot = b.hw.enter b.slot
          ((s.view b.client).baseUpciedevDev .pciedevUfn b.slot) := by
        rw [hentered.baseUpciedevDev, ← hentered.parentBaseDev, hparent,
          World.updateRow_baseUpciedevDev, Function.update_self]
        exact Function.update_self ..
      rw [Crate.parentBase, Crate.put_same, hparent, Crate.put_baseUpciedevDev, hrow]
      exact (foldl_enterBar_fields b.hw.res (List.finRange numberOfBars) _).1
    · exact absurd rfl herr

/-- The exported table is that of the boards as long as every device is refused, and no longer when
a board has been bound. -/
theorem exported_table_agrees :
    (∀ (s : Crate ε) ready boards,
      CrateRun (fun _ b => ¬ b.hw.Usable) (fun _ _ => True) s ready boards →
      ExportedAgrees s ready) ∧
    ∀ (s : Crate ε) ready boards, CrateRun (fun _ _ => True) (fun _ _ => True) s ready boards →
      ∀ b : Board, b.client ∈ ready → (∀ b' ∈ boards, b'.dev ≠ b.dev) → b.slot < numberOfSlots →
      ∀ (E : Environment ε), b.hw.Answers E b.dev → ∀ fuel tr u,
      (pciedevProbeExp fuel b.dev b.tmpParentNum).Run (driver E) (s.view b.client) tr
        (0, b.entry.val) u → ¬ ExportedAgrees (s.put b.client u) ready := by
  constructor
  · intro s ready boards h k _ d slot _
    rw [h.exported_zero, h.parentBase_zero]
  · intro s ready boards h b hk hdev hslot E hE fuel tr u hrun hagrees
    have hnext := CrateRun.probe h hk hdev hE hrun trivial
    have hentered := h.probe_devStst hk hE hrun
    rw [← hagrees b.client hk b.entry b.slot hslot, hnext.exported_zero] at hentered
    exact absurd hentered (by decide)

set_option maxRecDepth 8000 in
/-- A client driver is set up, and its only device cannot be enabled. -/
theorem exported_table_agrees_refused : ∃ (s : Crate Unit) (tr : Trace) (u : World Unit),
    CrateRun (fun _ b => ¬ b.hw.Usable) (fun _ _ => True) s {0} ∅ ∧
    (pciedevProbeExp 0 0 2).Run (driver (Outcome.environment { enable := -5 })) (s.view 0) tr
      (-5, 0) u ∧
    CrateRun (fun _ b => ¬ b.hw.Usable) (fun _ _ => True) (s.put 0 u) {0} ∅ ∧
    ExportedAgrees (s.put 0 u) {0} := by
  obtain ⟨_, w₀, _, w₁, tr, u, hload, hset, hprobe⟩ : ∃ (tr₀ : Trace) (w₀ : World Unit)
      (tr₁ : Trace) (w₁ : World Unit) (tr : Trace) (u : World Unit),
      pciedevInitModule.Run (driver (Outcome.environment {})) (.uniform {}) tr₀ 0 w₀ ∧
      upciedevInitModuleExp.Run (driver (Outcome.environment {}))
        (Crate.view ⟨w₀.baseUpciedevDev, fun _ => .uniform {}⟩ 0) tr₁ 0 w₁ ∧
      (pciedevProbeExp 0 0 2).Run (driver (Outcome.environment { enable := -5 })) w₁ tr
        (-5, 0) u :=
    ⟨_, _, _, _, _, _, run_of_answers (Outcome.answers {}) (fun _ _ _ _ h => h) rfl,
      run_of_answers (Outcome.answers {}) (fun _ _ _ _ h => h) rfl,
      run_of_answers (Outcome.answers { enable := -5 }) (fun _ _ _ _ h => h) rfl⟩
  have hview : (Crate.single w₁).view 0 = w₁ := Crate.view_put _ _ _
  have hready := single_setUp (P := fun _ b => ¬ b.hw.Usable) (R := fun _ _ => True) hload hset
  have hunusable : ¬ deadDevice.Usable :=
    fun h => absurd h.1 (by decide)
  have hrun := CrateRun.probe (b := ⟨0, 0, 0, deadDevice, 2⟩) hready rfl
    (by simp) (Outcome.oneBar_answers { enable := -5 } 0) (hview ▸ hprobe) hunusable
  exact ⟨_, tr, u, hready, hview ▸ hprobe, hrun, exported_table_agrees.1 _ _ _ hrun⟩

set_option maxRecDepth 8000 in
/-- One board is bound in slot 13. -/
theorem exported_table_stays_empty : ∃ (s : Crate Unit) (boards : Set Board),
    CrateRun (fun _ _ => True) (fun _ _ => True) s {0} boards ∧ ¬ ExportedAgrees s {0} := by
  obtain ⟨_, w₀, _, w₁, _, w₂, hload, hset, hprobe⟩ :
      ∃ (tr₀ : Trace) (w₀ : World Unit) (tr₁ : Trace)
      (w₁ : World Unit) (tr₂ : Trace) (w₂ : World Unit),
      pciedevInitModule.Run (driver (Outcome.environment {})) (.uniform {}) tr₀ 0 w₀ ∧
      upciedevInitModuleExp.Run (driver (Outcome.environment {}))
        (Crate.view ⟨w₀.baseUpciedevDev, fun _ => .uniform {}⟩ 0) tr₁ 0 w₁ ∧
      (pciedevProbeExp 0 0 2).Run (driver (Outcome.environment {})) w₁ tr₂ ((0 : ℤ), 0) w₂ :=
    ⟨_, _, _, _, _, _, run_of_answers (Outcome.answers {}) (fun _ _ _ _ h => h) rfl,
      run_of_answers (Outcome.answers {}) (fun _ _ _ _ h => h) rfl,
      run_of_answers (Outcome.answers {}) (fun _ _ _ _ h => h) rfl⟩
  have hready := single_setUp (P := fun _ _ => True) (R := fun _ _ => True) hload hset
  have hbound := single_probe 0 0 hready (by simp) hprobe trivial
  refine ⟨_, _, hbound, fun hagrees => ?_⟩
  have hview : (Crate.single w₁).view (ntbBoard 0 0).client = w₁ := Crate.view_put _ _ _
  have hentered :=
    hready.probe_devStst (b := ntbBoard 0 0) rfl (oneBarHardware_answers 0) (hview ▸ hprobe)
  have hput : (Crate.single w₁).put (ntbBoard 0 0).client w₂ = .single w₂ := by
    simp [Crate.single, Crate.put, ntbBoard]
  have hsame :=
    hagrees (ntbBoard 0 0).client rfl (ntbBoard 0 0).entry (ntbBoard 0 0).slot (by decide)
  rw [hput, ← hsame, hbound.exported_zero] at hentered
  exact absurd hentered (by decide)

end Upciedev
