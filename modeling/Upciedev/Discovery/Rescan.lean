import Upciedev.Discovery.Findings

/-!
# Searching a board for projects again

A search for projects starts from the pointer of the board header, and each project it finds clears
that pointer. A board with a project thus loses its pointer in the first search, and the second one
looks elsewhere.
-/
namespace Upciedev

open Foundations Program

variable {ε : Type} {E : Environment ε} {base : IoPtr} {regs : ℤ → UInt32} {dev : Entry}
  {w : World ε}

/-- A search counts the listed projects and leaves the board record alone, for the proc file too. -/
structure ProjectsKept (v u : PciedevDev) (n : ℤ) : Prop where
  brdInfo : u.brdInfoList = v.brdInfoList
  shown parent : (pciedevProcShow parent u).boardNextPrj = v.brdInfoList.pciedevProjNext
  count : n = u.prjInfoList.length
  startup : u.startupPrjNum = u.prjInfoList.length

/-- With enough rounds a search for projects returns, and so does another one after it, with the
same count and the same records. -/
def RescanIdempotent (E : Environment ε) (dev : Entry) (w : World ε) : Prop :=
  ∃ fuel, (pciedevGetPrjinfo fuel dev).twp (driver E) w fun _ n u =>
    ProjectsKept (w.pciedevDevM dev) (u.pciedevDevM dev) n ∧
      ∃ fuel', (pciedevGetPrjinfo fuel' dev).twp (driver E) u fun _ n' u' =>
        ProjectsKept (w.pciedevDevM dev) (u'.pciedevDevM dev) n' ∧ n' = n ∧
          (u'.pciedevDevM dev).prjInfoList.Perm (u.pciedevDevM dev).prjInfoList

theorem pciedevGetPrjinfo_none (hE : Registers E base regs)
    (hbase : (w.pciedevDevM dev).memmoryBase 0 = base)
    (hne : (w.pciedevDevM dev).brdInfoList.pciedevProjNext ≠ 0)
    (hother : ¬ IsProject regs (cInt (w.pciedevDevM dev).brdInfoList.pciedevProjNext)) :
    (pciedevGetPrjinfo 1 dev).twp (driver E) w fun _ n u =>
      n = 0 ∧ u.pciedevDevM dev = { w.pciedevDevM dev with startupPrjNum := 0 } := by
  simp only [pciedevGetPrjinfo, perform_eq, call_bind, ret_bind, twp_store, twp_load, twp_bind,
    World.updateDev_self]
  have hbase' :
      ((w.updateDev dev fun v => { v with startupPrjNum := 0 }).pciedevDevM dev).memmoryBase 0 =
      base := by rw [World.updateDev_self, ← hbase]
  apply twp_mono
    (discover_twp (fillPrjInfo_fills dev hE) hne (.nil (.inr hother)) Nat.one_pos hbase')
  rintro _ _ u ⟨e, hu⟩
  have hentry : u.pciedevDevM dev = { w.pciedevDevM dev with startupPrjNum := 0 } := by
    rw [hu, World.withEnv_pciedevDevM, World.updateDev_self, World.updateDev_self]
    rfl
  simp only [pure_eq, twp_ret, hentry, and_self]

def PointerCleared (dev : Entry) (w : World ε) : Prop :=
  (w.pciedevDevM dev).brdInfoList.pciedevProjNext = 0

theorem readPrjInfo_keeps (baradress : IoAddr) :
    (readPrjInfo baradress).wp (driver E) w fun _ _ u => ∃ e, u = w.withEnv e := by
  simp only [readPrjInfo, perform_eq, call_bind, ret_bind, wp_kernel]
  intro _ _ _ _ _ _ _ _ _ _ _ _ _ e _
  exact ⟨e, rfl⟩

theorem fillPrjInfo_cleared (a : IoAddr) (hw : PointerCleared dev w) :
    (pciedevFillPrjInfo dev a).wp (driver E) w fun _ _ u => PointerCleared dev u := by
  simp only [pciedevFillPrjInfo, perform_eq, call_bind, ret_bind, wp_kernel, wp_ite]
  intro word e _
  refine ⟨fun _ => ?_, fun _ => hw⟩
  rw [wp_store, wp_kernel]
  intro allocated e' _
  rw [wp_ite]
  refine ⟨fun _ => (wp_bind ..).mpr ?_, fun _ => (wp_fault _).mpr trivial⟩
  apply wp_mono (readPrjInfo_keeps a)
  rintro _ prj _ ⟨e'', rfl⟩
  simp only [wp_store, pure_eq, wp_ret, PointerCleared, World.updateDev_self]
  rfl

/-- The first project that a search finds clears the pointer, and nothing restores it. -/
theorem pciedevGetPrjinfo_clears (hE : Registers E base regs)
    (hbase : (w.pciedevDevM dev).memmoryBase 0 = base)
    (hne : (w.pciedevDevM dev).brdInfoList.pciedevProjNext ≠ 0)
    (hproject : IsProject regs (cInt (w.pciedevDevM dev).brdInfoList.pciedevProjNext)) (fuel : ℕ) :
    (pciedevGetPrjinfo fuel dev).wp (driver E) w fun _ _ u => PointerCleared dev u := by
  have hne' : cInt (w.pciedevDevM dev).brdInfoList.pciedevProjNext ≠ 0 := cInt_eq_zero.not.mpr hne
  simp only [pciedevGetPrjinfo, discover, perform_eq, call_bind, ret_bind, wp_store, wp_load,
    wp_bind, World.updateDev_self, if_neg hne', hbase]
  cases fuel with
  | zero =>
    rw [followChain, if_neg hne']
    exact (wp_fault _).mpr trivial
  | succ fuel =>
    rw [followChain, if_neg hne', wp_bind]
    have hround :=
      (fillPrjInfo_fills dev hE).header (0 + cInt (w.pciedevDevM dev).brdInfoList.pciedevProjNext)
      (by simpa using hproject) (w.updateDev dev fun v => { v with startupPrjNum := 0 })
    apply wp_mono hround.wp
    rintro _ r _ ⟨-, e, rfl⟩
    have hcleared :
        PointerCleared dev (((w.updateDev dev fun v => { v with startupPrjNum := 0 }).updateDev dev
        (addProject regs (0 + cInt (w.pciedevDevM dev).brdInfoList.pciedevProjNext))).withEnv
          e) := by
      simp only [PointerCleared, World.withEnv_pciedevDevM, World.updateDev_self]
      rfl
    apply wp_mono (followChain_inv (fun a _ => fillPrjInfo_cleared a) ⟨base, 0⟩ fuel r hcleared)
    exact fun _ _ _ hu => hu

theorem not_rescanIdempotent (hE : Registers E base regs)
    (hbase : (w.pciedevDevM dev).memmoryBase 0 = base)
    (hne : (w.pciedevDevM dev).brdInfoList.pciedevProjNext ≠ 0)
    (hproject : IsProject regs (cInt (w.pciedevDevM dev).brdInfoList.pciedevProjNext)) :
    ¬ RescanIdempotent E dev w := by
  rintro ⟨fuel, hscan⟩
  have hclears := pciedevGetPrjinfo_clears hE hbase hne hproject fuel
  obtain ⟨_, _, u, -, ⟨hkept, -⟩, hcleared⟩ := (hscan.and_wp hclears).exists_run
  apply hne
  rw [← hkept.brdInfo]
  exact hcleared

theorem ProjectsKept.of_none {v u : PciedevDev} (hempty : v.prjInfoList = [])
    (hu : u = { v with startupPrjNum := 0 }) :
    ProjectsKept v u 0 := by
  subst hu
  constructor <;> simp [hempty, pciedevProcShow]

theorem rescanIdempotent_of_none (hE : Registers E base regs)
    (hbase : (w.pciedevDevM dev).memmoryBase 0 = base)
    (hne : (w.pciedevDevM dev).brdInfoList.pciedevProjNext ≠ 0)
    (hother : ¬ IsProject regs (cInt (w.pciedevDevM dev).brdInfoList.pciedevProjNext))
    (hempty : (w.pciedevDevM dev).prjInfoList = []) : RescanIdempotent E dev w := by
  refine ⟨1, twp_mono (pciedevGetPrjinfo_none hE hbase hne hother) ?_⟩
  rintro _ _ u ⟨rfl, hu⟩
  refine ⟨.of_none hempty hu, 1, ?_⟩
  have hagain : (pciedevGetPrjinfo 1 dev).twp (driver E) u fun _ n u' =>
      n = 0 ∧ u'.pciedevDevM dev = { u.pciedevDevM dev with startupPrjNum := 0 } := by
    apply pciedevGetPrjinfo_none hE (by rw [hu, ← hbase]) <;> rwa [hu]
  apply twp_mono hagain
  rintro _ _ u' ⟨rfl, hu'⟩
  rw [hu] at hu'
  refine ⟨.of_none hempty hu', rfl, ?_⟩
  rw [hu, hu']

/-- On a DESY board with a pointer, the search for projects can be repeated exactly if there is no
project at the pointer. -/
theorem rescan_idempotent_iff (hE : Registers E base regs) (hmapped : base ≠ none)
    (hbase : (w.pciedevDevM dev).memmoryBase 0 = base)
    (hdesy : regs 0 = asciiBoardMagicNum ∨ regs 0 = asciiBoardMagicNumL) (hne : regs 0x18 ≠ 0)
    (hempty : (w.pciedevDevM dev).prjInfoList = []) {tr : Trace} {r : ℤ} {u : World ε}
    (hrun : (pciedevGetBrdinfo dev).Run (driver E) w tr r u) :
    RescanIdempotent E dev u ↔ ¬ IsProject regs (cInt (regs 0x18)) := by
  have hkind : boardKind base (regs 0) = .desy := (if_neg hmapped).trans (if_pos hdesy)
  obtain ⟨-, e, hu⟩ := hrun.of_wp (pciedevGetBrdinfo_wp (fun _ => hE.reads) hbase)
  have hentry : u.pciedevDevM dev = (w.pciedevDevM dev).withHeader regs .desy := by
    rw [hu, hkind, World.withEnv_pciedevDevM, World.updateDev_self]
  have hpointer : (u.pciedevDevM dev).brdInfoList.pciedevProjNext = regs 0x18 := by
    rw [hentry]
    rfl
  have hbase' : (u.pciedevDevM dev).memmoryBase 0 = base := by
    rw [hentry, ← hbase]
    rfl
  have hempty' : (u.pciedevDevM dev).prjInfoList = [] := by
    rw [hentry, ← hempty]
    rfl
  rw [← hpointer] at hne ⊢
  constructor
  · intro hscan hproject
    exact not_rescanIdempotent hE hbase' hne hproject hscan
  · intro hother
    exact rescanIdempotent_of_none hE hbase' hne hother hempty'

/-- A DESY board with one project at 0x100, or with a pointer only. -/
def desyBoard (magic : UInt32) : Outcome :=
  { register := fun off =>
      if off = 0 then asciiBoardMagicNum else if off = 0x18 then 0x100 else if off = 0x100 then
        magic else 0 }

theorem desyBoard_registers (magic : UInt32) :
    Registers (desyBoard magic).environment (some 1) (desyBoard magic).register where
  answers c e := by cases c <;> exact ⟨_, _, rfl⟩
  reads off e r e' h := (Prod.mk.inj (Option.some.inj h)).1.symm
  kzalloc o e r e' h := (Prod.mk.inj (Option.some.inj h)).1.symm

theorem rescan_idempotent_iff_pointerOnly : ∃ (w u : World Unit) (tr : Trace) (r : ℤ),
    (pciedevGetBrdinfo 0).Run (driver (desyBoard 0).environment) w tr r u ∧
      RescanIdempotent (desyBoard 0).environment 0 u := by
  obtain ⟨u, tr, r, hrun⟩ : ∃ (u : World Unit) (tr : Trace) (r : ℤ), (pciedevGetBrdinfo 0).Run
      (driver (desyBoard 0).environment) (.uniform { memmoryBase := fun _ => some 1 }) tr r u :=
    ⟨_, _, _, run_of_answers (desyBoard 0).answers (fun _ _ _ _ h => h) rfl⟩
  refine ⟨_, u, tr, r, hrun, ?_⟩
  exact (rescan_idempotent_iff (desyBoard_registers 0) (by decide) rfl (.inl rfl)
    (by decide) rfl hrun).mpr
    (by unfold IsProject; decide)

/-- The project at 0x100 is the only one; the second search does not start there. -/
theorem project_forgotten : ∃ (w u u' : World Unit) (tr tr' : Trace) (r : ℤ),
    (pciedevGetBrdinfo 0).Run (driver (desyBoard asciiProjMagicNum).environment) w tr r u ∧
      (pciedevGetPrjinfo 2 0).Run (driver (desyBoard asciiProjMagicNum).environment) u tr' 1 u' ∧
      (u.pciedevDevM 0).brdInfoList.pciedevProjNext = 0x100 ∧
      (u'.pciedevDevM 0).brdInfoList.pciedevProjNext = 0 ∧
      ¬ RescanIdempotent (desyBoard asciiProjMagicNum).environment 0 u := by
  obtain ⟨u, u', tr, tr', r, hrun, hscan, hbase, hpointer, hcleared⟩ :
      ∃ (u u' : World Unit) (tr tr' : Trace) (r : ℤ),
        (pciedevGetBrdinfo 0).Run (driver (desyBoard asciiProjMagicNum).environment)
          (.uniform { memmoryBase := fun _ => some 1 }) tr r u ∧
        (pciedevGetPrjinfo 2 0).Run (driver (desyBoard asciiProjMagicNum).environment) u tr' 1 u' ∧
        (u.pciedevDevM 0).memmoryBase 0 = some 1 ∧
        (u.pciedevDevM 0).brdInfoList.pciedevProjNext = 0x100 ∧
        (u'.pciedevDevM 0).brdInfoList.pciedevProjNext = 0 :=
    ⟨_, _, _, _, _, run_of_answers (desyBoard asciiProjMagicNum).answers (fun _ _ _ _ h => h) rfl,
      run_of_answers (desyBoard asciiProjMagicNum).answers (fun _ _ _ _ h => h) rfl, rfl, rfl, rfl⟩
  refine ⟨_, u, u', tr, tr', r, hrun, hscan, hpointer, hcleared, ?_⟩
  apply not_rescanIdempotent (desyBoard_registers asciiProjMagicNum) hbase
  · rw [hpointer]
    decide
  · rw [hpointer]
    rfl

end Upciedev
