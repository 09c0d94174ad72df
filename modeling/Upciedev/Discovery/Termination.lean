import Upciedev.Discovery.Findings

/-!
# When discovery ends

The header-driven walk ends when its chain does. The scan of the other BARs reads the header
at offset 0 again and again as long as it names another one, so it ends only where none does.
-/
namespace Upciedev

open Foundations Program

variable {ε : Type} {E : Environment ε} {w : World ε} {dev : Entry}

/-- A search that starts at offset `a` of BAR 0 ends: its chain does, or, without a first offset, no
header at the start of another BAR names a next one. -/
structure Headers.Ends (h : Headers) (a : ℤ) : Prop where
  chain : a ≠ 0 → ∃ l, Visits (h.isHeader 0) (h.next 0) a l
  scan : a = 0 → ∀ i ∈ scannedBars, h.mapped i → h.isHeader i 0 → h.next i 0 = 0

/-- One round of a search on a board always returns, with the offset that the header names. -/
def Headers.Walked (h : Headers) (E : Environment ε) (dev : Entry) (base : Bar → IoPtr)
    (fill : IoAddr → Kernel ℤ) : Prop :=
  ∀ (i : Bar) (off : ℤ) (w : World ε), h.mapped i → (w.pciedevDevM dev).memmoryBase = base →
    (fill ⟨base i, off⟩).twp (driver E) w fun _ r u =>
      (h.isHeader i off → r = cInt (h.next i off)) ∧
      (¬ h.isHeader i off → r = 0) ∧ (u.pciedevDevM dev).memmoryBase = base

section
variable {h : Headers} {base : Bar → IoPtr} {fill : IoAddr → Kernel ℤ}

theorem Headers.walked_of_fills {add : Bar → ℤ → PciedevDev → PciedevDev}
    (hfill : ∀ i, h.mapped i → Fills (h.isHeader i) (h.next i) E dev (base i) fill (add i))
    (hkeep : ∀ i off v, (add i off v).memmoryBase = v.memmoryBase) : h.Walked E dev base fill := by
  intro i off w hmapped hbase
  by_cases hheader : h.isHeader i off
  · apply twp_mono ((hfill i hmapped).header off hheader w)
    rintro _ r u ⟨hr, e, rfl⟩
    refine ⟨fun _ => hr, fun hother => absurd hheader hother, ?_⟩
    rw [World.withEnv_pciedevDevM, World.updateDev_self, hkeep, hbase]
  · apply twp_mono ((hfill i hmapped).other off hheader w)
    rintro _ r u ⟨hr, e, rfl⟩
    exact ⟨fun hyes => absurd hyes hheader, fun _ => hr, hbase⟩

section
variable (hwalk : h.Walked E dev base fill)
include hwalk

theorem followChain_returns (hmapped : h.mapped 0) {a : ℤ} {l : List ℤ}
    (hvisits : Visits (h.isHeader 0) (h.next 0) a l) {fuel : ℕ} (hfuel : l.length < fuel)
    (hbase : (w.pciedevDevM dev).memmoryBase = base) :
    (followChain fill ⟨base 0, 0⟩ fuel a).twp (driver E) w fun _ _ _ => True := by
  induction hvisits generalizing fuel w with
  | zero => cases fuel <;> exact trivial
  | @stop a hne hother =>
    obtain ⟨fuel, rfl⟩ := Nat.exists_eq_add_one.mpr (Nat.zero_lt_of_lt hfuel)
    have haddr : (⟨base 0, 0⟩ : IoAddr).add a = ⟨base 0, a⟩ := by simp [IoAddr.add]
    rw [followChain, if_neg hne, twp_bind, haddr]
    apply twp_mono (hwalk 0 a w hmapped hbase)
    rintro _ r u ⟨-, hr, -⟩
    rw [hr hother]
    cases fuel <;> exact trivial
  | @header a l hne hheader _ ih =>
    obtain ⟨fuel, rfl⟩ := Nat.exists_eq_add_one.mpr (Nat.zero_lt_of_lt hfuel)
    have haddr : (⟨base 0, 0⟩ : IoAddr).add a = ⟨base 0, a⟩ := by simp [IoAddr.add]
    rw [followChain, if_neg hne, twp_bind, haddr]
    apply twp_mono (hwalk 0 a w hmapped hbase)
    rintro _ r u ⟨hr, -, hu⟩
    rw [hr hheader]
    exact ih (Nat.lt_of_succ_lt_succ hfuel) hu

theorem refillStart_returns {i : Bar} (hmapped : h.mapped i)
    (hnext : h.isHeader i 0 → h.next i 0 = 0) {fuel : ℕ} (hfuel : 0 < fuel)
    (hbase : (w.pciedevDevM dev).memmoryBase = base) :
    (refillStart fill ⟨base i, 0⟩ fuel 1).twp (driver E) w fun _ _ u =>
      (u.pciedevDevM dev).memmoryBase = base := by
  obtain ⟨fuel, rfl⟩ := Nat.exists_eq_add_one.mpr hfuel
  rw [refillStart, if_neg one_ne_zero, twp_bind]
  apply twp_mono (hwalk i 0 w hmapped hbase)
  rintro _ r u ⟨hyes, hno, hu⟩
  have hr : r = 0 := by
    by_cases hheader : h.isHeader i 0
    · rw [hyes hheader, hnext hheader]
      rfl
    · exact hno hheader
  rw [hr]
  cases fuel <;> exact hu

theorem scanBars_returns (hmapped : ∀ i, h.mapped i ↔ base i ≠ none) {fuel : ℕ} (hfuel : 0 < fuel)
    (bars : List Bar) (hnext : ∀ i ∈ bars, h.mapped i → h.isHeader i 0 → h.next i 0 = 0)
    (hbase : (w.pciedevDevM dev).memmoryBase = base) :
    (scanBars fill dev fuel bars).twp (driver E) w fun _ _ _ => True := by
  induction bars generalizing w with
  | nil => exact trivial
  | cons i bars ih =>
    obtain ⟨hthis, hothers⟩ := List.forall_mem_cons.mp hnext
    simp only [scanBars, perform_eq, call_bind, ret_bind, twp_load, twp_ite, twp_bind, hbase]
    refine ⟨fun _ => ih hothers hbase, fun hsome => ?_⟩
    have hm := (hmapped i).mpr hsome
    exact twp_mono (refillStart_returns hwalk hm (hthis hm) hfuel hbase) fun _ _ _ hu =>
      ih hothers hu

theorem discover_returns (hmapped : ∀ i, h.mapped i ↔ base i ≠ none) {a : ℤ}
    (hzero : a ≠ 0 → h.mapped 0) (hends : h.Ends a) :
    ∃ fuel, ∀ w : World ε, (w.pciedevDevM dev).memmoryBase = base →
      (discover fill dev fuel a).twp (driver E) w fun _ _ _ => True := by
  by_cases ha : a = 0
  · refine ⟨1, fun w hbase => ?_⟩
    rw [discover, if_pos ha]
    exact scanBars_returns hwalk hmapped Nat.one_pos _ (hends.scan ha) hbase
  · obtain ⟨l, hvisits⟩ := hends.chain ha
    refine ⟨l.length + 1, fun w hbase => ?_⟩
    rw [discover, if_neg ha]
    simp only [perform_eq, call_bind, ret_bind, twp_load, hbase]
    exact followChain_returns hwalk (hzero ha) hvisits (Nat.lt_succ_self _) hbase

theorem followChain_ends (hmapped : h.mapped 0) (fuel : ℕ) (a : ℤ)
    (hbase : (w.pciedevDevM dev).memmoryBase = base) :
    (followChain fill ⟨base 0, 0⟩ fuel a).wp (driver E) w fun _ _ _ =>
      ∃ l, Visits (h.isHeader 0) (h.next 0) a l := by
  induction fuel generalizing a w with
  | zero =>
    rw [followChain, wp_ite]
    refine ⟨fun hzero => ?_, fun _ => (wp_fault _).mpr trivial⟩
    subst hzero
    exact ⟨[], .zero⟩
  | succ fuel ih =>
    have haddr : (⟨base 0, 0⟩ : IoAddr).add a = ⟨base 0, a⟩ := by simp [IoAddr.add]
    rw [followChain, wp_ite, haddr]
    refine ⟨fun hzero => ?_, fun hne => (wp_bind ..).mpr ?_⟩
    · subst hzero
      exact ⟨[], .zero⟩
    · apply wp_mono (hwalk 0 a w hmapped hbase).wp
      rintro _ r u ⟨hyes, hno, hu⟩
      by_cases hheader : h.isHeader 0 a
      · rw [hyes hheader]
        apply wp_mono (ih _ hu)
        intro _ _ _ hpost
        obtain ⟨l, hl⟩ := hpost
        exact ⟨a :: l, .header hne hheader hl⟩
      · exact wp_of_forall fun _ _ _ => ⟨[], .stop hne hheader⟩

theorem refillStart_ends {i : Bar} (hmapped : h.mapped i) (fuel : ℕ) {a : ℤ} (hne : a ≠ 0)
    (hbase : (w.pciedevDevM dev).memmoryBase = base) :
    (refillStart fill ⟨base i, 0⟩ fuel a).wp (driver E) w fun _ _ u =>
      (h.isHeader i 0 → h.next i 0 = 0) ∧ (u.pciedevDevM dev).memmoryBase = base := by
  induction fuel generalizing a w with
  | zero =>
    rw [refillStart, if_neg hne]
    exact (wp_fault _).mpr trivial
  | succ fuel ih =>
    have hstop (x : World ε) (hx : (x.pciedevDevM dev).memmoryBase = base)
        (hlast : h.isHeader i 0 → h.next i 0 = 0) :
          (refillStart fill ⟨base i, 0⟩ fuel 0).wp (driver E) x
          fun _ _ u => (h.isHeader i 0 → h.next i 0 = 0) ∧
            (u.pciedevDevM dev).memmoryBase = base := by
      cases fuel <;> exact ⟨hlast, hx⟩
    rw [refillStart, if_neg hne, wp_bind]
    apply wp_mono (hwalk i 0 w hmapped hbase).wp
    rintro _ r u ⟨hyes, hno, hu⟩
    by_cases hheader : h.isHeader i 0
    · rw [hyes hheader]
      by_cases hlast : h.next i 0 = 0
      · rw [cInt_eq_zero.mpr hlast]
        exact hstop u hu fun _ => hlast
      · exact ih (cInt_eq_zero.not.mpr hlast) hu
    · rw [hno hheader]
      exact hstop u hu fun hyes => absurd hyes hheader

theorem scanBars_ends (hmapped : ∀ i, h.mapped i ↔ base i ≠ none) (fuel : ℕ) (bars : List Bar)
    (hbase : (w.pciedevDevM dev).memmoryBase = base) :
    (scanBars fill dev fuel bars).wp (driver E) w fun _ _ _ =>
      ∀ i ∈ bars, h.mapped i → h.isHeader i 0 → h.next i 0 = 0 := by
  induction bars generalizing w with
  | nil => exact List.forall_mem_nil _
  | cons i bars ih =>
    simp only [scanBars, perform_eq, call_bind, ret_bind, wp_load, wp_ite, wp_bind, hbase]
    refine ⟨fun hnone => ?_, fun hsome => ?_⟩
    · refine wp_mono (ih hbase) fun _ _ _ hothers =>
        List.forall_mem_cons.mpr ⟨fun hm => ?_, hothers⟩
      exact absurd hnone ((hmapped i).mp hm)
    · apply wp_mono (refillStart_ends hwalk ((hmapped i).mpr hsome) fuel one_ne_zero hbase)
      rintro _ _ u ⟨hthis, hu⟩
      exact wp_mono (ih hu) fun _ _ _ hothers => List.forall_mem_cons.mpr ⟨fun _ => hthis, hothers⟩

theorem discover_ends (hmapped : ∀ i, h.mapped i ↔ base i ≠ none) {a : ℤ}
    (hzero : a ≠ 0 → h.mapped 0) (fuel : ℕ) (hbase : (w.pciedevDevM dev).memmoryBase = base) :
    (discover fill dev fuel a).wp (driver E) w fun _ _ _ => h.Ends a := by
  rw [discover, wp_ite]
  refine ⟨fun ha => ?_, fun ha => ?_⟩
  · apply wp_mono (scanBars_ends hwalk hmapped fuel _ hbase)
    intro _ _ _ hscan
    exact ⟨fun hne => absurd ha hne, fun _ => hscan⟩
  · simp only [perform_eq, call_bind, ret_bind, wp_load, hbase]
    apply wp_mono (followChain_ends hwalk (hzero ha) fuel a hbase)
    intro _ _ _ hchain
    exact ⟨fun _ => hchain, fun hz => absurd hz ha⟩

end
end

/-- Every mapped BAR answers with fixed registers, and memory can be allocated. -/
def BoardRegisters (E : Environment ε) (base : Bar → IoPtr) (regs : Bar → ℤ → UInt32) : Prop :=
  ∀ i, base i ≠ none → Registers E (base i) (regs i)

def Returns {α : Type} (E : Environment ε) (p : ℕ → Kernel α) (w : World ε) : Prop :=
  ∃ fuel, (p fuel).twp (driver E) w fun _ _ _ => True

/-- Under the condition the program returns after finitely many rounds, and otherwise in no run. -/
def ReturnsIff {α : Type} (E : Environment ε) (p : ℕ → Kernel α) (w : World ε) (c : Prop) : Prop :=
  (Returns E p w ↔ c) ∧ ((∃ fuel tr a u, (p fuel).Run (driver E) w tr a u) ↔ c)

theorem returnsIff {α : Type} {p : ℕ → Kernel α} {c : Prop}
    (hends : ∀ fuel, (p fuel).wp (driver E) w fun _ _ _ => c) (hreturns : c → Returns E p w) :
    ReturnsIff E p w c := by
  have hrun : (∃ fuel tr a u, (p fuel).Run (driver E) w tr a u) → c := fun ⟨fuel, _, _, _, hrun⟩ =>
    hrun.of_wp (hends fuel)
  have hexists : Returns E p w → ∃ fuel tr a u, (p fuel).Run (driver E) w tr a u := by
    rintro ⟨fuel, hall⟩
    obtain ⟨tr, a, u, hrun, -⟩ := hall.exists_run
    exact ⟨fuel, tr, a, u, hrun⟩
  exact ⟨⟨fun h => hrun (hexists h), hreturns⟩, hrun, fun h => hexists (hreturns h)⟩

section
variable {base : Bar → IoPtr} {regs : Bar → ℤ → UInt32} (hregs : BoardRegisters E base regs)
include hregs

theorem projects_walked : (projectHeaders (fun i => base i ≠ none) regs).Walked E dev base
    (pciedevFillPrjInfo dev) :=
  Headers.walked_of_fills (fun i hi => fillPrjInfo_fills dev (hregs i hi)) fun _ _ _ => rfl

theorem modules_walked : (moduleHeaders (fun i => base i ≠ none) regs).Walked E dev base
    (pciedevFillShapiModuleInfo dev) :=
  Headers.walked_of_fills (fun i hi => fillShapiModuleInfo_fills dev (hregs i hi)) fun _ _ _ => rfl

section
variable (hbase : (w.pciedevDevM dev).memmoryBase = base)
include hbase

theorem pciedevGetPrjinfo_returnsIff
    (hzero : cInt (w.pciedevDevM dev).brdInfoList.pciedevProjNext ≠ 0 → base 0 ≠ none) :
    ReturnsIff E (fun fuel => pciedevGetPrjinfo fuel dev) w
      ((projectHeaders (fun i => base i ≠ none) regs).Ends
        (cInt (w.pciedevDevM dev).brdInfoList.pciedevProjNext)) := by
  have hbase' :
      ((w.updateDev dev fun v => { v with startupPrjNum := 0 }).pciedevDevM dev).memmoryBase =
      base := by rw [World.updateDev_self, ← hbase]
  apply returnsIff
  · intro fuel
    simp only [pciedevGetPrjinfo, perform_eq, call_bind, ret_bind, wp_store, wp_load, wp_bind,
      World.updateDev_self]
    exact wp_mono (discover_ends (projects_walked hregs) (fun _ => Iff.rfl) hzero fuel hbase')
      fun _ _ _ hends => hends
  · intro hends
    obtain ⟨fuel, hreturns⟩ :=
      discover_returns (projects_walked hregs) (fun _ => Iff.rfl) hzero hends
    refine ⟨fuel, ?_⟩
    simp only [pciedevGetPrjinfo, perform_eq, call_bind, ret_bind, twp_store, twp_load, twp_bind,
      World.updateDev_self]
    exact twp_mono (hreturns _ hbase') fun _ _ _ _ => trivial

theorem pciedevGetShapiModuleInfo_returnsIff
    (hzero : cInt (w.pciedevDevM dev).deviceInfoList.shapiFirstModuleAddress ≠ 0 → base 0 ≠ none) :
    ReturnsIff E (fun fuel => pciedevGetShapiModuleInfo fuel dev) w
      ((moduleHeaders (fun i => base i ≠ none) regs).Ends
        (cInt (w.pciedevDevM dev).deviceInfoList.shapiFirstModuleAddress)) := by
  have hbase' :
      ((w.updateDev dev fun v => { v with shapiModuleNum := 0 }).pciedevDevM dev).memmoryBase =
      base := by rw [World.updateDev_self, ← hbase]
  apply returnsIff
  · intro fuel
    simp only [pciedevGetShapiModuleInfo, perform_eq, call_bind, ret_bind, wp_store, wp_load,
      wp_bind, World.updateDev_self]
    exact wp_mono (discover_ends (modules_walked hregs) (fun _ => Iff.rfl) hzero fuel hbase')
      fun _ _ _ hends => hends
  · intro hends
    obtain ⟨fuel, hreturns⟩ :=
      discover_returns (modules_walked hregs) (fun _ => Iff.rfl) hzero hends
    refine ⟨fuel, ?_⟩
    simp only [pciedevGetShapiModuleInfo, perform_eq, call_bind, ret_bind, twp_store, twp_load,
      twp_bind, World.updateDev_self]
    exact twp_mono (hreturns _ hbase') fun _ _ _ _ => trivial

/-- Both discovery functions return exactly if the chain of headers from the first offset is finite
or, without a first offset, no mapped BAR starts with a header that names a next one. A first offset
is read from BAR 0, which is mapped then. -/
theorem discovery_returns_iff
    (hprojects : cInt (w.pciedevDevM dev).brdInfoList.pciedevProjNext ≠ 0 → base 0 ≠ none)
    (hmodules : cInt (w.pciedevDevM dev).deviceInfoList.shapiFirstModuleAddress ≠ 0 →
      base 0 ≠ none) :
    ReturnsIff E (fun fuel => pciedevGetPrjinfo fuel dev) w
      ((projectHeaders (fun i => base i ≠ none) regs).Ends
        (cInt (w.pciedevDevM dev).brdInfoList.pciedevProjNext)) ∧
    ReturnsIff E (fun fuel => pciedevGetShapiModuleInfo fuel dev) w
      ((moduleHeaders (fun i => base i ≠ none) regs).Ends
        (cInt (w.pciedevDevM dev).deviceInfoList.shapiFirstModuleAddress)) :=
  ⟨pciedevGetPrjinfo_returnsIff hregs hbase hprojects,
    pciedevGetShapiModuleInfo_returnsIff hregs hbase hmodules⟩

end
end

/-- A SHAPI board whose only module, at 0x100, names itself as the next one. -/
def selfModule : Outcome :=
  { register := fun off =>
      if off = 0 then 0x53480001 else if off = 0x100 then 0x534D0001
      else if off = 0x04 ∨ off = 0x104 then 0x100 else 0 }

theorem Outcome.registers (o : Outcome) : Registers o.environment (some 1) o.register where
  answers c e := by cases c <;> exact ⟨_, _, rfl⟩
  reads off e r e' h := (Prod.mk.inj (Option.some.inj h)).1.symm
  kzalloc o e r e' h := (Prod.mk.inj (Option.some.inj h)).1.symm

theorem Visits.not_self {isHeader : ℤ → Prop} {next : ℤ → UInt32} {a : ℤ} {l : List ℤ}
    (h : Visits isHeader next a l) (hne : a ≠ 0) (hheader : isHeader a) : cInt (next a) ≠ a := by
  intro hself
  cases h with
  | zero => exact hne rfl
  | stop _ hother => exact hother hheader
  | @header _ l _ _ hrest =>
    have hsame := (hself ▸ hrest).unique (.header hne hheader hrest)
    exact List.cons_ne_self a l hsame.symm

theorem self_module_endless : ∃ (tr : Trace) (w : World Unit),
    (pciedevGetBrdinfo 0).Run (driver selfModule.environment)
      (.uniform { memmoryBase := fun _ => some 1 }) tr 2 w ∧
    ∀ fuel tr' n u,
      ¬ (pciedevGetShapiModuleInfo fuel 0).Run (driver selfModule.environment) w tr' n u := by
  obtain ⟨tr, w, hrun, hbase, hfirst⟩ : ∃ (tr : Trace) (w : World Unit),
      (pciedevGetBrdinfo 0).Run (driver selfModule.environment)
        (.uniform { memmoryBase := fun _ => some 1 }) tr 2 w ∧
      ((w.pciedevDevM 0).memmoryBase = fun _ => some 1) ∧
      (w.pciedevDevM 0).deviceInfoList.shapiFirstModuleAddress = 0x100 :=
    ⟨_, _, run_of_answers selfModule.answers (fun _ _ _ _ h => h) rfl, rfl, rfl⟩
  refine ⟨tr, w, hrun, fun fuel tr' n u hmodules => ?_⟩
  have hregs : BoardRegisters selfModule.environment (fun _ => some 1) fun _ =>
      selfModule.register :=
    fun _ _ => selfModule.registers
  have hends := (pciedevGetShapiModuleInfo_returnsIff hregs hbase fun _ => by decide).2.mp
    ⟨fuel, tr', n, u, hmodules⟩
  rw [hfirst] at hends
  obtain ⟨l, hl⟩ := hends.chain (by decide)
  have hvisits : Visits (IsModule selfModule.register) (nextModule selfModule.register) 0x100 l :=
    hl
  have hheader : IsModule selfModule.register 0x100 := rfl
  exact hvisits.not_self (by decide) hheader rfl

theorem discovery_returns_iff_twoModules : Returns twoModules.environment
    (fun fuel => pciedevGetShapiModuleInfo fuel 0)
    (.uniform { memmoryBase := fun _ => some 1,
                deviceInfoList := { shapiFirstModuleAddress := 0x100 } }) := by
  have hregs : BoardRegisters twoModules.environment (fun _ => some 1) fun _ =>
      twoModules.register :=
    fun _ _ => twoModules.registers
  have hchain : Visits (IsModule twoModules.register) (nextModule twoModules.register) 0x100
      [0x100, 0x200] := .header (by decide) rfl (.header (by decide) rfl .zero)
  exact (discovery_returns_iff hregs rfl (by decide) (by decide)).2.1.mpr
    ⟨fun _ => ⟨_, hchain⟩, fun hzero => absurd hzero (by decide)⟩

end Upciedev
