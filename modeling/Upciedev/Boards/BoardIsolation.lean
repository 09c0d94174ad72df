import Upciedev.Access.BarIndex
import Upciedev.Boards.DeviceProtocol
import Upciedev.Hotplug.FileCounts

/-!
# Boards do not disturb each other

A call on a file works on the entry of one board. It changes no other entry, and gets to registers
only through mappings that are held of the device of that board. Mappings of different devices
differ as long as the kernel hands out no mapping twice.
-/
namespace Upciedev

open Foundations Program

variable {ε : Type} {E : Environment ε} {w u : World ε}

/-- The register that an operation reads or writes. -/
def accessed : Op → Option IoAddr
  | .kernel (.ioread _ a) | .kernel (.iowrite _ a _) => some a
  | _ => none

def FileCall.entry (owner : File → Entry) : FileCall → Entry
  | .openExp dev _ _ => dev
  | c => owner c.filp

theorem PciedevDev.mem_mapped {v : PciedevDev} {p : ℕ} :
    p ∈ v.mapped ↔ ∃ i, v.memmoryBase i = some p := by
  simp [PciedevDev.mapped]

/-- A call on file `filp` works on the entry of the file, and uses the mappings of that entry. -/
def callReach (w : World ε) (filp : File) (moves : Prop) : Reach where
  filp := filp
  opens := False
  moves := moves
  sets := True
  owned d := d = w.privateData filp
  scratch d bar := moves ∨ bar = (w.pciedevDevM d).scratchBar
  answers d i r := ∃ bar : Bar, bar.val = i.toNat ∧ r = (w.pciedevDevM d).memmoryBase bar
  allowed r := ∃ p ∈ (w.pciedevDevM (w.privateData filp)).mapped, r = some p
  tested := by
    rintro d i r r' rfl ⟨bar, hbar, rfl⟩ ⟨bar', hbar', rfl⟩ hmapped
    obtain rfl : bar = bar' := Fin.ext (hbar.trans hbar'.symm)
    obtain ⟨p, hp⟩ := Option.ne_none_iff_exists'.mp hmapped
    exact ⟨p, PciedevDev.mem_mapped.mpr ⟨bar, hp⟩, hp⟩

section
variable {filp : File} {moves : Prop}

theorem callReach_fixedScratch (hmoves : ¬ moves) : (callReach w filp moves).FixedScratch := by
  constructor
  intro d i i' r r' hd hi hi' hr hr' hmapped
  obtain rfl := (hi.resolve_left hmoves).trans (hi'.resolve_left hmoves).symm
  exact (callReach w filp moves).tested hd hr hr' hmapped

/-- While a call is made, the file stays on its entry, and entries keep their mappings. -/
structure CallKeeps (moves : Prop) (filp : File) (w u : World ε) : Prop where
  owner : u.privateData filp = w.privateData filp
  others d : d ≠ w.privateData filp → u.pciedevDevM d = w.pciedevDevM d
  memmoryBase d : (u.pciedevDevM d).memmoryBase = (w.pciedevDevM d).memmoryBase
  scratchBar d : ¬ moves → (u.pciedevDevM d).scratchBar = (w.pciedevDevM d).scratchBar

theorem CallKeeps.step {op : Op} {r : op.Res} {x y : World ε} (h : CallKeeps moves filp w x)
    (hop : (callReach w filp moves).Allows op) (hstep : driver E op x r y)
    (hbar : readsOtherBar op = false) :
    (callReach w filp moves).Answer op r ∧ CallKeeps moves filp w y := by
  cases op with
  | privateData f =>
    obtain rfl : f = filp := hop
    obtain ⟨rfl, rfl⟩ := hstep
    exact ⟨h.owner, h⟩
  | load d =>
    obtain ⟨rfl, rfl⟩ := hstep
    refine ⟨?_, h⟩
    by_cases hmoves : moves
    · exact .inl hmoves
    · exact .inr (h.scratchBar d hmoves)
  | memmoryBase d i =>
    obtain ⟨hr, rfl⟩ := hstep
    have hi : i.toNat < numberOfBars := not_le.mp (of_decide_eq_false hbar)
    exact ⟨⟨⟨i.toNat, hi⟩, rfl, (hr hi).trans (congrFun (h.memmoryBase d) _)⟩, h⟩
  | store d f =>
    obtain ⟨hd, hf, hmoves, -⟩ := hop
    obtain rfl : d = w.privateData filp := hd
    obtain rfl : y = x.updateDev (w.privateData filp) f := hstep
    refine ⟨trivial, h.owner, fun d hd => ?_, fun d => ?_, fun d hfixed => ?_⟩
    · rw [World.updateDev_other _ hd]
      exact h.others d hd
    · by_cases hd : d = w.privateData filp
      · subst hd
        rw [World.updateDev_self, ← h.memmoryBase]
        cases hf <;> rfl
      · rw [World.updateDev_other _ hd]
        exact h.memmoryBase d
    · by_cases hd : d = w.privateData filp
      · subst hd
        rw [World.updateDev_self]
        exact (congrArg Prod.fst (hmoves hfixed _)).trans (h.scratchBar _ hfixed)
      · rw [World.updateDev_other _ hd]
        exact h.scratchBar d hfixed
  | kernel c =>
    obtain ⟨e, -, rfl⟩ := hstep
    exact ⟨trivial, h.owner, h.others, h.memmoryBase, h.scratchBar⟩
  | setFPos f pos =>
    obtain rfl : y = _ := hstep
    exact ⟨trivial, h.owner, h.others, h.memmoryBase, h.scratchBar⟩
  | note n =>
    obtain rfl : y = x := hstep
    exact ⟨trivial, h⟩
  | setPrivateData | setCdev | setDrvdata | setBaseRow | setBaseBar => exact hop.elim
  | baseRow | baseBar | drvdata => exact hop.elim
  | fault f => exact r.elim
  | _ =>
    obtain ⟨-, rfl⟩ := hstep
    exact ⟨trivial, h⟩

end

/-- No mapping is handed out while it is held of any device. -/
def FreshMaps (log : List (PciDev × PciUse)) : Prop :=
  ∀ pre dev p post, log = pre ++ (dev, .iomap (some p)) :: post → ∀ dev' mapped,
    pciRules.run .nothing (Rules.usesOf dev' pre) = some (.regions mapped) → p ∉ mapped

theorem FreshMaps.of_append {log log' : List (PciDev × PciUse)} (h : FreshMaps (log ++ log')) :
    FreshMaps log := by
  intro pre dev p post hlog
  apply h pre dev p (post ++ log')
  rw [hlog]
  simp

theorem mapped_of_use {s : Held} {x : PciUse} {mapped : Multiset ℕ}
    (h : pciRules.use s x = some (.regions mapped)) {p : ℕ} (hp : p ∈ mapped) :
    (∃ mapped₀, s = .regions mapped₀ ∧ p ∈ mapped₀) ∨ x = .iomap (some p) := by
  unfold pciRules at h
  dsimp only at h
  split at h
  · split_ifs at h <;> cases h
  · split_ifs at h
    · obtain rfl := Held.regions.inj (Option.some_injective _ h)
      exact absurd hp (Multiset.notMem_zero p)
    · cases h
  · cases h
  · obtain rfl := Held.regions.inj (Option.some_injective _ h)
    exact .inl ⟨_, rfl, hp⟩
  · rename_i q
    obtain rfl := Held.regions.inj (Option.some_injective _ h)
    rcases Multiset.mem_add.mp hp with hp | hp
    · exact .inl ⟨_, rfl, hp⟩
    · cases q with
      | none => exact absurd hp (Multiset.notMem_zero p)
      | some q =>
        obtain rfl : p = q := by simpa using hp
        exact .inr rfl
  · split_ifs at h
    obtain rfl := Held.regions.inj (Option.some_injective _ h)
    exact .inl ⟨_, rfl, Multiset.mem_of_mem_erase hp⟩
  · split_ifs at h
    cases h
  · cases h

theorem mapped_disjoint {log : List (PciDev × PciUse)} {st : PciDev → Held}
    (h : pciRules.Obeyed .nothing log st) (hfresh : FreshMaps log) {dev dev' : PciDev}
    (hne : dev ≠ dev') {mapped mapped' : Multiset ℕ} (hdev : st dev = .regions mapped)
    (hdev' : st dev' = .regions mapped') {p : ℕ} (hp : p ∈ mapped) : p ∉ mapped' := by
  suffices hall : FreshMaps log → ∀ dev dev' mapped mapped', dev ≠ dev' → st dev = .regions mapped →
      st dev' = .regions mapped' → ∀ p ∈ mapped, p ∉ mapped' from
    hall hfresh dev dev' mapped mapped' hne hdev hdev' p hp
  refine h.invariant (P := fun log st => FreshMaps log → ∀ dev dev' mapped mapped', dev ≠ dev' →
    st dev = .regions mapped → st dev' = .regions mapped' → ∀ p ∈ mapped, p ∉ mapped') ?_ ?_
  · intro _ dev dev' mapped mapped' _ hdev
    cases hdev
  · intro log st₀ st k x hst₀ ih huse hothers hfresh dev dev' mapped mapped' hne hdev hdev' p hp hp'
    have hbefore := ih hfresh.of_append
    have hnew {d : PciDev} {m : Multiset ℕ} (hx : x = .iomap (some p)) (hd : st₀ d = .regions m) :
        p ∉ m :=
      hfresh log k p [] (by rw [hx]) d m ((hst₀ d).trans (congrArg some hd))
    by_cases hk : dev = k
    · subst hk
      rw [hothers _ (Ne.symm hne)] at hdev'
      rw [hdev] at huse
      rcases mapped_of_use huse hp with ⟨mapped₀, hs, hp₀⟩ | hx
      · exact hbefore dev dev' mapped₀ mapped' hne hs hdev' p hp₀ hp'
      · exact hnew hx hdev' hp'
    · rw [hothers _ hk] at hdev
      by_cases hk' : dev' = k
      · subst hk'
        rw [hdev'] at huse
        rcases mapped_of_use huse hp' with ⟨mapped₀, hs, hp₀⟩ | hx
        · exact hbefore dev dev' mapped mapped₀ hne hdev hs p hp hp₀
        · exact hnew hx hdev hp
      · rw [hothers _ hk'] at hdev'
        exact hbefore dev dev' mapped mapped' hne hdev hdev' p hp hp'

/-- A run in which all operations are of one kind, as a run that checks for it. -/
theorem Run.checked {α σ : Type} {I : Interface} {h : Handler I σ} {K : I.Op → Prop}
    {p : Program I α} {s t : σ} {tr : List (Event I)} {a : α} (hr : p.Run h s tr a t)
    (hK : ∀ e ∈ tr, K e.op) :
    p.Run (fun op s r s' => h op s r s' ∧ K op) s tr a t := by
  induction p generalizing s tr with
  | ret b => exact hr
  | call op k ih =>
    obtain ⟨r, s', rest, hop, rfl, hr⟩ := hr
    obtain ⟨hop', hrest⟩ := List.forall_mem_cons.mp hK
    exact ⟨r, s', rest, ⟨hop, hop'⟩, rfl, ih r hr hrest⟩

/-- What a call may do on the board of entry `d`: no other entry changes, and registers are accessed
through mappings that are held of the device of the board and of no other. -/
structure StaysOnBoard (boards : PciDev → Option Entry) (d : Entry) (w : World ε) (tr : Trace)
    (u : World ε) :
    Prop where
  others d' : d' ≠ d → u.pciedevDevM d' = w.pciedevDevM d'
  accesses e a : e ∈ tr → accessed e.op = some a → ∃ dev p mapped, boards dev = some d ∧
    a.base = some p ∧
    heldFor w boards dev = .regions mapped ∧ p ∈ mapped ∧
    ∀ dev' mapped', dev' ≠ dev → heldFor w boards dev' = .regions mapped' → p ∉ mapped'

section
variable {boards : PciDev → Option Entry} {tr tr' : Trace} {retval : ℤ}

theorem pciedevOpenExp_noAccess (dev : Entry) (minor : ℤ) (filp : File) :
    (pciedevOpenExp dev minor filp).Only fun op => accessed op = none := by
  simp [pciedevOpenExp, fault, accessed]

theorem fileCall_reach {c : FileCall} (hopens : ∀ d, ¬ c.OpensOn d)
    (hrun : c.program.Run (driver E) w tr' retval u) (hbars : ¬ UsesOtherBar tr') :
    (∀ e ∈ tr', (callReach w c.filp c.MovesScratch).Allows e.op) ∧
      CallKeeps c.MovesScratch c.filp w u := by
  have hcovers : (callReach w c.filp c.MovesScratch).Covers c.program :=
    fileCall_covers rfl (fun d hd => absurd hd (hopens d)) id (fun _ => trivial)
      callReach_fixedScratch
  have hchecked := Run.checked (K := fun op => readsOtherBar op = false) hrun fun e he =>
    Bool.eq_false_iff.mpr fun hreads => hbars ⟨e, he, hreads⟩
  obtain ⟨hallows, -, hkeeps⟩ := Sat.run (P := CallKeeps c.MovesScratch c.filp w) hcovers
    (fun op x r y hx hop hstep => hx.step hop hstep.1 hstep.2)
    ⟨rfl, fun _ _ => rfl, fun _ => rfl, fun _ _ => rfl⟩ hchecked
  exact ⟨hallows, hkeeps⟩

/-- In every run in which no mapping is handed out twice, a call that names existing BARs stays on
the board of its file. -/
theorem boards_isolated (h : DriverRun E w boards tr) (hfresh : FreshMaps (pciLog tr))
    {c : FileCall} (hrun : c.program.Run (driver E) w tr' retval u) (hbars : ¬ UsesOtherBar tr') :
    StaysOnBoard boards (c.entry w.privateData) w tr' u := by
  have hinv := h.inv
  by_cases hopens : ∃ d, c.OpensOn d
  · obtain ⟨d, hd⟩ := hopens
    cases c with
    | openExp dev minor filp =>
      obtain ⟨e, hu⟩ := hrun.of_wp (pciedevOpenExp_wp dev minor filp)
      constructor
      · intro d' hd'
        rw [hu]
        simp [show d' ≠ dev from hd']
      · intro e a he ha
        exact absurd ((pciedevOpenExp_noAccess dev minor filp).run hrun e he) (by simp [ha])
    | _ => exact hd.elim
  · rw [not_exists] at hopens
    have hentry : c.entry w.privateData = w.privateData c.filp := by
      cases c with
      | openExp dev minor filp => exact absurd rfl (hopens dev)
      | _ => rfl
    obtain ⟨hallows, hkeeps⟩ := fileCall_reach hopens hrun hbars
    rw [hentry]
    refine ⟨hkeeps.others, fun e a he ha => ?_⟩
    obtain ⟨p, hp, hbase⟩ : ∃ p ∈ (w.pciedevDevM (w.privateData c.filp)).mapped,
        a.base = some p := by
      have hop := hallows e he
      generalize e.op = op at ha hop
      unfold accessed at ha
      split at ha
      · obtain rfl := Option.some_injective _ ha
        exact hop
      · obtain rfl := Option.some_injective _ ha
        exact hop
      · cases ha
    obtain ⟨dev, hdev⟩ : ∃ dev, boards dev = some (w.privateData c.filp) := by
      by_contra hnone
      obtain ⟨i, hi⟩ := PciedevDev.mem_mapped.mp hp
      rw [hinv.unmapped _ (not_exists.mp hnone) i] at hi
      cases hi
    have hheld : heldFor w boards dev = .regions (w.pciedevDevM (w.privateData c.filp)).mapped := by
      rw [heldFor, hdev]
      rfl
    refine ⟨dev, p, _, hdev, hbase, hheld, hp, fun dev' mapped' hne hdev' => ?_⟩
    exact mapped_disjoint hinv.obeyed hfresh (Ne.symm hne) hheld hdev' hp

end

theorem freshMaps_nil : FreshMaps [] := by
  intro pre dev p post hlog
  exact absurd hlog (by simp)

theorem FreshMaps.snoc {log : List (PciDev × PciUse)} (h : FreshMaps log) {dev : PciDev}
    {x : PciUse} (hx : ∀ p, x = .iomap (some p) → ∀ dev' mapped,
      pciRules.run .nothing (Rules.usesOf dev' log) = some (.regions mapped) → p ∉ mapped) :
    FreshMaps (log ++ [(dev, x)]) := by
  intro pre dev' p post hlog
  rcases List.eq_nil_or_concat post with rfl | ⟨post, e, rfl⟩
  · obtain ⟨rfl, he⟩ := List.append_inj' hlog rfl
    exact hx p (Prod.mk.inj (List.singleton_inj.mp he)).2
  · rw [List.concat_eq_append, ← List.cons_append, ← List.append_assoc] at hlog
    exact h pre dev' p post (List.append_inj' hlog rfl).1

set_option maxRecDepth 8000 in
theorem boards_isolated_plainRead :
    ∃ (w u : World Unit) (boards : PciDev → Option Entry) (tr tr' : Trace),
    DriverRun openEnvironment w boards tr ∧ boards 0 = some 0 ∧
    (FileCall.readExp 7 0 0 0 pciedFpos).program.Run (driver openEnvironment) w tr'
      sizeofDeviceRw u ∧
    (∃ e ∈ tr', accessed e.op = some ⟨some 1, 4⟩) ∧ StaysOnBoard boards 0 w tr' u := by
  obtain ⟨tr₀, w₀, tr₁, w₁, tr₂, w₂, tr₃, w₃, hset, hprobe, hopen, hread, hfile, hlog,
    hbars, haccess⟩ :
      ∃ (tr₀ : Trace) (w₀ : World Unit) (tr₁ : Trace) (w₁ : World Unit) (tr₂ : Trace)
        (w₂ : World Unit) (tr₃ : Trace) (w₃ : World Unit),
      upciedevInitModuleExp.Run (driver openEnvironment) (.uniform {}) tr₀ 0 w₀ ∧
      (pciedevProbeExp 0 0 0).Run (driver openEnvironment) w₀ tr₁ ((0 : ℤ), 0) w₁ ∧
      (pciedevOpenExp 0 0 7).Run (driver openEnvironment) w₁ tr₂ 0 w₂ ∧
      (pciedevReadExp 7 0 0 0 pciedFpos).Run (driver openEnvironment) w₂ tr₃ sizeofDeviceRw w₃ ∧
      w₂.privateData 7 = 0 ∧
      pciLog (tr₀ ++ tr₁ ++ tr₂) =
        [(0, .enable true)] ++ [(0, .requestRegions true)] ++ [(0, .setMaster)] ++
          [(0, .iomap (some 1))] ∧
      ¬ UsesOtherBar tr₃ ∧ ∃ e ∈ tr₃, accessed e.op = some ⟨some 1, 4⟩ :=
    ⟨_, _, _, _, _, _, _, _, run_of_answers (Outcome.answers {}) (fun _ _ _ _ _ => trivial) rfl,
      run_of_answers (Outcome.answers {}) (fun _ _ _ _ _ => trivial) rfl,
      run_of_answers (Outcome.answers {}) (fun _ _ _ _ _ => trivial) rfl,
      run_of_answers plainRequest.answers (fun _ _ _ _ _ => trivial) rfl, rfl, by decide, by
        decide, by decide⟩
  have hrun := DriverRun.call (.probed (.setUp hset) rfl (b := 0) hprobe) (.openExp 0 0 7) hopen
  have hfresh : FreshMaps (pciLog (tr₀ ++ tr₁ ++ tr₂)) := by
    rw [hlog]
    refine ((((freshMaps_nil.snoc ?_).snoc ?_).snoc ?_).snoc ?_)
    · simp
    · simp
    · simp
    · rintro _ _ dev' mapped hmapped
      by_cases hdev : dev' = 0
      · subst hdev
        obtain rfl := Held.regions.inj (Option.some_injective _ hmapped.symm)
        exact Multiset.notMem_zero _
      · simp [Rules.usesOf, Ne.symm hdev] at hmapped
  have hstays := boards_isolated hrun hfresh (c := .readExp 7 0 0 0 pciedFpos) hread hbars
  have hentry : (FileCall.readExp 7 0 0 0 pciedFpos).entry w₂.privateData = 0 := hfile
  rw [hentry] at hstays
  exact ⟨w₂, w₃, _, _, tr₃, hrun, Function.update_self .., hread, haccess, hstays⟩

end Upciedev
