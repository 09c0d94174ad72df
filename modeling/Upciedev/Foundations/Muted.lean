import Upciedev.Foundations.Program

/-!
# Programs up to idle operations

An operation is idle when its response is known beforehand and the state stays as it is. Two
programs that are equal once their idle operations are left out have the same runs, up to the events
of these operations. -/
namespace Upciedev.Foundations

variable {I : Interface} {α β σ : Type} {known : (op : I.Op) → Option (I.Res op)}

/-- The responses of idle operations are known, and they change nothing. -/
def Idle (h : Handler I σ) (known : (op : I.Op) → Option (I.Res op)) : Prop :=
  ∀ op r, known op = some r → ∀ s r' s', h op s r' s' ↔ r' = r ∧ s' = s

def audible (known : (op : I.Op) → Option (I.Res op)) (tr : List (Event I)) : List (Event I) :=
  tr.filter fun e => (known e.op).isNone

theorem audible_known {op : I.Op} {r : I.Res op} (hop : known op = some r) (res : I.Res op)
    (tr : List (Event I)) : audible known (⟨op, res⟩ :: tr) = audible known tr := by
  simp [audible, hop]

theorem audible_unknown {op : I.Op} (hop : known op = none) (res : I.Res op) (tr : List (Event I)) :
    audible known (⟨op, res⟩ :: tr) = ⟨op, res⟩ :: audible known tr := by
  simp [audible, hop]

namespace Program

def mute (known : (op : I.Op) → Option (I.Res op)) : Program I α → Program I α
  | ret a => ret a
  | call op k =>
      match known op with
      | some r => (k r).mute known
      | none => call op fun r => (k r).mute known

theorem mute_known {op : I.Op} {r : I.Res op} (hop : known op = some r)
    (k : I.Res op → Program I α) :
    (call op k).mute known = (k r).mute known := by
  simp only [mute, hop]

theorem mute_unknown {op : I.Op} (hop : known op = none) (k : I.Res op → Program I α) :
    (call op k).mute known = call op fun r => (k r).mute known := by
  simp only [mute, hop]

theorem mute_bind (p : Program I α) (f : α → Program I β) :
    (p >>= f).mute known = p.mute known >>= fun a => (f a).mute known := by
  induction p with
  | ret a => rfl
  | call op k ih =>
    rw [call_bind]
    cases hop : known op with
    | some r => rw [mute_known hop, mute_known hop, ih r]
    | none =>
      rw [mute_unknown hop, mute_unknown hop, call_bind]
      exact congrArg _ (funext fun r => ih r)

/-- The runs of a program without its idle operations are its runs without their events. -/
theorem run_mute {h : Handler I σ} (hidle : Idle h known) (p : Program I α) (s : σ)
    (t : List (Event I)) (a : α) (u : σ) : (p.mute known).Run h s t a u ↔
      ∃ tr, p.Run h s tr a u ∧ audible known tr = t := by
  induction p generalizing s t with
  | ret b =>
    constructor
    · rintro ⟨rfl, rfl, rfl⟩
      exact ⟨[], ⟨rfl, rfl, rfl⟩, rfl⟩
    · rintro ⟨tr, ⟨rfl, rfl, rfl⟩, rfl⟩
      exact ⟨rfl, rfl, rfl⟩
  | call op k ih =>
    cases hop : known op with
    | some r =>
      rw [mute_known hop, ih]
      constructor
      · rintro ⟨tr, hrun, rfl⟩
        exact ⟨⟨op, r⟩ :: tr, ⟨r, s, tr, (hidle op r hop s r s).mpr ⟨rfl, rfl⟩, rfl, hrun⟩,
          audible_known hop r tr⟩
      · rintro ⟨tr, ⟨r', s', rest, hstep, rfl, hrun⟩, rfl⟩
        obtain ⟨rfl, rfl⟩ := (hidle op r hop s r' s').mp hstep
        exact ⟨rest, hrun, (audible_known hop _ rest).symm⟩
    | none =>
      rw [mute_unknown hop]
      constructor
      · rintro ⟨r, s', rest, hstep, rfl, hrun⟩
        obtain ⟨tr, htr, rfl⟩ := (ih r s' rest).mp hrun
        exact ⟨⟨op, r⟩ :: tr, ⟨r, s', tr, hstep, rfl, htr⟩, audible_unknown hop r tr⟩
      · rintro ⟨tr, ⟨r, s', rest, hstep, rfl, hrun⟩, rfl⟩
        exact ⟨r, s', audible known rest, hstep, audible_unknown hop r rest,
          (ih r s' _).mpr ⟨rest, hrun, rfl⟩⟩

end Program

end Upciedev.Foundations
