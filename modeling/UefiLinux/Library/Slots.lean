/-
Fixed tables of optional values: which values a table holds, which of them sit in
more than one slot, and the searches and single-slot updates a table admits.
-/
import Mathlib.Data.Fin.Tuple.Basic
import Mathlib.Data.Set.Insert
import Mathlib.Logic.Function.Basic

universe u

/-- A table of `n` slots, each empty or holding one value. -/
abbrev Slots (n : Nat) (H : Type u) := Fin n → Option H

namespace Slots

variable {n : Nat} {H : Type u}

/-- The values held in some slot. -/
def held (t : Slots n H) : Set H := { h | ∃ i, t i = some h }

/-- The table with every slot empty. -/
def empty : Slots n H := fun _ => none

/-- Some slot other than `i` holds `h`. -/
def HeldElsewhere (t : Slots n H) (i : Fin n) (h : H) : Prop :=
  ∃ j, j ≠ i ∧ t j = some h

instance [DecidableEq H] (t : Slots n H) (i : Fin n) (h : H) :
    Decidable (t.HeldElsewhere i h) :=
  inferInstanceAs (Decidable (∃ j, j ≠ i ∧ t j = some h))

theorem mem_held {t : Slots n H} {h : H} : h ∈ t.held ↔ ∃ i, t i = some h :=
  Iff.rfl

theorem held_of_eq_some {t : Slots n H} {i : Fin n} {h : H}
    (hi : t i = some h) : h ∈ t.held :=
  ⟨i, hi⟩

@[simp] theorem held_empty : (empty : Slots n H).held = ∅ := by
  ext h
  simp [held, empty]

/-- A slot cleared in a table keeps exactly the values held elsewhere. -/
theorem mem_held_clear {t : Slots n H} {i : Fin n} {h : H} :
    h ∈ Slots.held (Function.update t i none) ↔ t.HeldElsewhere i h := by
  constructor
  · rintro ⟨j, hj⟩
    by_cases hji : j = i
    · rw [hji, Function.update_self] at hj
      cases hj
    · rw [Function.update_of_ne hji] at hj
      exact ⟨j, hji, hj⟩
  · rintro ⟨j, hji, hj⟩
    exact ⟨j, by rw [Function.update_of_ne hji]; exact hj⟩

/-- A slot overwritten in a table holds the new value beside those elsewhere. -/
theorem mem_held_store {t : Slots n H} {i : Fin n} {h k : H} :
    k ∈ Slots.held (Function.update t i (some h)) ↔
      k = h ∨ t.HeldElsewhere i k := by
  constructor
  · rintro ⟨j, hj⟩
    by_cases hji : j = i
    · rw [hji, Function.update_self, Option.some.injEq] at hj
      exact Or.inl hj.symm
    · rw [Function.update_of_ne hji] at hj
      exact Or.inr ⟨j, hji, hj⟩
  · rintro (rfl | ⟨j, hji, hj⟩)
    · exact ⟨i, Function.update_self i (some k) t⟩
    · exact ⟨j, by rw [Function.update_of_ne hji]; exact hj⟩

theorem HeldElsewhere.held {t : Slots n H} {i : Fin n} {h : H}
    (hshared : t.HeldElsewhere i h) : h ∈ t.held := by
  obtain ⟨j, _, hj⟩ := hshared
  exact ⟨j, hj⟩

/-- Occupied slots of the second table were occupied in the first, and hold what it held. -/
def DrawnFrom (t t' : Slots n H) : Prop :=
  ∀ i h, t' i = some h → t i ≠ none ∧ h ∈ t.held

theorem DrawnFrom.refl (t : Slots n H) : t.DrawnFrom t := by
  intro i h hi
  exact ⟨by rw [hi]; exact Option.some_ne_none h, i, hi⟩

theorem DrawnFrom.trans {t t' t'' : Slots n H} (hfirst : t.DrawnFrom t')
    (hsecond : t'.DrawnFrom t'') : t.DrawnFrom t'' := by
  intro i h hi
  obtain ⟨hoccupied, j, hj⟩ := hsecond i h hi
  obtain ⟨k, hk⟩ := Option.ne_none_iff_exists'.mp hoccupied
  exact ⟨(hfirst i k hk).1, (hfirst j h hj).2⟩

theorem DrawnFrom.held_subset {t t' : Slots n H} (hdrawn : t.DrawnFrom t') :
    t'.held ⊆ t.held := by
  rintro h ⟨i, hi⟩
  exact (hdrawn i h hi).2

theorem drawnFrom_clear (t : Slots n H) (i : Fin n) :
    t.DrawnFrom (Function.update t i none) := by
  intro j h hj
  by_cases hji : j = i
  · rw [hji, Function.update_self] at hj
    cases hj
  · rw [Function.update_of_ne hji] at hj
    exact DrawnFrom.refl t j h hj

/-- What a table holds stored over an occupied slot of it. -/
theorem drawnFrom_store {t : Slots n H} {i : Fin n} {h : H} (hoccupied : t i ≠ none)
    (hheld : h ∈ t.held) : t.DrawnFrom (Function.update t i (some h)) := by
  intro j k hj
  by_cases hji : j = i
  · rw [hji, Function.update_self, Option.some.injEq] at hj
    exact ⟨hji ▸ hoccupied, hj ▸ hheld⟩
  · rw [Function.update_of_ne hji] at hj
    exact DrawnFrom.refl t j k hj

/-- A search from the first slot on either stops at the first hit or finds that
there is none. -/
theorem find?_cases (hit : Fin n → Bool) :
    (∃ i, Fin.find? hit = some i ∧ hit i = true ∧ ∀ j < i, hit j = false) ∨
      (Fin.find? hit = none ∧ ∀ i, hit i = false) := by
  cases hfind : Fin.find? hit with
  | none => exact Or.inr ⟨rfl, by simpa using Fin.find?_eq_none_iff.mp hfind⟩
  | some i =>
      obtain ⟨hi, hbefore⟩ := Fin.find?_eq_some_iff.mp hfind
      exact Or.inl ⟨i, rfl, hi, by simpa using hbefore⟩

end Slots
