/-
Functions changed at finitely many points.  A list of writes is applied one by one,
so at each point the last write to it stands, whatever the function was before.
-/
import Mathlib.Logic.Function.Basic
import Mathlib.Logic.Nontrivial.Basic

namespace Patches

universe u v

variable {α : Type u} {β : Type v}

/-- The points that a list of writes goes to. -/
def points (writes : List (α × β)) : List α := writes.map Prod.fst

@[simp] theorem points_append (first second : List (α × β)) :
    points (first ++ second) = points first ++ points second :=
  List.map_append

variable [DecidableEq α]

/-- The function after a list of writes. -/
def patch (f : α → β) : List (α × β) → α → β
  | [] => f
  | write :: rest => patch (Function.update f write.1 write.2) rest

theorem patch_append (f : α → β) (first second : List (α × β)) :
    patch f (first ++ second) = patch (patch f first) second := by
  induction first generalizing f with
  | nil => rfl
  | cons write rest ih => exact ih (Function.update f write.1 write.2)

/-- A point without a write keeps its value. -/
theorem patch_of_not_mem {f : α → β} {writes : List (α × β)} {x : α}
    (hx : x ∉ points writes) : patch f writes x = f x := by
  induction writes generalizing f with
  | nil => rfl
  | cons write rest ih =>
      simp only [points, List.map_cons, List.mem_cons, not_or] at hx
      have hrest : x ∉ points rest := hx.2
      rw [patch, ih hrest, Function.update_of_ne hx.1]

/-- Where the functions agree, or some write goes, the patched functions agree. -/
theorem patch_congr {f g : α → β} {writes : List (α × β)} {x : α}
    (hx : f x = g x ∨ x ∈ points writes) : patch f writes x = patch g writes x := by
  induction writes generalizing f g with
  | nil => exact hx.resolve_right List.not_mem_nil
  | cons write rest ih =>
      apply ih
      by_cases hhere : x = write.1
      · subst hhere
        exact Or.inl (by rw [Function.update_self, Function.update_self])
      · rw [Function.update_of_ne hhere, Function.update_of_ne hhere]
        rcases hx with hsame | hwritten
        · exact Or.inl hsame
        · exact Or.inr ((List.mem_cons.mp hwritten).resolve_left hhere)

/-- With one write to each point, the written value is found there. -/
theorem patch_of_mem {f : α → β} {writes : List (α × β)} {x : α} {v : β}
    (hnodup : (points writes).Nodup) (hwrite : (x, v) ∈ writes) :
    patch f writes x = v := by
  induction writes generalizing f with
  | nil => cases hwrite
  | cons write rest ih =>
      obtain ⟨hfirst, hrest⟩ := List.nodup_cons.mp hnodup
      rcases List.mem_cons.mp hwrite with rfl | hlater
      · have hkept : x ∉ points rest := hfirst
        rw [patch, patch_of_not_mem hkept, Function.update_self]
      · exact ih hrest hlater

/-- The points that keep their value, whatever it was, are those without a write. -/
theorem forall_patch_eq_iff [Nontrivial β] {writes : List (α × β)} {x : α} :
    (∀ f : α → β, patch f writes x = f x) ↔ x ∉ points writes := by
  constructor
  · intro hkept hwritten
    obtain ⟨v, w, hne⟩ := exists_pair_ne β
    have hsame := patch_congr (f := fun _ => v) (g := fun _ => w) (Or.inr hwritten)
    rw [hkept, hkept] at hsame
    exact hne hsame
  · intro hx f
    exact patch_of_not_mem hx

end Patches
