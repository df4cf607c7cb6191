/-
Tables in custody of resources.  Several slots may hold one resource; whatever a
table holds is live.
-/
import UefiLinux.Library.Slots

universe u

/-- A table and a set of live resources that covers all the table holds. -/
structure Custody (n : Nat) (H : Type u) where
  table : Slots n H
  live : Set H
  backed : table.held ⊆ live

namespace Custody

variable {n : Nat} {H : Type u}

/-- Empty a slot; its resource is given up unless another slot holds it. -/
def release (c : Custody n H) (i : Fin n) (h : H) : Custody n H where
  table := Function.update c.table i none
  live := { k | k ∈ c.live ∧ (k = h → c.table.HeldElsewhere i k) }
  backed := by
    intro k hk
    have helsewhere : c.table.HeldElsewhere i k := Slots.mem_held_clear.mp hk
    exact ⟨c.backed helsewhere.held, fun _ => helsewhere⟩

/-- Put a live resource in a slot. -/
def store (c : Custody n H) (i : Fin n) (h : H) (hlive : h ∈ c.live) : Custody n H where
  table := Function.update c.table i (some h)
  live := c.live
  backed := by
    intro k hk
    rcases Slots.mem_held_store.mp hk with hsame | helsewhere
    · exact hsame ▸ hlive
    · exact c.backed helsewhere.held

/-- Take over a resource that no slot holds yet. -/
def adopt (c : Custody n H) (h : H) : Custody n H where
  table := c.table
  live := insert h c.live
  backed := c.backed.trans (Set.subset_insert h c.live)

@[simp] theorem release_table (c : Custody n H) (i : Fin n) (h : H) :
    (c.release i h).table = Function.update c.table i none := rfl

@[simp] theorem store_table (c : Custody n H) (i : Fin n) (h : H) (hlive : h ∈ c.live) :
    (c.store i h hlive).table = Function.update c.table i (some h) := rfl

/-- Giving up a resource at its last slot makes it no longer live. -/
theorem release_live_of_last {c : Custody n H} {i : Fin n} {h : H}
    (hlast : ¬ c.table.HeldElsewhere i h) : (c.release i h).live = c.live \ {h} := by
  ext k
  constructor
  · rintro ⟨hlive, hshared⟩
    exact ⟨hlive, fun hk => hlast (hk ▸ hshared hk)⟩
  · rintro ⟨hlive, hne⟩
    exact ⟨hlive, fun hk => absurd hk hne⟩

/-- Emptying one of several slots of a resource keeps it live. -/
theorem release_live_of_shared {c : Custody n H} {i : Fin n} {h : H}
    (hshared : c.table.HeldElsewhere i h) : (c.release i h).live = c.live := by
  ext k
  constructor
  · rintro ⟨hlive, _⟩
    exact hlive
  · intro hlive
    exact ⟨hlive, fun hk => hk ▸ hshared⟩

end Custody
