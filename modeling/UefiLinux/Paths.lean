/-
The conversion of a byte string into the static wide-character buffer, and what
every conversion leaves in the machine.
-/
import UefiLinux.Machine

namespace UefiLinux

open Progress Journal

/-- `sizeof(fres)/2 - 2` -/
def wideLimit : Nat := 510

/-- The byte stores of `bstr_to_wstr`, in order, when `left` more characters may
be copied and `it` have been.  Two bytes go in per character, and two zero bytes
after the last. -/
def bstrStores (input : Nat → UInt8) : (left it : Nat) → List (Nat × UInt8)
  | 0, it => [(it * 2, 0), (it * 2 + 1, 0)]
  | left + 1, it =>
      if input it = 0 then [(it * 2, 0), (it * 2 + 1, 0)]
      else (it * 2, input it) :: (it * 2 + 1, 0) :: bstrStores input left (it + 1)

theorem bstrStores_index_lt (input : Nat → UInt8) (left it : Nat)
    (hlimit : it + left ≤ wideLimit) :
    ∀ s ∈ bstrStores input left it, s.1 < 1024 := by
  induction left generalizing it with
  | zero =>
      intro s hs
      simp only [wideLimit] at hlimit
      simp only [bstrStores, List.mem_cons, List.not_mem_nil, or_false] at hs
      rcases hs with rfl | rfl
      · change it * 2 < 1024
        omega
      · change it * 2 + 1 < 1024
        omega
  | succ left ih =>
      have hrest := ih (it + 1) (by omega)
      intro s hs
      simp only [wideLimit] at hlimit
      by_cases hend : input it = 0
      · simp only [bstrStores, hend, ↓reduceIte, List.mem_cons,
          List.not_mem_nil, or_false] at hs
        rcases hs with rfl | rfl
        · change it * 2 < 1024
          omega
        · change it * 2 + 1 < 1024
          omega
      · simp only [bstrStores, hend, ↓reduceIte, List.mem_cons] at hs
        rcases hs with rfl | rfl | hs
        · change it * 2 < 1024
          omega
        · change it * 2 + 1 < 1024
          omega
        · exact hrest s hs

/-- Store one byte of the static buffer; a store outside it is undefined. -/
def fresStore (s : Nat × UInt8) : M PUnit :=
  if h : s.1 < 1024 then
    modify fun m => { m with fres := Function.update m.fres ⟨s.1, h⟩ s.2 }
  else throw (.fault (.fresIndex s.1))

/-- The UTF-16 units of the buffer up to the first NUL unit. -/
def wideUnits (fres : Fin 1024 → UInt8) : List UInt16 :=
  ((List.finRange 512).map fun (i : Fin 512) =>
    (fres ⟨i.1 * 2, by omega⟩).toUInt16 |||
      (fres ⟨i.1 * 2 + 1, by omega⟩).toUInt16 <<< 8).takeWhile (· ≠ 0)

/-- The byte stores a conversion of the string at `input` makes. -/
def Machine.pathStores (m : Machine) (input : UInt64) : List (Nat × UInt8) :=
  bstrStores (fun i => m.mem (input + UInt64.ofNat i)) wideLimit 0

/-- `bstr_to_wstr`, with the string the returned pointer points at. -/
def bstrToWstr (input : UInt64) : M (List UInt16) := do
  let m : Machine ← get
  (m.pathStores input).forM fresStore
  let m : Machine ← get
  return wideUnits m.fres

/-- The static buffer after a list of stores inside it. -/
def fresAfter (fres : Fin 1024 → UInt8) (stores : List (Nat × UInt8)) :
    Fin 1024 → UInt8 :=
  stores.foldl
    (fun b s => if h : s.1 < 1024 then Function.update b ⟨s.1, h⟩ s.2 else b) fres

theorem forM_fresStore_run (stores : List (Nat × UInt8)) (m : Machine)
    (hin : ∀ s ∈ stores, s.1 < 1024) :
    (stores.forM fresStore).run m =
      .ok ⟨⟩ { m with fres := fresAfter m.fres stores } := by
  induction stores generalizing m with
  | nil => rfl
  | cons s rest ih =>
      have hs : s.1 < 1024 := hin s List.mem_cons_self
      have hrest := fun s' hs' => hin s' (List.mem_cons_of_mem s hs')
      change (fresStore s >>= fun _ => rest.forM fresStore).run m = _
      rw [EStateM.run_bind, fresStore, dif_pos hs, EStateM.run_modify]
      simp only [ih _ hrest, fresAfter, List.foldl_cons, dif_pos hs]

/-- The machine after a path conversion: only the static buffer has changed. -/
def Machine.convert (m : Machine) (input : UInt64) : Machine :=
  { m with fres := fresAfter m.fres (m.pathStores input) }

/-- The string a path conversion produces in a machine. -/
def Machine.widePath (m : Machine) (input : UInt64) : List UInt16 :=
  wideUnits (m.convert input).fres

@[simp] theorem Machine.convert_fds (m : Machine) (input : UInt64) :
    (m.convert input).fds = m.fds := rfl

@[simp] theorem Machine.convert_trace (m : Machine) (input : UInt64) :
    (m.convert input).trace = m.trace := rfl

@[simp] theorem Machine.convert_mem (m : Machine) (input : UInt64) :
    (m.convert input).mem = m.mem := rfl

/-- A path conversion always returns, whatever the string and the buffer. -/
theorem bstrToWstr_run (input : UInt64) (m : Machine) :
    (bstrToWstr input).run m = .ok (m.widePath input) (m.convert input) := by
  have hin : ∀ s ∈ m.pathStores input, s.1 < 1024 :=
    bstrStores_index_lt _ wideLimit 0 (by simp)
  unfold bstrToWstr
  simp only [EStateM.run_bind, EStateM.run_get, forM_fresStore_run _ m hin,
    EStateM.run_pure]
  rfl

end UefiLinux
