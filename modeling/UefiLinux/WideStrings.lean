/-
The conversion to wide strings once more, with every read checked: a read beyond the
object that the input string lies in gives no value.
-/
import UefiLinux.PathNames

namespace UefiLinux

/-- The byte stores of `bstr_to_wstr` on a string that lies in `object`.  The test reads
the byte before it looks at the bound, and the body reads it once more. -/
def bstrStoresChecked (object : List UInt8) :
    (left it : Nat) → Option (List (Nat × UInt8))
  | 0, it => do
      let _ ← object[it]?
      return [(it * 2, 0), (it * 2 + 1, 0)]
  | left + 1, it => do
      let tested ← object[it]?
      if tested = 0 then return [(it * 2, 0), (it * 2 + 1, 0)]
      let byte ← object[it]?
      let rest ← bstrStoresChecked object left (it + 1)
      return (it * 2, byte) :: (it * 2 + 1, 0) :: rest

section Checked

variable {mem : Memory} {path : UInt64} {bytes : List UInt8}

/-- The object of a string ends with its NUL, and memory holds it. -/
theorem IsCString.object_getElem? (hstring : IsCString mem path bytes) {it : Nat}
    (hit : it ≤ bytes.length) :
    (bytes ++ [0])[it]? = some (mem (path + UInt64.ofNat it)) := by
  rcases Nat.lt_or_eq_of_le hit with hlt | rfl
  · rw [List.getElem?_append_left hlt, List.getElem?_eq_getElem hlt, hstring.holds it hlt]
  · rw [List.getElem?_concat_length, hstring.ends]

theorem IsCString.ne_length (hstring : IsCString mem path bytes) {it : Nat}
    (hgo : ¬ mem (path + UInt64.ofNat it) = 0) : it ≠ bytes.length :=
  fun hend => hgo (hend ▸ hstring.ends)

/-- No read of the conversion goes beyond the NUL of its input. -/
theorem IsCString.bstrStoresChecked_eq (hstring : IsCString mem path bytes)
    (left it : Nat) (hit : it ≤ bytes.length) :
    bstrStoresChecked (bytes ++ [0]) left it =
      some (bstrStores (fun i => mem (path + UInt64.ofNat i)) left it) := by
  have hread := hstring.object_getElem? hit
  induction left generalizing it with
  | zero =>
      rw [bstrStoresChecked, hread]
      rfl
  | succ left ih =>
      rw [bstrStoresChecked, bstrStores, hread]
      simp only [Option.bind_eq_bind, Option.bind_some]
      by_cases hend : mem (path + UInt64.ofNat it) = 0
      · rw [if_pos hend, if_pos hend]
        rfl
      · have hnext : it + 1 ≤ bytes.length :=
          Nat.lt_of_le_of_ne hit (hstring.ne_length hend)
        rw [if_neg hend, if_neg hend, ih (it + 1) hnext (hstring.object_getElem? hnext)]
        rfl

end Checked

/-- The conversion of a string of any length, whatever its buffer held: it reads no
further than the NUL of its input, stores inside the buffer only, and leaves the first
510 bytes there, one a unit, and a NUL. -/
theorem bstrToWstr_in_bounds (m : Machine) (path : UInt64) (bytes : List UInt8)
    (hstring : IsCString m.mem path bytes) :
    bstrStoresChecked (bytes ++ [0]) wideLimit 0 = some (m.pathStores path) ∧
      (∀ s ∈ m.pathStores path, s.1 < 1024) ∧
      (bstrToWstr path).run m = .ok (m.widePath path) (m.convert path) ∧
      m.widePath path = widened (bytes.take 510) ∧
      ∃ rest, fresUnits (m.convert path).fres = widened (bytes.take 510) ++ 0 :: rest :=
  ⟨hstring.bstrStoresChecked_eq wideLimit 0 (Nat.zero_le _),
    bstrStores_index_lt _ wideLimit 0 (Nat.le_refl wideLimit), bstrToWstr_run path m,
    widePath_eq hstring, convert_units hstring⟩

/-- A buffer full of sevens, and a string longer than it can hold. -/
def sevens : Machine :=
  { Machine.blank with mem := letters 600, fres := fun _ => 7 }

theorem bstrToWstr_in_bounds_sevens :
    bstrStoresChecked (List.replicate 600 97 ++ [0]) wideLimit 0 =
        some (sevens.pathStores 0) ∧
      (∀ s ∈ sevens.pathStores 0, s.1 < 1024) ∧
      (bstrToWstr 0).run sevens = .ok (sevens.widePath 0) (sevens.convert 0) ∧
      sevens.widePath 0 = widened ((List.replicate 600 97).take 510) ∧
      ∃ rest, fresUnits (sevens.convert 0).fres =
        widened ((List.replicate 600 97).take 510) ++ 0 :: rest :=
  bstrToWstr_in_bounds sevens 0 (List.replicate 600 97) (letters_isCString (by decide))

end UefiLinux
