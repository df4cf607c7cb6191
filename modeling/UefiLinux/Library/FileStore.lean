/-
Open files over shared contents: a handle names a file and has a position of its own in
it.  Reading gives the bytes ahead, writing replaces them or extends the file, and both
can be done in pieces.
-/
import Mathlib.Logic.Function.Basic
import Mathlib.Order.Defs.LinearOrder

universe u v

/-- Handles with their positions, and the contents of the files they name. -/
structure FileStore (H : Type u) (N : Type v) where
  file : H → N
  contents : N → List UInt8
  position : H → Nat

namespace FileStore

variable {H : Type u} {N : Type v}

/-- The contents of the file that a handle names. -/
def bytes (s : FileStore H N) (h : H) : List UInt8 := s.contents (s.file h)

/-- The bytes that a read of so many gives. -/
def ahead (s : FileStore H N) (h : H) (count : Nat) : List UInt8 :=
  ((s.bytes h).drop (s.position h)).take count

section Positions

variable [DecidableEq H]

def moveTo (s : FileStore H N) (h : H) (target : Nat) : FileStore H N :=
  { s with position := Function.update s.position h target }

@[simp] theorem moveTo_bytes (s : FileStore H N) (h k : H) (target : Nat) :
    (s.moveTo h target).bytes k = s.bytes k := rfl

@[simp] theorem moveTo_position (s : FileStore H N) (h : H) (target : Nat) :
    (s.moveTo h target).position h = target := by simp [moveTo]

theorem moveTo_position_of_ne (s : FileStore H N) {h k : H} (hne : k ≠ h) (target : Nat) :
    (s.moveTo h target).position k = s.position k := by
  simp [moveTo, hne]

theorem moveTo_moveTo (s : FileStore H N) (h : H) (first second : Nat) :
    (s.moveTo h first).moveTo h second = s.moveTo h second := by
  simp [moveTo]

@[simp] theorem moveTo_self (s : FileStore H N) (h : H) : s.moveTo h (s.position h) = s := by
  simp [moveTo]

theorem ahead_moveTo (s : FileStore H N) (h : H) (target count : Nat) :
    (s.moveTo h target).ahead h count = ((s.bytes h).drop target).take count := by
  rw [ahead, moveTo_position, moveTo_bytes]

/-- A handle is put at the start of a file. -/
def openAt (s : FileStore H N) (h : H) (n : N) : FileStore H N :=
  { s with file := Function.update s.file h n, position := Function.update s.position h 0 }

theorem openAt_file_of_ne (s : FileStore H N) {h k : H} (hne : k ≠ h) (n : N) :
    (s.openAt h n).file k = s.file k := by
  simp [openAt, hne]

theorem openAt_own_file (s : FileStore H N) (h : H) : s.openAt h (s.file h) = s.moveTo h 0 := by
  simp [openAt, moveTo]

/-- The store after a read of so many bytes. -/
def afterRead (s : FileStore H N) (h : H) (count : Nat) : FileStore H N :=
  s.moveTo h (s.position h + (s.ahead h count).length)

/-- The store after data was written through a handle: the data is at its position, what
lies beside it is kept, and the file has grown to its end if it was shorter.  What is in
a gap behind the old end is left open. -/
structure Wrote (s : FileStore H N) (h : H) (data : List UInt8) (s' : FileStore H N) :
    Prop where
  file : s'.file = s.file
  position : s'.position = Function.update s.position h (s.position h + data.length)
  others : ∀ n, n ≠ s.file h → s'.contents n = s.contents n
  size : (s'.bytes h).length =
    if data = [] then (s.bytes h).length
    else max (s.bytes h).length (s.position h + data.length)
  written : ∀ i < data.length, (s'.bytes h)[s.position h + i]? = data[i]?
  kept : ∀ i < (s.bytes h).length, i < s.position h ∨ s.position h + data.length ≤ i →
    (s'.bytes h)[i]? = (s.bytes h)[i]?

end Positions

section Writes

variable [DecidableEq H] {s s' s'' : FileStore H N} {h k : H} {data more : List UInt8}

theorem Wrote.position_self (hwrote : s.Wrote h data s') :
    s'.position h = s.position h + data.length := by
  rw [hwrote.position, Function.update_self]

theorem Wrote.position_of_ne (hwrote : s.Wrote h data s') (hne : k ≠ h) :
    s'.position k = s.position k := by
  rw [hwrote.position, Function.update_of_ne hne]

/-- Writing nothing changes nothing. -/
theorem Wrote.refl (s : FileStore H N) (h : H) : s.Wrote h [] s := by
  refine ⟨rfl, ?_, fun _ _ => rfl, rfl, ?_, fun _ _ _ => rfl⟩
  · simp
  · intro i hi
    cases hi

/-- What was written is read back through every handle on the file. -/
theorem Wrote.readBack (hwrote : s.Wrote h data s') (hsame : s.file k = s.file h) :
    (s'.moveTo k (s.position h)).ahead k data.length = data := by
  have hbytes : s'.bytes k = s'.bytes h := by
    rw [bytes, bytes, hwrote.file, hsame]
  rw [ahead_moveTo, hbytes]
  apply List.ext_getElem?
  intro i
  by_cases hi : i < data.length
  · rw [List.getElem?_take_of_lt hi, List.getElem?_drop, hwrote.written i hi]
  · rw [List.getElem?_eq_none (Nat.le_trans (List.length_take_le _ _) (Nat.le_of_not_lt hi)),
      List.getElem?_eq_none (Nat.le_of_not_lt hi)]

/-- A file is never shortened. -/
theorem Wrote.length_le (hwrote : s.Wrote h data s') :
    (s.bytes h).length ≤ (s'.bytes h).length := by
  rw [hwrote.size]
  split
  · exact Nat.le_refl _
  · exact Nat.le_max_left _ _

theorem Wrote.end_le (hwrote : s.Wrote h data s') (hdata : data ≠ []) :
    s.position h + data.length ≤ (s'.bytes h).length := by
  rw [hwrote.size, if_neg hdata]
  exact Nat.le_max_right _ _

/-- Writing one piece after the other is writing them together. -/
theorem Wrote.append (hfirst : s.Wrote h data s') (hsecond : s'.Wrote h more s'') :
    s.Wrote h (data ++ more) s'' := by
  have hbytes : s'.file h = s.file h := by rw [hfirst.file]
  have hstart := hfirst.position_self
  refine ⟨hsecond.file.trans hfirst.file, ?_, ?_, ?_, ?_, ?_⟩
  · rw [hsecond.position, hstart, hfirst.position, Function.update_idem, List.length_append,
      Nat.add_assoc]
  · intro n hn
    rw [hsecond.others n (by rwa [hbytes]), hfirst.others n hn]
  · rw [hsecond.size, hfirst.size, hstart, List.length_append]
    cases data with
    | nil => simp
    | cons byte rest =>
        cases more with
        | nil => simp
        | cons byte' rest' =>
            simp only [reduceCtorEq, ↓reduceIte, List.cons_append]
            omega
  · intro i hi
    rw [List.length_append] at hi
    by_cases hleft : i < data.length
    · have hdata : data ≠ [] := List.ne_nil_of_length_pos (Nat.zero_lt_of_lt hleft)
      have hend := hfirst.end_le hdata
      rw [hsecond.kept _ (by omega) (Or.inl (by omega)), hfirst.written i hleft,
        List.getElem?_append_left hleft]
    · have hright := hsecond.written (i - data.length) (by omega)
      have hindex : s.position h + data.length + (i - data.length) = s.position h + i := by omega
      rw [hstart, hindex] at hright
      rw [hright, List.getElem?_append_right (Nat.le_of_not_lt hleft)]
  · intro i hi hbeside
    rw [List.length_append] at hbeside
    have hlength := hfirst.length_le
    rw [hsecond.kept i (by omega) (by omega), hfirst.kept i hi (by omega)]

/-- A write does not depend on where other handles are open at. -/
theorem Wrote.of_moveTo {target : Nat} (hne : k ≠ h)
    (hwrote : (s.moveTo k target).Wrote h data s') :
    ∃ t, s.Wrote h data t ∧ s' = t.moveTo k target := by
  have hposition : (s.moveTo k target).position h = s.position h :=
    moveTo_position_of_ne s hne.symm target
  refine ⟨s'.moveTo k (s.position k), ⟨hwrote.file, ?_, hwrote.others, hwrote.size.trans ?_,
    fun i hi => ?_, fun i hi hbeside => ?_⟩, ?_⟩
  · have hmoved := hwrote.position
    rw [hposition] at hmoved
    funext j
    by_cases hj : j = k
    · subst hj
      rw [moveTo_position, Function.update_of_ne hne]
    · rw [moveTo_position_of_ne s' hj, hmoved]
      by_cases hjh : j = h
      · subst hjh
        rw [Function.update_self, Function.update_self]
      · rw [Function.update_of_ne hjh, Function.update_of_ne hjh, moveTo_position_of_ne s hj]
  · rw [hposition]
    rfl
  · rw [moveTo_bytes, ← hwrote.written i hi, hposition]
  · rw [← hposition] at hbeside
    rw [moveTo_bytes, hwrote.kept i hi hbeside]
    rfl
  · rw [moveTo_moveTo]
    have hlast : s'.position k = target := by
      rw [hwrote.position_of_ne hne, moveTo_position]
    rw [← hlast, moveTo_self]

end Writes

section Write

variable [DecidableEq H] [DecidableEq N]

/-- The list with data put over it from a place on, a gap filled with zeros. -/
def overwrite (old : List UInt8) (place : Nat) (data : List UInt8) : List UInt8 :=
  if data = [] then old
  else (old ++ List.replicate (place - old.length) 0).take place ++ data ++
    old.drop (place + data.length)

/-- A write that fills gaps with zeros. -/
def write (s : FileStore H N) (h : H) (data : List UInt8) : FileStore H N :=
  { s.moveTo h (s.position h + data.length) with
    contents := Function.update s.contents (s.file h)
      (overwrite (s.bytes h) (s.position h) data) }

theorem write_wrote (s : FileStore H N) (h : H) (data : List UInt8) :
    s.Wrote h data (s.write h data) := by
  have hbytes : (s.write h data).bytes h = overwrite (s.bytes h) (s.position h) data :=
    Function.update_self _ _ _
  have hfront : ((s.bytes h ++ List.replicate (s.position h - (s.bytes h).length) 0).take
      (s.position h)).length = s.position h := by
    simp only [List.length_take, List.length_append, List.length_replicate]
    omega
  refine ⟨rfl, rfl, fun n hn => Function.update_of_ne hn _ _, ?_, fun i hi => ?_,
    fun i hi hbeside => ?_⟩
  · rw [hbytes, overwrite]
    split
    · rfl
    · rw [List.length_append, List.length_append, hfront, List.length_drop]
      omega
  · have hdata : data ≠ [] := List.ne_nil_of_length_pos (Nat.zero_lt_of_lt hi)
    rw [hbytes, overwrite, if_neg hdata, List.append_assoc,
      List.getElem?_append_right (by omega), hfront, Nat.add_sub_cancel_left,
      List.getElem?_append_left hi]
  · rw [hbytes, overwrite]
    split
    · rfl
    · rcases hbeside with hbefore | hbehind
      · rw [List.append_assoc, List.getElem?_append_left (by omega),
          List.getElem?_take_of_lt hbefore, List.getElem?_append_left hi]
      · have hindex : s.position h + data.length + (i - (s.position h + data.length)) = i := by
          omega
        rw [List.getElem?_append_right (by simpa [hfront] using hbehind), List.length_append,
          hfront, List.getElem?_drop, hindex]

end Write

end FileStore
