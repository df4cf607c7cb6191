/-
What a caller gets who reads a whole stream through `my_getdelim`.  The returned length
counts the NUL, and bytes that no delimiter follows are read and dropped.
-/
import UefiLinux.LineBuffer

namespace UefiLinux

/-- Calling `my_getdelim` until it returns -1.  The pieces are the bytes of `*out` that the
returned lengths cut off; the number is that of the bytes which the last call has read. -/
inductive Drains (heap : Heap) (stream : ByteStream) (delim : Int) :
    Reader → List (List UInt8) → Nat → Prop
  | last {s s' : Reader} (hcall : MyGetdelim heap stream delim s s')
      (hresults : s'.results = s.results ++ [-1]) :
      Drains heap stream delim s [] (s'.taken - s.taken)
  | piece {s s' : Reader} {r : Int} {block : List UInt8} {pieces : List (List UInt8)}
      {dropped : Nat} (hcall : MyGetdelim heap stream delim s s')
      (hresults : s'.results = s.results ++ [r]) (hpos : 0 ≤ r)
      (hout : s'.out = some block) (hrest : Drains heap stream delim s' pieces dropped) :
      Drains heap stream delim s (block.take r.toNat :: pieces) dropped

/-- Reading to the end gives the whole stream in pieces that each, but possibly the last,
end in their only delimiter, and the call that returns -1 has read nothing. -/
def ReadsAll (heap : Heap) (bytes : List UInt8) (delim : Int) (size : Nat) : Prop :=
  ∃ pieces, Drains heap (listStream bytes) delim (Reader.start size) pieces 0 ∧
    pieces.flatten = bytes ∧
      ∀ piece ∈ pieces.dropLast, ∃ body,
        piece = body ++ [UInt8.ofInt delim] ∧ UInt8.ofInt delim ∉ body

section Calls

variable {heap : Heap} {stream : ByteStream} {s s' : Reader} {delim : Int}
  {bytes held : List UInt8} {start : Nat}

theorem ByteStream.Holds.length_le (hholds : (listStream bytes).Holds start held)
    (hstart : start ≤ bytes.length) : start + held.length ≤ bytes.length := by
  by_cases hempty : held.length = 0
  · rwa [hempty, Nat.add_zero]
  · have hlast := hholds (held.length - 1) (by omega)
    have hinside : start + (held.length - 1) < bytes.length :=
      (List.getElem?_eq_some_iff.mp hlast).1
    omega

/-- A call that returns -1 has read the stream to its end. -/
theorem MyGetdelim.ended (hrests : s.Rests stream)
    (hcall : MyGetdelim heap stream delim s s')
    (hresults : s'.results = s.results ++ [-1]) :
    stream s'.taken = none ∧
      ∃ held, stream.Holds s.taken held ∧ s'.taken = s.taken + held.length := by
  cases hcall.atPoint hrests with
  | ended held hstored _ hend _ => exact ⟨hend, held, hstored.holds, hstored.taken⟩
  | found segment _ _ _ hfound =>
      have hsame := List.append_cancel_left (hresults.symm.trans hfound)
      rw [List.cons.injEq] at hsame
      omega

/-- The piece that a returned length cuts off is the segment with the NUL. -/
theorem MyGetdelim.take_out (hrests : s.Rests stream)
    (hcall : MyGetdelim heap stream delim s s') {r : Int}
    (hresults : s'.results = s.results ++ [r]) (hpos : 0 ≤ r) {block : List UInt8}
    (hout : s'.out = some block) :
    ∃ segment, IsSegment stream s.taken (UInt8.ofInt delim) segment ∧
      s'.taken = s.taken + segment.length ∧ block.take r.toNat = segment ++ [0] := by
  obtain ⟨segment, hsegment, htaken, ⟨block', hout', _, hbegins⟩, hresults', _⟩ :=
    hcall.segment hrests ⟨r, hresults, hpos⟩
  rw [hout, Option.some.injEq] at hout'
  have hsame := List.append_cancel_left (hresults.symm.trans hresults')
  rw [List.cons.injEq] at hsame
  have hlength : r.toNat = (segment ++ [(0 : UInt8)]).length := by
    rw [List.length_append, List.length_singleton]
    omega
  refine ⟨segment, hsegment, htaken, ?_⟩
  rw [hlength, hout']
  exact (List.prefix_iff_eq_take.mp hbegins).symm

/-- The pieces are longer than what they stand for by a byte each. -/
theorem Drains.length_eq {pieces : List (List UInt8)} {dropped : Nat}
    (hdrains : Drains heap (listStream bytes) delim s pieces dropped)
    (hrests : s.Rests (listStream bytes)) (hbound : s.taken ≤ bytes.length) :
    pieces.flatten.length + s.taken + dropped = bytes.length + pieces.length := by
  induction hdrains with
  | last hcall hresults =>
      obtain ⟨hend, held, hholds, htaken⟩ := hcall.ended hrests hresults
      have hread := hholds.length_le hbound
      have hall := List.getElem?_eq_none_iff.mp hend
      simp only [List.flatten_nil, List.length_nil]
      omega
  | piece hcall hresults hpos hout _ ih =>
      obtain ⟨segment, hsegment, htaken, hpiece⟩ :=
        hcall.take_out hrests hresults hpos hout
      have hread := hsegment.holds.length_le hbound
      have hrest := ih ((hcall.atPoint hrests).rests hcall.2.1) (by omega)
      rw [hpiece, List.flatten_cons, List.length_append, List.length_append,
        List.length_singleton, List.length_cons]
      omega

theorem ReadsAll.eq_nil {size : Nat} (hreads : ReadsAll heap bytes delim size) :
    bytes = [] := by
  obtain ⟨pieces, hdrains, hflatten, _⟩ := hreads
  have hlength := hdrains.length_eq (Reader.start_rests _ size) (Nat.zero_le _)
  have htaken : (Reader.start size).taken = 0 := rfl
  rw [hflatten, htaken] at hlength
  have hnone : pieces = [] := List.eq_nil_of_length_eq_zero (by omega)
  rw [← hflatten, hnone, List.flatten_nil]

/-- At the end of the stream a call returns -1 and has read nothing. -/
theorem drains_of_ended (hrests : s.Rests stream) (hend : stream s.taken = none) :
    Drains heap stream delim s [] 0 := by
  have htaken : (s.enter heap delim).taken = s.taken := s.allocate_taken heap
  have hgo : (s.enter heap delim).go heap stream =
      some ((s.enter heap delim).finish (-1)) := by
    have hbyte : stream (s.enter heap delim).taken = none := by rw [htaken, hend]
    rw [Reader.go]
    simp only [Reader.enter] at hbyte ⊢
    rw [hbyte]
  have hcall : MyGetdelim heap stream delim s ((s.enter heap delim).finish (-1)) :=
    ⟨hrests.outside, rfl, [] ++ [⟨⟩], Run.snoc (Run.nil _) hgo⟩
  have hread : ((s.enter heap delim).finish (-1)).taken - s.taken = 0 := by
    change (s.enter heap delim).taken - s.taken = 0
    rw [htaken, Nat.sub_self]
  rw [← hread]
  exact .last hcall (congrArg (· ++ [-1]) (s.allocate_results heap))

end Calls

/-- Reading a stream line by line gives it back only when there is nothing to read. -/
theorem readsAll_iff_empty (heap : Heap) (bytes : List UInt8) (delim : Int) (size : Nat) :
    ReadsAll heap bytes delim size ↔ bytes = [] := by
  constructor
  · exact ReadsAll.eq_nil
  · rintro rfl
    exact ⟨[], drains_of_ended (Reader.start_rests _ size) rfl, rfl, fun _ hpiece => by
      cases hpiece⟩

/-- A stream of one line does not come back. -/
theorem one_line_is_not_read_back :
    ¬ ∀ (heap : Heap) (bytes : List UInt8) (delim : Int) (size : Nat),
      ReadsAll heap bytes delim size := by
  intro hall
  cases (hall zeroHeap [97, 10] 10 0).eq_nil

end UefiLinux
