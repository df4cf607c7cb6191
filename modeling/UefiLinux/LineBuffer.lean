/-
The block of `my_getdelim`.  It always has one byte more than `*out_size` says, and it
starts with the bytes of the current segment; what a longer old block holds behind them
does not matter.
-/
import UefiLinux.Getdelim

namespace UefiLinux

section Segments

variable {stream : ByteStream} {start : Nat} {delim c : UInt8} {bytes held segment : List UInt8}

/-- The stream delivers these bytes from the given place on. -/
def ByteStream.Holds (stream : ByteStream) (start : Nat) (bytes : List UInt8) : Prop :=
  ∀ i (hi : i < bytes.length), stream (start + i) = some bytes[i]

theorem ByteStream.Holds.snoc (hholds : stream.Holds start bytes)
    (hnext : stream (start + bytes.length) = some c) :
    stream.Holds start (bytes ++ [c]) := by
  intro i hi
  rw [List.length_append, List.length_singleton] at hi
  by_cases hold : i < bytes.length
  · rw [List.getElem_append_left hold]
    exact hholds i hold
  · have hlast : i = bytes.length := by omega
    subst hlast
    rw [List.getElem_concat_length rfl]
    exact hnext

theorem ByteStream.Holds.of_append {more : List UInt8}
    (hholds : stream.Holds start (bytes ++ more)) : stream.Holds start bytes := by
  intro i hi
  have hbyte := hholds i (by rw [List.length_append]; omega)
  rwa [List.getElem_append_left hi] at hbyte

/-- The next segment of a stream: the bytes up to the first delimiter, which is its
last. -/
structure IsSegment (stream : ByteStream) (start : Nat) (delim : UInt8)
    (segment : List UInt8) : Prop where
  holds : stream.Holds start segment
  ends : ∃ body, segment = body ++ [delim] ∧ delim ∉ body

theorem IsSegment.length_pos (hsegment : IsSegment stream start delim segment) :
    0 < segment.length := by
  obtain ⟨body, rfl, _⟩ := hsegment.ends
  rw [List.length_append]
  exact Nat.succ_pos _

/-- Bytes without a delimiter do not reach the end of the segment. -/
theorem IsSegment.length_lt (hsegment : IsSegment stream start delim segment)
    (hheld : stream.Holds start held) (hnone : delim ∉ held) :
    held.length < segment.length := by
  obtain ⟨body, rfl, _⟩ := hsegment.ends
  refine Nat.lt_of_not_le fun hlong => ?_
  rw [List.length_append, List.length_singleton] at hlong
  have hat : body.length < held.length := hlong
  have hsame := (hheld body.length hat).symm.trans
    (hsegment.holds body.length (by rw [List.length_append]; exact Nat.lt_succ_self _))
  rw [List.getElem_concat_length rfl, Option.some.injEq] at hsame
  exact hnone (hsame ▸ List.getElem_mem hat)

theorem IsSegment.length_le {segment' : List UInt8}
    (hsegment : IsSegment stream start delim segment)
    (hsegment' : IsSegment stream start delim segment') :
    segment.length ≤ segment'.length := by
  obtain ⟨body, rfl, hnone⟩ := hsegment.ends
  rw [List.length_append, List.length_singleton]
  exact hsegment'.length_lt hsegment.holds.of_append hnone

/-- There is only one next segment. -/
theorem IsSegment.unique {segment' : List UInt8}
    (hsegment : IsSegment stream start delim segment)
    (hsegment' : IsSegment stream start delim segment') : segment = segment' := by
  apply List.ext_getElem
  · exact Nat.le_antisymm (hsegment.length_le hsegment') (hsegment'.length_le hsegment)
  · intro i hi hi'
    exact Option.some.inj ((hsegment.holds i hi).symm.trans (hsegment'.holds i hi'))

end Segments

section Block

variable {heap : Heap} {s : Reader} {bytes : List UInt8}

/-- The block, when there is one, has a byte more than `*out_size`. -/
def Reader.Sized (s : Reader) : Prop :=
  ∀ block, s.out = some block → block.length = s.outSize + 1

/-- There is a block of that size, and it starts with the given bytes. -/
def Reader.Starts (s : Reader) (bytes : List UInt8) : Prop :=
  ∃ block, s.out = some block ∧ block.length = s.outSize + 1 ∧ bytes <+: block

theorem Reader.Starts.sized (hstarts : s.Starts bytes) : s.Sized := by
  obtain ⟨block, hout, hlength, _⟩ := hstarts
  intro block' hout'
  rw [hout, Option.some.injEq] at hout'
  rw [← hout', hlength]

theorem Reader.Sized.allocate (hsized : s.Sized) : (s.allocate heap).Starts [] := by
  rw [Reader.allocate]
  cases hout : s.out with
  | none => exact ⟨_, rfl, heap.malloc_length _ _, List.nil_prefix⟩
  | some block => exact ⟨block, hout, hsized block hout, List.nil_prefix⟩

theorem Reader.Starts.grow (hstarts : s.Starts bytes) : (s.grow heap).Starts bytes := by
  obtain ⟨block, hout, hlength, hbegins⟩ := hstarts
  refine ⟨_, rfl, heap.realloc_length _ _ _, ?_⟩
  have hkept : block <+: heap.realloc s.taken block (s.outSize + 1 + 1) := by
    have htake := List.take_prefix block.length
      (heap.realloc s.taken block (s.outSize + 1 + 1))
    rwa [heap.realloc_take _ _ _ (by omega)] at htake
  rw [hout, Option.getD_some]
  exact hbegins.trans hkept

/-- The byte behind a prefix becomes part of it. -/
theorem prefix_set {block : List UInt8} (c : UInt8) (hbegins : bytes <+: block)
    (hroom : bytes.length < block.length) :
    bytes ++ [c] <+: block.set bytes.length c := by
  obtain ⟨rest, rfl⟩ := hbegins
  cases rest with
  | nil =>
      rw [List.append_nil] at hroom
      exact absurd hroom (Nat.lt_irrefl _)
  | cons byte rest => exact ⟨rest, by simp⟩

/-- A store behind the bytes is inside the block and adds to them. -/
theorem Reader.Starts.store (hstarts : s.Starts bytes) (hroom : bytes.length ≤ s.outSize)
    (c : UInt8) (next : Point) :
    ∃ block, s.store bytes.length c next = { s with out := some block, point := next } ∧
      Reader.Starts { s with out := some block, point := next } (bytes ++ [c]) := by
  obtain ⟨block, hout, hlength, hbegins⟩ := hstarts
  have hinside : bytes.length < block.length := by omega
  refine ⟨block.set bytes.length c, ?_, _, rfl, ?_, prefix_set c hbegins hinside⟩
  · rw [Reader.store, hout]
    exact if_pos hinside
  · rw [List.length_set, hlength]

end Block

/-- A call as it was entered, with `*out_size` once there is a block. -/
structure Entry where
  delim : UInt8
  start : Nat
  size : Nat
  results : List Int

/-- A call has stored these bytes of the stream, has read `ahead` bytes more, and has made
room for as many as `room` more. -/
structure Stored (stream : ByteStream) (e : Entry) (s : Reader) (held : List UInt8)
    (ahead room : Nat) : Prop where
  starts : s.Starts held
  holds : stream.Holds e.start held
  taken : s.taken = e.start + held.length + ahead
  size : s.outSize = max e.size (held.length + room)

/-- Once there is room, the byte that has been read is stored behind the others. -/
theorem Stored.add {stream : ByteStream} {e : Entry} {s : Reader} {held : List UInt8}
    {c : UInt8} (hstored : Stored stream e s held 1 1)
    (hnext : stream (e.start + held.length) = some c) (next : Point) :
    ∃ block, s.store held.length c next = { s with out := some block, point := next } ∧
      Stored stream e { s with out := some block, point := next } (held ++ [c]) 0 0 := by
  have hroom : held.length ≤ s.outSize := by
    have hsize := hstored.size
    omega
  have hlength : (held ++ [c]).length = held.length + 1 := List.length_append
  obtain ⟨block, hstore, hstarts⟩ := hstored.starts.store hroom c next
  refine ⟨block, hstore, hstarts, hstored.holds.snoc hnext, ?_, ?_⟩
  · rw [hlength]
    exact hstored.taken
  · rw [hlength]
    exact hstored.size

/-- What holds of a call at each of its points. -/
inductive AtPoint (stream : ByteStream) (e : Entry) (s : Reader) : Point → Prop
  | reading (held : List UInt8) (hstored : Stored stream e s held 0 0)
      (hnone : e.delim ∉ held) (hresults : s.results = e.results) :
      AtPoint stream e s (.reading e.delim held.length)
  | growing (held : List UInt8) (c : UInt8) (hstored : Stored stream e s held 1 0)
      (hnext : stream (e.start + held.length) = some c) (hnone : e.delim ∉ held)
      (hresults : s.results = e.results) :
      AtPoint stream e s (.growing e.delim held.length c)
  | storing (held : List UInt8) (c : UInt8) (hstored : Stored stream e s held 1 1)
      (hnext : stream (e.start + held.length) = some c) (hnone : e.delim ∉ held)
      (hresults : s.results = e.results) :
      AtPoint stream e s (.storing e.delim held.length c)
  | terminating (segment : List UInt8) (hstored : Stored stream e s segment 0 0)
      (hsegment : IsSegment stream e.start e.delim segment)
      (hresults : s.results = e.results) :
      AtPoint stream e s (.terminating segment.length)
  | returning (segment : List UInt8) (hstored : Stored stream e s segment 0 0)
      (hsegment : IsSegment stream e.start e.delim segment)
      (hclosed : s.Starts (segment ++ [0])) (hresults : s.results = e.results) :
      AtPoint stream e s (.returning segment.length)
  | ended (held : List UInt8) (hstored : Stored stream e s held 0 0)
      (hnone : e.delim ∉ held) (hend : stream s.taken = none)
      (hresults : s.results = e.results ++ [-1]) : AtPoint stream e s .outside
  | found (segment : List UInt8) (hstored : Stored stream e s segment 0 0)
      (hsegment : IsSegment stream e.start e.delim segment)
      (hclosed : s.Starts (segment ++ [0]))
      (hresults : s.results = e.results ++ [(segment.length : Int) + 1]) :
      AtPoint stream e s .outside

/-- The number of actions that a call has before it when its segment has this length. -/
def remaining (length : Nat) : Point → Nat
  | .reading _ outIdx => 3 * (length - outIdx) + 3
  | .growing _ outIdx _ => 3 * (length - outIdx) + 2
  | .storing _ outIdx _ => 3 * (length - outIdx) + 1
  | .terminating _ => 2
  | .returning _ => 1
  | .outside | .fault => 0

section Actions

variable {heap : Heap} {stream : ByteStream} {e : Entry} {s : Reader}

/-- The next action leads to a point where the call is in order and nearer to its end. -/
def Advances (heap : Heap) (stream : ByteStream) (e : Entry) (s : Reader) : Prop :=
  ∃ s', s.go heap stream = some s' ∧ AtPoint stream e s' s'.point ∧
    ∀ segment, IsSegment stream e.start e.delim segment →
      remaining segment.length s'.point < remaining segment.length s.point

variable {held segment : List UInt8} {c : UInt8}

/-- A byte is read, or the stream has ended. -/
theorem Stored.advances_reading (hstored : Stored stream e s held 0 0)
    (hnone : e.delim ∉ held) (hresults : s.results = e.results)
    (hpoint : s.point = .reading e.delim held.length) : Advances heap stream e s := by
  rw [Advances, Reader.go, hpoint]
  cases hbyte : stream s.taken with
  | none =>
      refine ⟨_, rfl, .ended held ⟨hstored.starts, hstored.holds, hstored.taken,
        hstored.size⟩ hnone hbyte (congrArg (· ++ [-1]) hresults), ?_⟩
      intro segment _
      exact Nat.succ_pos _
  | some c =>
      have hnext : stream (e.start + held.length) = some c := by
        rw [← hbyte, hstored.taken, Nat.add_zero]
      refine ⟨_, rfl, .growing held c ⟨hstored.starts, hstored.holds,
        congrArg (· + 1) hstored.taken, hstored.size⟩ hnext hnone hresults, ?_⟩
      intro segment _
      exact Nat.lt_succ_self _

/-- The block is made larger when the byte that has been read has no room in it. -/
theorem Stored.advances_growing (hstored : Stored stream e s held 1 0)
    (hnext : stream (e.start + held.length) = some c) (hnone : e.delim ∉ held)
    (hresults : s.results = e.results)
    (hpoint : s.point = .growing e.delim held.length c) : Advances heap stream e s := by
  have hsize := hstored.size
  rw [Advances, Reader.go, hpoint]
  by_cases hfull : s.outSize < held.length + 1
  · simp only [if_pos hfull]
    refine ⟨_, rfl, .storing held c ⟨hstored.starts.grow, hstored.holds, hstored.taken,
      ?_⟩ hnext hnone hresults, ?_⟩
    · change s.outSize + 1 = _
      omega
    · intro segment _
      exact Nat.lt_succ_self _
  · simp only [if_neg hfull]
    refine ⟨_, rfl, .storing held c ⟨hstored.starts, hstored.holds, hstored.taken,
      ?_⟩ hnext hnone hresults, ?_⟩
    · change s.outSize = _
      omega
    · intro segment _
      exact Nat.lt_succ_self _

/-- The byte is stored, and the segment is whole when it is the delimiter. -/
theorem Stored.advances_storing (hstored : Stored stream e s held 1 1)
    (hnext : stream (e.start + held.length) = some c) (hnone : e.delim ∉ held)
    (hresults : s.results = e.results)
    (hpoint : s.point = .storing e.delim held.length c) : Advances heap stream e s := by
  have hlength : (held ++ [c]).length = held.length + 1 := List.length_append
  have hshorter : ∀ segment, IsSegment stream e.start e.delim segment →
      held.length < segment.length := fun segment hsegment =>
    hsegment.length_lt hstored.holds hnone
  rw [Advances, Reader.go, hpoint]
  by_cases hdelim : c = e.delim
  · obtain ⟨block, hstore, hadded⟩ := hstored.add hnext (.terminating (held.length + 1))
    simp only [if_pos hdelim, hstore]
    refine ⟨_, rfl, ?_, ?_⟩
    · rw [← hlength] at hadded ⊢
      exact .terminating (held ++ [c]) hadded
        ⟨hadded.holds, held, by rw [hdelim], hnone⟩ hresults
    · intro segment hsegment
      have hmore := hshorter segment hsegment
      simp only [remaining]
      omega
  · obtain ⟨block, hstore, hadded⟩ :=
      hstored.add hnext (.reading e.delim (held.length + 1))
    have hfresh : e.delim ∉ held ++ [c] := by
      rw [List.mem_append, List.mem_singleton]
      exact not_or.mpr ⟨hnone, fun hsame => hdelim hsame.symm⟩
    simp only [if_neg hdelim, hstore]
    refine ⟨_, rfl, ?_, ?_⟩
    · rw [← hlength] at hadded ⊢
      exact .reading (held ++ [c]) hadded hfresh hresults
    · intro segment hsegment
      have hmore := hshorter segment hsegment
      simp only [remaining]
      omega

/-- The NUL goes behind the segment. -/
theorem Stored.advances_terminating (hstored : Stored stream e s segment 0 0)
    (hsegment : IsSegment stream e.start e.delim segment)
    (hresults : s.results = e.results)
    (hpoint : s.point = .terminating segment.length) : Advances heap stream e s := by
  have hroom : segment.length ≤ s.outSize := by
    have hsize := hstored.size
    omega
  obtain ⟨block, hstore, hstarts⟩ :=
    hstored.starts.store hroom 0 (.returning segment.length)
  rw [Advances, Reader.go, hpoint]
  simp only [hstore]
  refine ⟨_, rfl, .returning segment ⟨?_, hstored.holds, hstored.taken, hstored.size⟩
    hsegment hstarts hresults, ?_⟩
  · obtain ⟨block', hout, hsized, hclosed⟩ := hstarts
    exact ⟨block', hout, hsized, (List.prefix_append _ _).trans hclosed⟩
  · intro segment' _
    exact Nat.lt_succ_self _

/-- A call goes on from each of its points to a point where it is again in order. -/
theorem AtPoint.advance (hat : AtPoint stream e s s.point) (hinside : s.point ≠ .outside) :
    Advances heap stream e s := by
  generalize hpoint : s.point = point at hat hinside
  cases hat with
  | reading held hstored hnone hresults =>
      exact hstored.advances_reading hnone hresults hpoint
  | growing held c hstored hnext hnone hresults =>
      exact hstored.advances_growing hnext hnone hresults hpoint
  | storing held c hstored hnext hnone hresults =>
      exact hstored.advances_storing hnext hnone hresults hpoint
  | terminating segment hstored hsegment hresults =>
      exact hstored.advances_terminating hsegment hresults hpoint
  | returning segment hstored hsegment hclosed hresults =>
      rw [Advances, Reader.go, hpoint]
      refine ⟨_, rfl, .found segment ⟨hstored.starts, hstored.holds, hstored.taken,
        hstored.size⟩ hsegment hclosed (congrArg (· ++ [(segment.length : Int) + 1])
          hresults), ?_⟩
      intro segment' _
      exact Nat.succ_pos _
  | ended => exact absurd rfl hinside
  | found => exact absurd rfl hinside

theorem AtPoint.sized {point : Point} (hat : AtPoint stream e s point) : s.Sized := by
  cases hat with
  | reading _ hstored => exact hstored.starts.sized
  | growing _ _ hstored => exact hstored.starts.sized
  | storing _ _ hstored => exact hstored.starts.sized
  | terminating _ hstored => exact hstored.starts.sized
  | returning _ hstored => exact hstored.starts.sized
  | ended _ hstored => exact hstored.starts.sized
  | found _ hstored => exact hstored.starts.sized

theorem AtPoint.ne_fault {point : Point} (hat : AtPoint stream e s point) :
    point ≠ .fault := by
  rintro rfl
  cases hat

/-- A call in order stays in order. -/
theorem AtPoint.go {s' : Reader} (hat : AtPoint stream e s s.point)
    (hgo : s.go heap stream = some s') : AtPoint stream e s' s'.point := by
  by_cases houtside : s.point = .outside
  · rw [Reader.go, houtside] at hgo
    cases hgo
  · obtain ⟨s₁, hgo₁, hat₁, _⟩ := hat.advance houtside
    rw [hgo, Option.some.injEq] at hgo₁
    exact hgo₁ ▸ hat₁

end Actions

section Sessions

variable {heap : Heap} {stream : ByteStream} {e : Entry} {s s' : Reader} {delim : Int}

/-- Between the calls the block has its size; and as long as no call has found its
delimiter, there is no block yet or no more input. -/
structure Reader.Rests (stream : ByteStream) (s : Reader) : Prop where
  outside : s.point = .outside
  sized : s.Sized
  unfound : (∀ r ∈ s.results, r < 0) → s.out = none ∨ stream s.taken = none

/-- The reader rests, or a call is in order. -/
def Reader.Sound (stream : ByteStream) (s : Reader) : Prop :=
  s.Rests stream ∨ s.point ≠ .outside ∧ ∃ e, AtPoint stream e s s.point

theorem Reader.start_rests (stream : ByteStream) (size : Nat) :
    (Reader.start size).Rests stream :=
  ⟨rfl, fun _ hout => (by cases hout), fun _ => Or.inl rfl⟩

/-- A call that has returned leaves the reader at rest. -/
theorem AtPoint.rests (hat : AtPoint stream e s .outside) (houtside : s.point = .outside) :
    s.Rests stream := by
  refine ⟨houtside, hat.sized, ?_⟩
  intro hnegative
  cases hat with
  | ended _ _ _ hend => exact Or.inr hend
  | found segment _ _ _ hresults =>
      have hlast := hnegative ((segment.length : Int) + 1)
        (by rw [hresults]; exact List.mem_append_right _ List.mem_cons_self)
      omega

theorem AtPoint.sound (hat : AtPoint stream e s s.point) : s.Sound stream := by
  by_cases houtside : s.point = .outside
  · rw [houtside] at hat
    exact Or.inl (hat.rests houtside)
  · exact Or.inr ⟨houtside, e, hat⟩

/-- The call that a reader at rest enters. -/
def Reader.entry (heap : Heap) (delim : Int) (s : Reader) : Entry :=
  ⟨UInt8.ofInt delim, s.taken, (s.allocate heap).outSize, s.results⟩

theorem Reader.allocate_taken (heap : Heap) (s : Reader) :
    (s.allocate heap).taken = s.taken := by
  rw [Reader.allocate]
  split <;> rfl

theorem Reader.allocate_results (heap : Heap) (s : Reader) :
    (s.allocate heap).results = s.results := by
  rw [Reader.allocate]
  split <;> rfl

theorem Reader.Rests.enter (hrests : s.Rests stream) (heap : Heap) (delim : Int) :
    AtPoint stream (s.entry heap delim) (s.enter heap delim) (s.enter heap delim).point := by
  refine .reading [] ⟨hrests.sized.allocate, ?_, s.allocate_taken heap, ?_⟩
    List.not_mem_nil (s.allocate_results heap)
  · intro i hi
    cases hi
  · exact (Nat.max_eq_left (Nat.zero_le _)).symm

theorem Reader.Sound.moves {move : Move} (hsound : s.Sound stream)
    (hmove : Reader.moves heap stream move s s') : s'.Sound stream := by
  cases move with
  | call delim =>
      obtain ⟨houtside, rfl⟩ := hmove
      rcases hsound with hrests | ⟨hinside, _⟩
      · exact (hrests.enter heap delim).sound
      · exact absurd houtside hinside
  | go =>
      rcases hsound with hrests | ⟨_, e, hat⟩
      · have hgo : s.go heap stream = some s' := hmove
        rw [Reader.go, hrests.outside] at hgo
        cases hgo
      · exact (hat.go hmove).sound

/-- Every session of calls is sound. -/
theorem sound_of_run {size : Nat} {moves : List Move}
    (hrun : Run (Reader.moves heap stream) (Reader.start size) moves s) : s.Sound stream :=
  hrun.invariant (Or.inl (Reader.start_rests stream size)) fun _ _ _ hsound hmove =>
    hsound.moves hmove

/-- A call that returns is in order at its end. -/
theorem MyGetdelim.atPoint (hrests : s.Rests stream)
    (hcall : MyGetdelim heap stream delim s s') :
    AtPoint stream (s.entry heap delim) s' .outside := by
  obtain ⟨_, houtside, actions, hactions⟩ := hcall
  have hat := hactions.invariant (I := fun s => AtPoint stream _ s s.point)
    (hrests.enter heap delim) fun _ _ _ hat hgo => hat.go hgo
  rwa [houtside] at hat

/-- The call has returned a length. -/
def FindsDelimiter (s s' : Reader) : Prop := ∃ r, s'.results = s.results ++ [r] ∧ 0 ≤ r

/-- A call returns when there is a segment, and has found its delimiter. -/
theorem Reader.Rests.exists_myGetdelim {segment : List UInt8} (hrests : s.Rests stream)
    (heap : Heap) (hsegment : IsSegment stream s.taken (UInt8.ofInt delim) segment) :
    ∃ s', MyGetdelim heap stream delim s s' ∧ FindsDelimiter s s' := by
  have hadvance : ∀ s₁, AtPoint stream (s.entry heap delim) s₁ s₁.point →
      ¬ s₁.point = .outside → ∃ (_ : Unit) (s₂ : Reader),
        Reader.moves heap stream .go s₁ s₂ ∧
          AtPoint stream (s.entry heap delim) s₂ s₂.point ∧
            remaining segment.length s₂.point < remaining segment.length s₁.point := by
    intro s₁ hat hinside
    obtain ⟨s₂, hgo, hat₂, hless⟩ := hat.advance hinside
    exact ⟨⟨⟩, s₂, hgo, hat₂, hless segment hsegment⟩
  obtain ⟨actions, s', hactions, hat, houtside⟩ :=
    Run.exists_of_variant (fun s₁ : Reader => remaining segment.length s₁.point) hadvance
      (hrests.enter heap delim)
  refine ⟨s', ⟨hrests.outside, houtside, actions, hactions⟩, ?_⟩
  rw [houtside] at hat
  cases hat with
  | ended held hstored hnone hend _ =>
      -- the stream cannot end before its segment does
      have hshort := hsegment.length_lt hstored.holds hnone
      have hnext := hsegment.holds held.length hshort
      have htaken : s'.taken = s.taken + held.length := hstored.taken
      rw [htaken, hnext] at hend
      cases hend
  | found found _ _ _ hresults => exact ⟨_, hresults, by omega⟩

/-- A call that finds its delimiter leaves its segment and a NUL, and has made the block
no longer than that needs. -/
theorem MyGetdelim.segment (hrests : s.Rests stream)
    (hcall : MyGetdelim heap stream delim s s') (hfinds : FindsDelimiter s s') :
    ∃ segment, IsSegment stream s.taken (UInt8.ofInt delim) segment ∧
      s'.taken = s.taken + segment.length ∧ s'.Starts (segment ++ [0]) ∧
        s'.results = s.results ++ [(segment.length : Int) + 1] ∧
          s'.outSize = max (s.allocate heap).outSize segment.length := by
  obtain ⟨r, hresults, hpos⟩ := hfinds
  cases hcall.atPoint hrests with
  | ended held _ _ _ hended =>
      have hsame := List.append_cancel_left (hresults.symm.trans hended)
      rw [List.cons.injEq] at hsame
      omega
  | found segment hstored hsegment hclosed hresults' =>
      exact ⟨segment, hsegment, hstored.taken, hclosed, hresults', hstored.size⟩

/-- The first call that finds its delimiter leaves the segment and a NUL in a block of
exactly that size. -/
theorem MyGetdelim.out_of_first (hrests : s.Rests stream)
    (hcall : MyGetdelim heap stream delim s s') (hfinds : FindsDelimiter s s')
    (hfirst : ∀ r ∈ s.results, r < 0) :
    ∃ segment, IsSegment stream s.taken (UInt8.ofInt delim) segment ∧
      s'.outSize = segment.length ∧ s'.out = some (segment ++ [0]) := by
  obtain ⟨segment, hsegment, _, ⟨block, hout, hlength, hbegins⟩, _, hsize⟩ :=
    hcall.segment hrests hfinds
  have hpos := hsegment.length_pos
  rcases hrests.unfound hfirst with hnull | hend
  · have hallocated : (s.allocate heap).outSize = 1 := by
      rw [Reader.allocate, hnull]
    have hexact : s'.outSize = segment.length := by
      rw [hsize, hallocated]
      omega
    have hblock : segment ++ [0] = block := by
      apply hbegins.eq_of_length
      rw [hlength, hexact]
      exact List.length_append
    exact ⟨segment, hsegment, hexact, hblock ▸ hout⟩
  · have hbyte := hsegment.holds 0 hpos
    rw [Nat.add_zero, hend] at hbyte
    cases hbyte

/-- `main` strips the delimiter of a segment that fills its block, and nothing else. -/
theorem Reader.strip_out {segment : List UInt8} (hpos : 0 < segment.length)
    (hsize : s.outSize = segment.length) (hout : s.out = some (segment ++ [0])) :
    s.strip.out = some (segment.dropLast ++ [0, 0]) := by
  have hinside : segment.length - 1 < (segment ++ [(0 : UInt8)]).length := by
    rw [List.length_append, List.length_singleton]
    omega
  have hset : (segment ++ [(0 : UInt8)]).set (segment.length - 1) 0 =
      segment.dropLast ++ [0, 0] := by
    obtain ⟨body, last, rfl⟩ : ∃ body last, segment = body ++ [last] :=
      ⟨_, _, (List.dropLast_concat_getLast (List.ne_nil_of_length_pos hpos)).symm⟩
    simp
  simp only [Reader.strip, Reader.store, hout, hsize, if_pos hinside, hset]

theorem Reader.store_outSize (s : Reader) (index : Nat) (byte : UInt8) (next : Point) :
    (s.store index byte next).outSize = s.outSize := by
  rw [Reader.store]
  cases s.out with
  | none => rfl
  | some block =>
      by_cases hinside : index < block.length
      · simp only [if_pos hinside]
      · simp only [if_neg hinside]

/-- No action of a call makes `*out_size` smaller. -/
theorem Reader.outSize_le_of_go (hgo : s.go heap stream = some s') :
    s.outSize ≤ s'.outSize := by
  rw [Reader.go] at hgo
  cases hpoint : s.point with
  | outside | fault =>
      rw [hpoint] at hgo
      cases hgo
  | reading delim outIdx =>
      simp only [hpoint] at hgo
      cases hbyte : stream s.taken with
      | none =>
          rw [hbyte] at hgo
          cases hgo
          exact Nat.le_refl _
      | some c =>
          rw [hbyte] at hgo
          cases hgo
          exact Nat.le_refl _
  | growing delim outIdx c =>
      simp only [hpoint] at hgo
      by_cases hfull : s.outSize < outIdx + 1
      · rw [if_pos hfull] at hgo
        cases hgo
        exact Nat.le_succ _
      · rw [if_neg hfull] at hgo
        cases hgo
        exact Nat.le_refl _
  | storing delim outIdx c =>
      simp only [hpoint, Option.some.injEq] at hgo
      exact hgo ▸ Nat.le_of_eq (Reader.store_outSize _ _ _ _).symm
  | terminating outIdx =>
      simp only [hpoint, Option.some.injEq] at hgo
      exact hgo ▸ Nat.le_of_eq (Reader.store_outSize _ _ _ _).symm
  | returning outIdx =>
      simp only [hpoint, Option.some.injEq] at hgo
      rw [← hgo]
      exact Nat.le_refl _

/-- Once there is a block, `*out_size` never decreases. -/
theorem Reader.outSize_le_of_moves {move : Move}
    (hmove : Reader.moves heap stream move s s') (hblock : s.out ≠ none) :
    s.outSize ≤ s'.outSize := by
  cases move with
  | call delim =>
      obtain ⟨_, rfl⟩ := hmove
      change s.outSize ≤ (s.allocate heap).outSize
      rw [Reader.allocate]
      cases hout : s.out with
      | none => exact absurd hout hblock
      | some block => exact Nat.le_refl _
  | go => exact Reader.outSize_le_of_go hmove

end Sessions

/-- What every point of a session promises.  No store has been outside the block, which
has a byte more than `*out_size`; the size does not shrink; a call with a segment ahead
returns, and one that has found its delimiter has left the segment and a NUL; and while no
call before it had found one, the size is the length of the segment, so that `main` strips
exactly the delimiter. -/
structure ReadsExactly (heap : Heap) (stream : ByteStream) (s : Reader) : Prop where
  noFault : s.point ≠ .fault
  sized : ∀ block, s.out = some block → block.length = s.outSize + 1
  grows : ∀ move s', Reader.moves heap stream move s s' → s.out ≠ none →
    s.outSize ≤ s'.outSize
  returns : ∀ delim segment, s.point = .outside →
    IsSegment stream s.taken (UInt8.ofInt delim) segment →
      ∃ s', MyGetdelim heap stream delim s s' ∧ FindsDelimiter s s'
  leaves : ∀ delim s', MyGetdelim heap stream delim s s' → FindsDelimiter s s' →
    ∃ segment block, IsSegment stream s.taken (UInt8.ofInt delim) segment ∧
      s'.taken = s.taken + segment.length ∧ s'.out = some block ∧ segment ++ [0] <+: block
  strips : ∀ delim s', MyGetdelim heap stream delim s s' → FindsDelimiter s s' →
    (∀ r ∈ s.results, r < 0) →
      ∃ segment, IsSegment stream s.taken (UInt8.ofInt delim) segment ∧
        s'.outSize = segment.length ∧ s'.strip.out = some (segment.dropLast ++ [0, 0])

/-- Line reading is safe and exact at every point of every session. -/
theorem myGetdelim_readsExactly (heap : Heap) (stream : ByteStream) (size : Nat)
    {moves : List Move} {s : Reader}
    (hrun : Run (Reader.moves heap stream) (Reader.start size) moves s) :
    ReadsExactly heap stream s := by
  have hsound : s.Sound stream := sound_of_run hrun
  have hrests : s.point = .outside → s.Rests stream := fun houtside =>
    hsound.resolve_right fun hinside => hinside.1 houtside
  refine ⟨?_, ?_, fun move s' => Reader.outSize_le_of_moves, ?_, ?_, ?_⟩
  · rcases hsound with hrests | ⟨_, e, hat⟩
    · rw [hrests.outside]
      decide
    · exact hat.ne_fault
  · rcases hsound with hrests | ⟨_, e, hat⟩
    · exact hrests.sized
    · exact hat.sized
  · intro delim segment houtside hsegment
    exact (hrests houtside).exists_myGetdelim heap hsegment
  · intro delim s' hcall hfinds
    obtain ⟨segment, hsegment, htaken, ⟨block, hout, _, hbegins⟩, _⟩ :=
      hcall.segment (hrests hcall.1) hfinds
    exact ⟨segment, block, hsegment, htaken, hout, hbegins⟩
  · intro delim s' hcall hfinds hfirst
    obtain ⟨segment, hsegment, hsize, hout⟩ :=
      hcall.out_of_first (hrests hcall.1) hfinds hfirst
    exact ⟨segment, hsegment, hsize, Reader.strip_out hsegment.length_pos hsize hout⟩

/-- An allocator that fills new bytes with zeros. -/
def zeroHeap : Heap where
  malloc := fun _ size => List.replicate size 0
  malloc_length := fun _ _ => List.length_replicate
  realloc := fun _ block size => block.take size ++ List.replicate (size - block.length) 0
  realloc_length := by
    intro _ block size
    rw [List.length_append, List.length_take, List.length_replicate]
    omega
  realloc_take := by
    intro _ block size hgrows
    rw [List.take_of_length_le hgrows, List.take_left]

/-- A call that has returned is part of a session. -/
theorem MyGetdelim.run {heap : Heap} {stream : ByteStream} {delim : Int} {s₀ s s' : Reader}
    {moves : List Move} (hrun : Run (Reader.moves heap stream) s₀ moves s)
    (hcall : MyGetdelim heap stream delim s s') :
    ∃ moves', Run (Reader.moves heap stream) s₀ moves' s' := by
  obtain ⟨houtside, _, actions, hactions⟩ := hcall
  have henter : Reader.moves heap stream (.call delim) s (s.enter heap delim) :=
    ⟨houtside, rfl⟩
  refine hactions.invariant (I := fun t => ∃ moves', Run (Reader.moves heap stream) s₀ moves' t)
    ⟨_, hrun.snoc henter⟩ ?_
  rintro _ t t' ⟨moves', hmoves⟩ hgo
  exact ⟨_, hmoves.snoc hgo⟩

/-- The lines `abc` and `d`. -/
def twoLines : List UInt8 := [97, 98, 99, 10, 100, 10]

theorem twoLines_first : IsSegment (listStream twoLines) 0 10 [97, 98, 99, 10] :=
  ⟨by unfold ByteStream.Holds; decide, [97, 98, 99], rfl, by decide⟩

theorem twoLines_second : IsSegment (listStream twoLines) 4 10 [100, 10] :=
  ⟨by unfold ByteStream.Holds; decide, [100], rfl, by decide⟩

/-- The second line goes into the block of the first. -/
theorem myGetdelim_readsExactly_reuse :
    ∃ s s' block, MyGetdelim zeroHeap (listStream twoLines) 10 (Reader.start 7) s ∧
      s.outSize = 4 ∧ s.strip.out = some [97, 98, 99, 0, 0] ∧
      MyGetdelim zeroHeap (listStream twoLines) 10 s s' ∧
      s'.out = some block ∧ block.length = 5 ∧ [100, 10, 0] <+: block := by
  have hstart := myGetdelim_readsExactly zeroHeap (listStream twoLines) 7 (Run.nil _)
  obtain ⟨s, hcall, hfinds⟩ := hstart.returns 10 _ rfl twoLines_first
  obtain ⟨line, old, hline, htaken, hold, _⟩ := hstart.leaves 10 s hcall hfinds
  obtain rfl := hline.unique twoLines_first
  obtain ⟨line', hline', hsize, hstrip⟩ := hstart.strips 10 s hcall hfinds fun r hr => (by cases hr)
  obtain rfl := hline'.unique twoLines_first
  obtain ⟨moves, hrun⟩ := hcall.run (Run.nil _)
  have hbetween := myGetdelim_readsExactly zeroHeap (listStream twoLines) 7 hrun
  have hplace : s.taken = 4 := htaken
  obtain ⟨s', hcall', hfinds'⟩ := hbetween.returns 10 [100, 10] hcall.2.1 (hplace ▸ twoLines_second)
  obtain ⟨next, block, hnext, _, hout, hbegins⟩ := hbetween.leaves 10 s' hcall' hfinds'
  obtain rfl := hnext.unique (hplace ▸ twoLines_second)
  -- the second line is shorter, so the block keeps its size
  have hrests : s.Rests (listStream twoLines) :=
    (sound_of_run hrun).resolve_right fun hinside => hinside.1 hcall.2.1
  obtain ⟨short, hshort, _, hstarts, _, hkept⟩ := hcall'.segment hrests hfinds'
  obtain rfl := hshort.unique hnext
  have hsame : s.allocate zeroHeap = s := by rw [Reader.allocate, hold]
  rw [hsame, hsize] at hkept
  have hlength : block.length = 5 := by rw [hstarts.sized block hout, hkept]; rfl
  exact ⟨s, s', block, hcall, hsize, hstrip, hcall', hout, hlength, hbegins⟩

end UefiLinux
