/-
Line reading through the system call layer.  The single-byte reads of `my_getdelim` are
calls of the layer, on the console or on an open file, each into a `char c` that is fresh
and unwritten; where they deliver a stream, the lines of the caller are those of the stream.
-/
import UefiLinux.ConsoleInput
import UefiLinux.FileSessions
import UefiLinux.LineBuffer
import UefiLinux.Wrappers

namespace UefiLinux

open Progress Words

/-- `read(in, &c, 1)` -/
def readChar (fd : Int32) (c : UInt64) : SysCall := ⟨unistdX86_64.read, [intWord fd, c, 1]⟩

theorem readChar_dispatch (fd : Int32) (c : UInt64) :
    dispatch (readChar fd c).no (readChar fd c).args = .ok (.fdRead fd.toInt c 1) := by
  simp [readChar, dispatch, arg, unistdX86_64]

theorem readChar_ends {p : Platform} {fd : Int32} {c word : UInt64} {m m' : Machine} :
    (readChar fd c).Ends p m (.ok word m') ↔
      ∃ fuel v, (fdRead p fuel fd.toInt c 1).run m = .ok v m' ∧ word = UInt64.ofInt v := by
  have hexec : ∀ fuel, (syscallEmuX86_64 p fuel (readChar fd c).no (readChar fd c).args).run m =
      (asWord (fdRead p fuel fd.toInt c 1)).run m := by
    intro fuel
    rw [syscallEmuX86_64, readChar_dispatch]
    rfl
  constructor
  · rintro ⟨fuel, hrun⟩
    rw [hexec, asWord_eq_ok] at hrun
    exact ⟨fuel, hrun⟩
  · rintro ⟨fuel, hrun⟩
    exact ⟨fuel, (hexec fuel).trans (asWord_eq_ok.mpr hrun)⟩

/-- The `char c` of one pass: where it lies, and what it holds before it is written. -/
structure FreshChar where
  address : UInt64
  junk : UInt8

/-- The machine when the pass has begun. -/
def Machine.declare (m : Machine) (c : FreshChar) : Machine :=
  { m with mem := m.mem.store c.address [c.junk] }

/-- `my_getdelim` on a descriptor: it reads through the layer, and works on its block.  The
byte with so many before it is read into the `c` of that number, whatever it holds. -/
inductive LineStep (p : Platform) (heap : Heap) (fd : Int32) (c : Nat → FreshChar) :
    Move → Reader × Machine → Reader × Machine → Prop
  | call {s : Reader} {m : Machine} (delim : Int) (hpoint : s.point = .outside) :
      LineStep p heap fd c (.call delim) (s, m) (s.enter heap delim, m)
  | got {s : Reader} {m m' : Machine} {delim : UInt8} {outIdx : Nat} {word : UInt64}
      (hpoint : s.point = .reading delim outIdx)
      (hends : (readChar fd (c s.taken).address).Ends p (m.declare (c s.taken)) (.ok word m'))
      (hsome : 0 < (libcLong word).value) :
      LineStep p heap fd c .go (s, m)
        ({ s with
            taken := s.taken + 1
            point := .growing delim outIdx (m'.mem (c s.taken).address) }, m')
  | ended {s : Reader} {m m' : Machine} {delim : UInt8} {outIdx : Nat} {word : UInt64}
      (last : FreshChar) (hpoint : s.point = .reading delim outIdx)
      (hends : (readChar fd last.address).Ends p (m.declare last) (.ok word m'))
      (hnone : (libcLong word).value ≤ 0) :
      LineStep p heap fd c .go (s, m) (s.finish (-1), m')
  | works {s s' : Reader} {m : Machine}
      (hpoint : ∀ delim outIdx, s.point ≠ .reading delim outIdx)
      (hgo : s.go heap (listStream []) = some s') :
      LineStep p heap fd c .go (s, m) (s', m)

/-- A call on a descriptor, from its entry to its return. -/
def LineCall (p : Platform) (heap : Heap) (fd : Int32) (c : Nat → FreshChar) (delim : Int)
    (v v' : Reader × Machine) : Prop :=
  v.1.point = .outside ∧ v'.1.point = .outside ∧ ∃ actions,
    Run (fun _ : Unit => LineStep p heap fd c .go) (v.1.enter heap delim, v.2) actions v'

/-- A call that has returned is part of a session. -/
theorem LineCall.run {p : Platform} {heap : Heap} {fd : Int32} {c : Nat → FreshChar}
    {delim : Int} {v₀ v v' : Reader × Machine} {moves : List Move}
    (hrun : Run (LineStep p heap fd c) v₀ moves v) (hcall : LineCall p heap fd c delim v v') :
    ∃ moves', Run (LineStep p heap fd c) v₀ moves' v' := by
  obtain ⟨hpoint, _, actions, hactions⟩ := hcall
  have henter : LineStep p heap fd c (.call delim) v (v.1.enter heap delim, v.2) :=
    .call delim hpoint
  refine hactions.invariant (I := fun u => ∃ moves', Run (LineStep p heap fd c) v₀ moves' u)
    ⟨_, hrun.snoc henter⟩ ?_
  rintro _ u u' ⟨moves', hmoves⟩ hgo
  exact ⟨_, hmoves.snoc hgo⟩

/-- The single-byte reads deliver a stream, one byte after the other, each into its own
`c`.  What holds of the machine after so many of them is kept by the next. -/
structure ReadsStream (p : Platform) (fd : Int32) (c : Nat → FreshChar) (stream : ByteStream)
    (reached : Nat → Machine → Prop) : Prop where
  reads : ∀ n m, reached n m →
    ∃ word m', (readChar fd (c n).address).Ends p (m.declare (c n)) (.ok word m')
  byte : ∀ n m cell word m' b, reached n m →
    (readChar fd cell.address).Ends p (m.declare cell) (.ok word m') → stream n = some b →
      0 < (libcLong word).value ∧ reached (n + 1) m' ∧ (cell = c n → m'.mem cell.address = b)
  ended : ∀ n m cell word m', reached n m →
    (readChar fd cell.address).Ends p (m.declare cell) (.ok word m') → stream n = none →
      (libcLong word).value ≤ 0 ∧ reached n m'

section Simulation

variable {p : Platform} {heap : Heap} {fd : Int32} {c : Nat → FreshChar} {stream : ByteStream}
  {reached : Nat → Machine → Prop} {s s' : Reader} {m : Machine} {v v' : Reader × Machine}
  {move : Move}

/-- Away from its reads a call does not look at the stream, nor does it take anything. -/
theorem Reader.go_of_not_reading (hpoint : ∀ delim outIdx, s.point ≠ .reading delim outIdx)
    (stream stream' : ByteStream) (hgo : s.go heap stream = some s') :
    s.go heap stream' = some s' ∧ s'.taken = s.taken := by
  cases hat : s.point with
  | outside =>
      rw [Reader.go, hat] at hgo
      cases hgo
  | reading delim outIdx => exact absurd hat (hpoint delim outIdx)
  | growing delim outIdx byte =>
      simp only [Reader.go, hat] at hgo ⊢
      refine ⟨hgo, ?_⟩
      split at hgo <;> injection hgo with hs' <;> subst hs' <;> rfl
  | storing delim outIdx byte =>
      simp only [Reader.go, hat] at hgo ⊢
      refine ⟨hgo, ?_⟩
      injection hgo with hs'
      subst hs'
      rw [Reader.store]
      split
      · rfl
      · split <;> rfl
  | terminating outIdx =>
      simp only [Reader.go, hat] at hgo ⊢
      refine ⟨hgo, ?_⟩
      injection hgo with hs'
      subst hs'
      rw [Reader.store]
      split
      · rfl
      · split <;> rfl
  | returning outIdx =>
      simp only [Reader.go, hat] at hgo ⊢
      refine ⟨hgo, ?_⟩
      injection hgo with hs'
      subst hs'
      rfl
  | fault =>
      rw [Reader.go, hat] at hgo
      cases hgo

/-- What happens through the layer happens on the stream. -/
theorem LineStep.moves (hreads : ReadsStream p fd c stream reached)
    (hreached : reached v.1.taken v.2) (hstep : LineStep p heap fd c move v v') :
    Reader.moves heap stream move v.1 v'.1 ∧ reached v'.1.taken v'.2 := by
  cases hstep with
  | @call s m delim hpoint =>
      refine ⟨⟨hpoint, rfl⟩, ?_⟩
      have htaken : (s.enter heap delim).taken = s.taken := s.allocate_taken heap
      rw [htaken]
      exact hreached
  | @got s m m' delim outIdx word hpoint hends hsome =>
      cases hnext : stream s.taken with
      | some b =>
          obtain ⟨_, hreached', hcell⟩ := hreads.byte _ _ _ _ _ _ hreached hends hnext
          refine ⟨?_, hreached'⟩
          simp only [Reader.moves, Reader.go, hpoint, hnext, hcell rfl]
      | none =>
          have hnone := (hreads.ended _ _ _ _ _ hreached hends hnext).1
          omega
  | @ended s m m' delim outIdx word last hpoint hends hnone =>
      cases hnext : stream s.taken with
      | some b =>
          have hsome := (hreads.byte _ _ _ _ _ _ hreached hends hnext).1
          omega
      | none =>
          refine ⟨?_, (hreads.ended _ _ _ _ _ hreached hends hnext).2⟩
          simp only [Reader.moves, Reader.go, hpoint, hnext]
  | @works s s' m hpoint hgo =>
      obtain ⟨hgo', htaken⟩ := Reader.go_of_not_reading hpoint _ stream hgo
      refine ⟨hgo', ?_⟩
      rw [htaken]
      exact hreached

/-- What can happen on the stream can happen through the layer. -/
theorem LineStep.of_moves (hreads : ReadsStream p fd c stream reached)
    (hreached : reached s.taken m) (hmove : Reader.moves heap stream move s s') :
    ∃ m', LineStep p heap fd c move (s, m) (s', m') ∧ reached s'.taken m' := by
  cases move with
  | call delim =>
      obtain ⟨hpoint, rfl⟩ := hmove
      refine ⟨m, .call delim hpoint, ?_⟩
      have htaken : (s.enter heap delim).taken = s.taken := s.allocate_taken heap
      rw [htaken]
      exact hreached
  | go =>
      have hgo : s.go heap stream = some s' := hmove
      by_cases hreading : ∃ delim outIdx, s.point = .reading delim outIdx
      · obtain ⟨delim, outIdx, hpoint⟩ := hreading
        obtain ⟨word, m', hends⟩ := hreads.reads _ _ hreached
        cases hnext : stream s.taken with
        | some b =>
            obtain ⟨hsome, hreached', hcell⟩ := hreads.byte _ _ _ _ _ _ hreached hends hnext
            simp only [Reader.go, hpoint, hnext, ← hcell rfl] at hgo
            injection hgo with hs'
            subst hs'
            exact ⟨m', .got hpoint hends hsome, hreached'⟩
        | none =>
            obtain ⟨hnone, hreached'⟩ := hreads.ended _ _ _ _ _ hreached hends hnext
            simp only [Reader.go, hpoint, hnext] at hgo
            injection hgo with hs'
            subst hs'
            exact ⟨m', .ended _ hpoint hends hnone, hreached'⟩
      · have hpoint : ∀ delim outIdx, s.point ≠ .reading delim outIdx :=
          fun delim outIdx hat => hreading ⟨delim, outIdx, hat⟩
        obtain ⟨hgo', htaken⟩ := Reader.go_of_not_reading hpoint _ (listStream []) hgo
        refine ⟨m, .works hpoint hgo', ?_⟩
        rw [htaken]
        exact hreached

end Simulation

section Lines

variable {p : Platform} {heap : Heap} {fd : Int32} {c : Nat → FreshChar} {stream : ByteStream}
  {reached : Nat → Machine → Prop} {m : Machine} {v v' : Reader × Machine}

/-- The reader is where the stream lets it be, and so is the machine. -/
def Reading (stream : ByteStream) (reached : Nat → Machine → Prop) (v : Reader × Machine) :
    Prop :=
  v.1.Sound stream ∧ reached v.1.taken v.2

theorem Reading.start (hreached : reached 0 m) (size : Nat) :
    Reading stream reached (Reader.start size, m) :=
  ⟨Or.inl (Reader.start_rests stream size), hreached⟩

theorem Reading.step {move : Move} (hreads : ReadsStream p fd c stream reached)
    (hreading : Reading stream reached v) (hstep : LineStep p heap fd c move v v') :
    Reading stream reached v' := by
  obtain ⟨hmove, hreached⟩ := hstep.moves hreads hreading.2
  exact ⟨hreading.1.moves hmove, hreached⟩

theorem Reading.rests (hreading : Reading stream reached v) (hpoint : v.1.point = .outside) :
    v.1.Rests stream :=
  hreading.1.resolve_right fun hinside => hinside.1 hpoint

/-- A call through the layer is a call on the stream. -/
theorem LineCall.myGetdelim {delim : Int} (hreads : ReadsStream p fd c stream reached)
    (hreading : Reading stream reached v) (hcall : LineCall p heap fd c delim v v') :
    MyGetdelim heap stream delim v.1 v'.1 := by
  obtain ⟨hpoint, hpoint', actions, hactions⟩ := hcall
  have hentered : Reading stream reached (v.1.enter heap delim, v.2) :=
    hreading.step hreads (.call delim hpoint)
  have hfollows : ∀ (_ : Unit) (view view' : Reader × Machine) (s : Reader),
      Reading stream reached view ∧ s = view.1 → LineStep p heap fd c .go view view' →
        ∃ s', Reader.moves heap stream .go s s' ∧ Reading stream reached view' ∧ s' = view'.1 := by
    rintro _ view view' _ ⟨hreading, rfl⟩ hstep
    exact ⟨view'.1, (hstep.moves hreads hreading.2).1, hreading.step hreads hstep, rfl⟩
  obtain ⟨s', hrun, _, rfl⟩ := hactions.simulate hfollows ⟨hentered, rfl⟩
  exact ⟨hpoint, hpoint', actions, hrun⟩

/-- A call on the stream can be made through the layer. -/
theorem MyGetdelim.lineCall {delim : Int} {s' : Reader}
    (hreads : ReadsStream p fd c stream reached) (hreading : Reading stream reached v)
    (hcall : MyGetdelim heap stream delim v.1 s') :
    ∃ m', LineCall p heap fd c delim v (s', m') := by
  obtain ⟨hpoint, hpoint', actions, hactions⟩ := hcall
  have hentered : Reading stream reached (v.1.enter heap delim, v.2) :=
    hreading.step hreads (.call delim hpoint)
  have hfollows : ∀ (_ : Unit) (s s' : Reader) (view : Reader × Machine),
      view.1 = s ∧ reached view.1.taken view.2 → Reader.moves heap stream .go s s' →
        ∃ view', LineStep p heap fd c .go view view' ∧ view'.1 = s' ∧
          reached view'.1.taken view'.2 := by
    rintro _ _ s' view ⟨rfl, hreached⟩ hmove
    obtain ⟨m', hstep, hreached'⟩ := LineStep.of_moves hreads hreached hmove
    exact ⟨(s', m'), hstep, rfl, hreached'⟩
  obtain ⟨view, hrun, rfl, _⟩ := hactions.simulate hfollows ⟨rfl, hentered.2⟩
  exact ⟨view.2, hpoint, hpoint', actions, hrun⟩

/-- What the caller gets in the middle of a session of calls. -/
structure ReadsLines (p : Platform) (heap : Heap) (fd : Int32) (c : Nat → FreshChar)
    (stream : ByteStream) (v : Reader × Machine) : Prop where
  noFault : v.1.point ≠ .fault
  returns : ∀ delim segment, v.1.point = .outside →
    IsSegment stream v.1.taken (UInt8.ofInt delim) segment →
      ∃ v', LineCall p heap fd c delim v v' ∧ FindsDelimiter v.1 v'.1
  leaves : ∀ delim v', LineCall p heap fd c delim v v' → FindsDelimiter v.1 v'.1 →
    ∃ segment block, IsSegment stream v.1.taken (UInt8.ofInt delim) segment ∧
      v'.1.taken = v.1.taken + segment.length ∧ v'.1.out = some block ∧
        segment ++ [0] <+: block ∧ v'.1.results = v.1.results ++ [(segment.length : Int) + 1]
  stops : ∀ delim v', LineCall p heap fd c delim v v' → ¬ FindsDelimiter v.1 v'.1 →
    stream v'.1.taken = none ∧ v'.1.results = v.1.results ++ [-1]

/-- At every point of every session of calls on a descriptor whose reads deliver a stream. -/
theorem ReadsStream.readsLines {size : Nat} {moves : List Move}
    (hreads : ReadsStream p fd c stream reached) (hreached : reached 0 m)
    (hsession : Run (LineStep p heap fd c) (Reader.start size, m) moves v) :
    ReadsLines p heap fd c stream v := by
  have hreading : Reading stream reached v :=
    hsession.invariant (Reading.start hreached size) fun _ _ _ hreading hstep =>
      hreading.step hreads hstep
  refine ⟨?_, fun delim segment hpoint hsegment => ?_, fun delim v' hcall hfinds => ?_,
    fun delim v' hcall hfinds => ?_⟩
  · rcases hreading.1 with hrests | ⟨_, e, hat⟩
    · rw [hrests.outside]
      decide
    · exact hat.ne_fault
  · obtain ⟨s', hcall, hfinds⟩ := (hreading.rests hpoint).exists_myGetdelim heap hsegment
    obtain ⟨m', hcall'⟩ := hcall.lineCall hreads hreading
    exact ⟨(s', m'), hcall', hfinds⟩
  · obtain ⟨segment, hsegment, htaken, ⟨block, hout, _, hbegins⟩, hresults, _⟩ :=
      (hcall.myGetdelim hreads hreading).segment (hreading.rests hcall.1) hfinds
    exact ⟨segment, block, hsegment, htaken, hout, hbegins, hresults⟩
  · cases (hcall.myGetdelim hreads hreading).atPoint (hreading.rests hcall.1) with
    | ended held hstored hnone hend hended => exact ⟨hend, hended⟩
    | found segment hstored hsegment hclosed hresults =>
        exact absurd ⟨_, hresults, by omega⟩ hfinds

end Lines

section Console

variable {p : Platform} {base : List Event} {keys : Nat → UInt16} {m m' : Machine}

/-- The bytes that the single-byte reads from the console deliver.  For a backspace nothing
is stored, and the fresh `c` keeps what it held. -/
def typedStream (keys : Nat → UInt16) (c : Nat → FreshChar) : ByteStream :=
  fun n => some (if (keys n).toUInt8 = backspace then (c n).junk else keyByte (keys n))

theorem Memory.store_single (mem : Memory) (address : UInt64) (byte : UInt8) :
    mem.store address [byte] address = byte := by
  have hstored : mem.store address [byte] (address + UInt64.ofNat 0) = _ :=
    Memory.store_apply (by simp) Nat.zero_lt_one
  rwa [show UInt64.ofNat 0 = 0 from rfl, UInt64.add_zero] at hstored

theorem Machine.declare_mem (m : Machine) (c : FreshChar) :
    (m.declare c).mem c.address = c.junk :=
  Memory.store_single _ _ _

/-- A positive result of a read is passed on by the library. -/
theorem libcLong_value_pos {v : Int} (hpos : 0 < v) (hsmall : v < 2 ^ 63) :
    0 < (libcLong (UInt64.ofInt v)).value := by
  rw [libcLong, longArg_ofInt (by omega) hsmall, libcChecked, if_neg (by omega)]
  exact hpos

/-- Where the keyboard stands does not depend on memory. -/
theorem KeysAt.declare {n : Nat} (hkeys : KeysAt base m n) (c : FreshChar) :
    KeysAt base (m.declare c) n := hkeys

/-- One key is read, whatever it is, and two bytes are reported unless it is a return. -/
theorem fdRead_char_run (htypes : Types p base keys) {n : Nat} (hkeys : KeysAt base m n)
    (c : UInt64) : ∃ v m', (fdRead p 2 0 c 1).run m = .ok v m' ∧ 0 < v ∧ v < 2 ^ 63 ∧
      KeysAt base m' (n + 1) ∧
      m'.mem c = if (keys n).toUInt8 = backspace then m.mem c else keyByte (keys n) := by
  have hmore : (0 : UInt32).toUInt64 ≠ 1 := by decide
  have hfull : ∀ m₁, (loop .outOfFuel (consoleReadPass p c 1) 1 (0 + 1)).run m₁ = .ok (0 + 1) m₁ :=
    fun m₁ => loop_run_of_inr (consoleReadPass_run_full (by decide))
  by_cases hskip : (keys n).toUInt8 = backspace
  · have hpass := consoleReadPass_run_skip c htypes hkeys hmore ⟨rfl, hskip⟩
    refine ⟨_, keyMachine p m, fdRead_console_eq_ok.mpr
      ⟨_, (loop_run_of_inl hpass).trans (hfull _), rfl⟩, by decide, by decide,
      hkeys.keyMachine p, ?_⟩
    rw [if_pos hskip]
    rfl
  · obtain ⟨m', hpass, hkeys', hmem⟩ :=
      consoleReadPass_run_key htypes hkeys hmore fun hback => hskip hback.2
    have hcell : m'.mem c = keyByte (keys n) := by
      rw [hmem]
      change m.mem.store (c + 0) [keyByte (keys n)] c = _
      rw [UInt64.add_zero, Memory.store_single]
    by_cases hline : keyByte (keys n) = lineFeed
    · rw [if_pos hline] at hpass
      refine ⟨_, m', fdRead_console_eq_ok.mpr ⟨_, loop_run_of_inr hpass, rfl⟩, by decide,
        by decide, hkeys', ?_⟩
      rw [if_neg hskip, hcell]
    · rw [if_neg hline] at hpass
      refine ⟨_, m', fdRead_console_eq_ok.mpr
        ⟨_, (loop_run_of_inl hpass).trans (hfull _), rfl⟩, by decide, by decide, hkeys', ?_⟩
      rw [if_neg hskip, hcell]

theorem fdRead_console_unique {fuel fuel' : Nat} {buf count : UInt64} {v v' : Int}
    {m m₁ m₂ : Machine} (hrun : (fdRead p fuel 0 buf count).run m = .ok v m₁)
    (hrun' : (fdRead p fuel' 0 buf count).run m = .ok v' m₂) : v = v' ∧ m₁ = m₂ := by
  obtain ⟨r, hloop, rfl⟩ := fdRead_console_eq_ok.mp hrun
  obtain ⟨r', hloop', rfl⟩ := fdRead_console_eq_ok.mp hrun'
  obtain ⟨rfl, rfl⟩ := loop_run_unique hloop hloop'
  exact ⟨rfl, rfl⟩

/-- The console delivers what is typed, and anything for a backspace. -/
theorem console_readsStream {base : List Event} (htypes : Types p base keys)
    (c : Nat → FreshChar) :
    ReadsStream p 0 c (typedStream keys c) fun n m' => KeysAt base m' n := by
  refine ⟨fun n m₁ hkeys => ?_, fun n m₁ cell word m' b hkeys hends hbyte => ?_,
    fun n m₁ cell word m' _ _ hnone => by cases hnone⟩
  · obtain ⟨v, m', hrun, _⟩ := fdRead_char_run htypes (hkeys.declare (c n)) (c n).address
    exact ⟨_, m', readChar_ends.mpr ⟨2, v, hrun, rfl⟩⟩
  · obtain ⟨v, m₂, hrun, hpos, hsmall, hkeys', hcell⟩ :=
      fdRead_char_run htypes (hkeys.declare cell) cell.address
    obtain ⟨fuel, v', hrun', rfl⟩ := readChar_ends.mp hends
    obtain ⟨rfl, rfl⟩ := fdRead_console_unique hrun hrun'
    refine ⟨libcLong_value_pos hpos hsmall, hkeys', ?_⟩
    rintro rfl
    rw [typedStream, Option.some.injEq] at hbyte
    rw [hcell, ← hbyte, Machine.declare_mem]

/-- Over every session of line calls on the console, whatever each fresh `c` holds: a call
returns once its delimiter is typed, and leaves the bytes that were delivered since the last
line, one for each key, where for a backspace any byte is delivered; and the console never
ends a line in any other way. -/
theorem console_lines_are_typed {heap : Heap} {c : Nat → FreshChar} {size : Nat}
    {moves : List Move} {v : Reader × Machine} (htypes : Types p m.trace keys)
    (hsession : Run (LineStep p heap 0 c) (Reader.start size, m) moves v) :
    ReadsLines p heap 0 c (typedStream keys c) v :=
  (console_readsStream htypes c).readsLines (KeysAt.start m) hsession

/-- The keys a, backspace and return, and then returns. -/
def slip (n : Nat) : UInt16 := if n = 0 then 97 else if n = 1 then 8 else 13

/-- Every `c` lies at 300, and holds a question mark. -/
def markedChar (_ : Nat) : FreshChar := ⟨300, 63⟩

theorem slip_segment : IsSegment (typedStream slip markedChar) 0 10 [97, 63, 10] := by
  refine ⟨fun i hi => ?_, [97, 63], rfl, by decide⟩
  match i, hi with
  | 0, _ => rfl
  | 1, _ => rfl
  | 2, _ => rfl

/-- A backspace does not take a letter back but adds what `c` held. -/
theorem console_lines_are_typed_slip :
    ∃ v' block, LineCall (keyboard slip) zeroHeap 0 markedChar 10
        (Reader.start 7, Machine.blank) v' ∧
      v'.1.out = some block ∧ [97, 63, 10, 0] <+: block := by
  have htypes : Types (keyboard slip) Machine.blank.trace slip := keyboard_types slip
  have hlines := console_lines_are_typed htypes (Run.nil (Reader.start 7, Machine.blank) :
    Run (LineStep (keyboard slip) zeroHeap 0 markedChar) _ [] _)
  obtain ⟨v', hcall, hfinds⟩ := hlines.returns 10 [97, 63, 10] rfl slip_segment
  obtain ⟨segment, block, hsegment, _, hout, hbegins, _⟩ := hlines.leaves 10 v' hcall hfinds
  obtain rfl := hsegment.unique slip_segment
  exact ⟨v', block, hcall, hout, hbegins⟩

end Console

section File

variable {N : Type} {p : Platform} {files : Set FileHandle}
  {store : List Event → FileStore FileHandle N} {m : Machine} {handle : FileHandle}

theorem fdRead_run_of_takes {fd : Int} (hfd : fd ≠ 0) {m₁ : Machine}
    (htakes : m₁.takes fd = some handle) (fuel : Nat) (buf count : UInt64) :
    (fdRead p fuel fd buf count).run m₁ = (fdReadTaken p buf count handle).run m₁ := by
  have hguard : fdRead p fuel fd buf count = withFd fd (fdReadTaken p buf count) :=
    @FdOp.run_eq_withFd p (.read buf count) fd (decide_eq_false hfd) fuel
  rw [hguard, withFd_run_of_takes htakes]

/-- A read that does not fail. -/
theorem ServesFiles.read_ok {base : List Event} (hserves : ServesFiles p base files store)
    (hbase : base <+: m.trace) (hfile : handle ∈ files) (buf count : UInt64)
    (hok : efiError (p.reply m.trace (.read handle count)).status = false) :
    ∃ m', (fdReadTaken p buf count handle).run m = .ok
        (UInt64.ofNat ((store m.trace).ahead handle count.toNat).length).toInt64.toInt m' ∧
      m'.mem = m.mem.store buf ((store m.trace).ahead handle count.toNat) ∧
      m.trace <+: m'.trace ∧ m'.fds = m.fds ∧
      store m'.trace = (store m.trace).afterRead handle count.toNat := by
  have hanswer := hserves.after_moves hbase hfile (.read count)
  have hrun := fdReadTaken_run (p := p) buf count handle m
  change FileAnswer _ _ (store (m.trace ++ _)) at hanswer
  rw [Platform.answer] at hanswer hrun
  rw [if_neg (by simp [hok])] at hrun
  generalize hstore : store (m.trace ++ _) = s' at hanswer
  cases hanswer with
  | read _ hdata hsize =>
      rw [hsize, hdata] at hrun
      exact ⟨_, hrun, rfl, List.prefix_append _ _, rfl, hstore⟩
  | failed _ hfails _ =>
      rw [hok] at hfails
      cases hfails

/-- Where line reading from a file stands: so many bytes are behind the handle. -/
structure FileAt (store : List Event → FileStore FileHandle N) (m : Machine)
    (handle : FileHandle) (n : Nat) (m' : Machine) : Prop where
  grown : m.trace <+: m'.trace
  fds : m'.fds = m.fds
  moved : store m'.trace =
    (store m.trace).moveTo handle ((store m.trace).position handle + n)

/-- The bytes that lie ahead of a handle. -/
def fileStream (s : FileStore FileHandle N) (handle : FileHandle) : ByteStream :=
  listStream ((s.bytes handle).drop (s.position handle))

/-- The next byte of a file, if there is one. -/
theorem FileAt.ahead {n : Nat} {m' : Machine} (hat : FileAt store m handle n m') :
    (store m'.trace).ahead handle 1 = (fileStream (store m.trace) handle n).toList := by
  rw [hat.moved, FileStore.ahead_moveTo, List.take_one, List.head?_drop, fileStream, listStream,
    List.getElem?_drop]

theorem FileAt.read {n : Nat} {m₁ : Machine} {fd : Int}
    (hserves : ServesFiles p m.trace files store) (hfile : handle ∈ files) (hfd : fd ≠ 0)
    (htakes : m.takes fd = some handle)
    (hok : ∀ log, efiError (p.reply log (.read handle 1)).status = false)
    (hat : FileAt store m handle n m₁) (c : UInt64) :
    ∃ m₂, (∀ fuel, (fdRead p fuel fd c 1).run m₁ = .ok
        (fileStream (store m.trace) handle n).toList.length m₂) ∧
      m₂.mem = m₁.mem.store c (fileStream (store m.trace) handle n).toList ∧
      FileAt store m handle (n + (fileStream (store m.trace) handle n).toList.length) m₂ := by
  rw [← takes_of_fds hat.fds] at htakes
  obtain ⟨m₂, hrun, hmem, hgrown, hfds, hstore⟩ := hserves.read_ok hat.grown hfile c 1 (hok _)
  change m₂.mem = m₁.mem.store c ((store m₁.trace).ahead handle 1) at hmem
  change store m₂.trace = (store m₁.trace).afterRead handle 1 at hstore
  have hlength :
      (UInt64.ofNat ((store m₁.trace).ahead handle (1 : UInt64).toNat).length).toInt64.toInt =
        (fileStream (store m.trace) handle n).toList.length := by
    change (UInt64.ofNat ((store m₁.trace).ahead handle 1).length).toInt64.toInt = _
    rw [hat.ahead]
    cases fileStream (store m.trace) handle n <;> rfl
  rw [hlength] at hrun
  refine ⟨m₂, fun fuel => (fdRead_run_of_takes hfd htakes fuel c 1).trans hrun, ?_,
    hat.grown.trans hgrown, hfds.trans hat.fds, ?_⟩
  · rw [hmem, hat.ahead]
  · rw [hstore, FileStore.afterRead, hat.ahead, hat.moved, FileStore.moveTo_position,
      FileStore.moveTo_moveTo, Nat.add_assoc]

/-- Where a file stands does not depend on memory. -/
theorem FileAt.declare {n : Nat} {m₁ : Machine} (hat : FileAt store m handle n m₁)
    (c : FreshChar) : FileAt store m handle n (m₁.declare c) :=
  ⟨hat.grown, hat.fds, hat.moved⟩

/-- An open file delivers the bytes ahead of its handle, and then no more. -/
theorem file_readsStream {fd : Int32} (hserves : ServesFiles p m.trace files store)
    (hfile : handle ∈ files) (hfd : fd ≠ 0) (htakes : m.takes fd.toInt = some handle)
    (hok : ∀ log, efiError (p.reply log (.read handle 1)).status = false)
    (c : Nat → FreshChar) :
    ReadsStream p fd c (fileStream (store m.trace) handle) (FileAt store m handle) := by
  have hfd' : fd.toInt ≠ 0 := fun hzero => hfd (Int32.toInt_inj.mp hzero)
  refine ⟨fun n m₁ hat => ?_, fun n m₁ cell word m' b hat hends hbyte => ?_,
    fun n m₁ cell word m' hat hends hnone => ?_⟩
  · obtain ⟨m₂, hrun, _⟩ :=
      (hat.declare (c n)).read hserves hfile hfd' htakes hok (c n).address
    exact ⟨_, m₂, readChar_ends.mpr ⟨0, _, hrun 0, rfl⟩⟩
  · obtain ⟨m₂, hrun, hmem, hat'⟩ :=
      (hat.declare cell).read hserves hfile hfd' htakes hok cell.address
    obtain ⟨fuel, v, hrun', rfl⟩ := readChar_ends.mp hends
    rw [hrun, EStateM.Result.ok.injEq] at hrun'
    obtain ⟨rfl, rfl⟩ := hrun'
    rw [hbyte] at hmem hat' ⊢
    refine ⟨libcLong_value_pos (by simp) (by simp), hat', fun _ => ?_⟩
    rw [hmem]
    exact Memory.store_single _ _ _
  · obtain ⟨m₂, hrun, _, hat'⟩ :=
      (hat.declare cell).read hserves hfile hfd' htakes hok cell.address
    obtain ⟨fuel, v, hrun', rfl⟩ := readChar_ends.mp hends
    rw [hrun, EStateM.Result.ok.injEq] at hrun'
    obtain ⟨rfl, rfl⟩ := hrun'
    rw [hnone] at hat' ⊢
    exact ⟨by decide, hat'⟩

/-- Over every session of line calls on an open descriptor that the guard lets pass: a call
returns while its delimiter is ahead and leaves the bytes up to it, and only at the end of
the file does it return without one. -/
theorem file_lines_are_read {heap : Heap} {fd : Int32} {c : Nat → FreshChar} {size : Nat}
    {moves : List Move} {v : Reader × Machine} (hserves : ServesFiles p m.trace files store)
    (hfile : handle ∈ files) (hfd : fd ≠ 0) (htakes : m.takes fd.toInt = some handle)
    (hok : ∀ log, efiError (p.reply log (.read handle 1)).status = false)
    (hsession : Run (LineStep p heap fd c) (Reader.start size, m) moves v) :
    ReadsLines p heap fd c (fileStream (store m.trace) handle) v := by
  refine (file_readsStream hserves hfile hfd htakes hok c).readsLines ⟨?_, rfl, ?_⟩ hsession
  · exact List.prefix_refl _
  · rw [Nat.add_zero, FileStore.moveTo_self]

/-- Every handle on a file of its own, the first of them with two lines in it. -/
def twoLineFile : FileStore FileHandle FileHandle where
  file := id
  contents := fun handle => if handle = firstHandle then twoLines else []
  position := fun _ => 0

/-- Two calls get the two lines of a file. -/
theorem file_lines_are_read_two :
    ∃ v v' block block',
      LineCall (fileServer twoLineFile) zeroHeap 4 markedChar 10 (Reader.start 7, oneOpen) v ∧
      v.1.out = some block ∧ [97, 98, 99, 10, 0] <+: block ∧
      LineCall (fileServer twoLineFile) zeroHeap 4 markedChar 10 v v' ∧
      v'.1.out = some block' ∧ [100, 10, 0] <+: block' ∧ v'.1.results = [5, 3] := by
  have hfd : (4 : Int32) ≠ 0 := by decide
  have htakes : oneOpen.takes (4 : Int32).toInt = some firstHandle := rfl
  have hserves := fileServer_serves twoLineFile oneOpen.trace Set.univ
  have hstart := file_lines_are_read hserves (Set.mem_univ firstHandle) hfd htakes
    (fun _ => rfl) (Run.nil (Reader.start 7, oneOpen) :
      Run (LineStep (fileServer twoLineFile) zeroHeap 4 markedChar) _ [] _)
  obtain ⟨v, hcall, hfinds⟩ := hstart.returns 10 _ rfl twoLines_first
  obtain ⟨line, block, hline, htaken, hout, hbegins, hresults⟩ := hstart.leaves 10 v hcall hfinds
  obtain rfl := hline.unique twoLines_first
  have hplace : v.1.taken = 4 := htaken
  have hsecond : IsSegment (listStream twoLines) v.1.taken 10 [100, 10] :=
    hplace ▸ twoLines_second
  obtain ⟨moves, hrun⟩ := hcall.run (Run.nil _)
  have hbetween := file_lines_are_read hserves (Set.mem_univ firstHandle) hfd htakes
    (fun _ => rfl) hrun
  obtain ⟨v', hcall', hfinds'⟩ := hbetween.returns 10 _ hcall.2.1 hsecond
  obtain ⟨line', block', hline', _, hout', hbegins', hresults'⟩ :=
    hbetween.leaves 10 v' hcall' hfinds'
  obtain rfl := hline'.unique hsecond
  rw [hresults] at hresults'
  exact ⟨v, v', block, block', hcall, hout, hbegins, hcall', hout', hbegins', hresults'⟩

end File

end UefiLinux
