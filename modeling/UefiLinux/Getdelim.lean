/-
`my_getdelim`, one action of the source after the other.  The caller keeps the block
and its size between the calls; the counters are unbounded, as no block reaches the size
at which they would wrap.
-/
import UefiLinux.Library.Runs

namespace UefiLinux

/-- The allocator.  It never runs out, `realloc` keeps the bytes of a block that grows,
and all other bytes may differ from one allocation to the next. -/
structure Heap where
  malloc : (now size : Nat) → List UInt8
  malloc_length : ∀ now size, (malloc now size).length = size
  realloc : (now : Nat) → List UInt8 → (size : Nat) → List UInt8
  realloc_length : ∀ now block size, (realloc now block size).length = size
  realloc_take : ∀ now block size, block.length ≤ size →
    (realloc now block size).take block.length = block

/-- What the single-byte reads deliver, one after the other.  The stream ends at the first
place without a byte: no read gets past it. -/
abbrev ByteStream := Nat → Option UInt8

/-- The stream of a list of bytes. -/
def listStream (bytes : List UInt8) : ByteStream := fun n => bytes[n]?

/-- Where a call is.  Each point comes before the action that it names. -/
inductive Point
  | outside
  | reading (delim : UInt8) (outIdx : Nat)
  | growing (delim : UInt8) (outIdx : Nat) (c : UInt8)
  | storing (delim : UInt8) (outIdx : Nat) (c : UInt8)
  | terminating (outIdx : Nat)
  | returning (outIdx : Nat)
  | fault
deriving DecidableEq

/-- The caller's `*out` and `*out_size`, the number of bytes that have been read, and what
the calls have returned. -/
structure Reader where
  out : Option (List UInt8)
  outSize : Nat
  taken : Nat
  results : List Int
  point : Point

/-- Before the first call there is no block, and the size is uninitialised. -/
def Reader.start (outSize : Nat) : Reader := ⟨none, outSize, 0, [], .outside⟩

/-- `*out = malloc(2); *out_size = 1;` when there is no block. -/
def Reader.allocate (heap : Heap) (s : Reader) : Reader :=
  match s.out with
  | none => { s with out := some (heap.malloc s.taken 2), outSize := 1 }
  | some _ => s

/-- A call of `my_getdelim` up to its loop. -/
def Reader.enter (heap : Heap) (delim : Int) (s : Reader) : Reader :=
  { s.allocate heap with point := .reading (UInt8.ofInt delim) 0 }

/-- `(*out_size)++; *out = realloc(*out, *out_size + 1);` -/
def Reader.grow (heap : Heap) (s : Reader) : Reader :=
  { s with
    out := some (heap.realloc s.taken (s.out.getD []) (s.outSize + 1 + 1))
    outSize := s.outSize + 1 }

/-- `(*out)[index] = byte`; a store outside the block is undefined. -/
def Reader.store (s : Reader) (index : Nat) (byte : UInt8) (next : Point) : Reader :=
  match s.out with
  | none => { s with point := .fault }
  | some block =>
      if index < block.length then
        { s with out := some (block.set index byte), point := next }
      else { s with point := .fault }

def Reader.finish (s : Reader) (result : Int) : Reader :=
  { s with results := s.results ++ [result], point := .outside }

/-- `input_buf[input_len-1] = '\0'` in `main`. -/
def Reader.strip (s : Reader) : Reader := s.store (s.outSize - 1) 0 s.point

/-- The next action of a call. -/
def Reader.go (heap : Heap) (stream : ByteStream) (s : Reader) : Option Reader :=
  match s.point with
  | .outside => none
  | .reading delim outIdx =>
      match stream s.taken with
      | none => some (s.finish (-1))
      | some c => some { s with taken := s.taken + 1, point := .growing delim outIdx c }
  | .growing delim outIdx c =>
      if s.outSize < outIdx + 1 then
        some { s.grow heap with point := .storing delim outIdx c }
      else some { s with point := .storing delim outIdx c }
  | .storing delim outIdx c =>
      some (s.store outIdx c
        (if c = delim then .terminating (outIdx + 1) else .reading delim (outIdx + 1)))
  | .terminating outIdx => some (s.store outIdx 0 (.returning outIdx))
  | .returning outIdx => some (s.finish (outIdx + 1))
  | .fault => none

/-- What can happen to the reader: the caller calls, or a call goes on. -/
inductive Move
  | call (delim : Int)
  | go

def Reader.moves (heap : Heap) (stream : ByteStream) : Move → Reader → Reader → Prop
  | .call delim, s, s' => s.point = .outside ∧ s' = s.enter heap delim
  | .go, s, s' => s.go heap stream = some s'

/-- A call of `my_getdelim`, from its entry to its return. -/
def MyGetdelim (heap : Heap) (stream : ByteStream) (delim : Int) (s s' : Reader) : Prop :=
  s.point = .outside ∧ s'.point = .outside ∧
    ∃ actions, Run (fun _ : Unit => Reader.moves heap stream .go) (s.enter heap delim)
      actions s'

/-- A call of `my_getline`. -/
def MyGetline (heap : Heap) (stream : ByteStream) : Reader → Reader → Prop :=
  MyGetdelim heap stream 10

end UefiLinux
