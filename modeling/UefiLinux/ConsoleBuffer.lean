/-
The conversion buffer of console writes.  A byte takes no unit, one, or two, so the
write index never passes twice the read index; it reaches it when every byte so far
was a line feed, and then the terminator falls just outside the buffer.
-/
import UefiLinux.Console

namespace UefiLinux

open Progress Journal Words

/-- The units that a byte takes in the buffer. -/
def unitsOf (byte : UInt8) : Nat :=
  if byte = 0 then 0 else if byte = lineFeed then 2 else 1

/-- The units that the bytes of a text take in the buffer. -/
def unitsIn (bytes : List UInt8) : Nat := (bytes.map unitsOf).sum

@[simp] theorem unitsIn_nil : unitsIn [] = 0 := rfl

@[simp] theorem unitsIn_append_singleton (bytes : List UInt8) (byte : UInt8) :
    unitsIn (bytes ++ [byte]) = unitsIn bytes + unitsOf byte := by
  simp [unitsIn]

@[simp] theorem unitsIn_cons (byte : UInt8) (bytes : List UInt8) :
    unitsIn (byte :: bytes) = unitsOf byte + unitsIn bytes := by
  simp [unitsIn]

theorem unitsIn_append (first second : List UInt8) :
    unitsIn (first ++ second) = unitsIn first + unitsIn second := by
  simp [unitsIn]

theorem unitsOf_le_two (byte : UInt8) : unitsOf byte ≤ 2 := by
  unfold unitsOf
  split
  · omega
  · split <;> omega

theorem unitsOf_lt_two_iff (byte : UInt8) : unitsOf byte < 2 ↔ byte ≠ lineFeed := by
  unfold unitsOf
  by_cases hnul : byte = 0
  · rw [if_pos hnul, hnul]
    decide
  · rw [if_neg hnul]
    by_cases hline : byte = lineFeed
    · simp [hline]
    · simp [hline]

theorem unitsIn_le (bytes : List UInt8) : unitsIn bytes ≤ 2 * bytes.length := by
  induction bytes with
  | nil => simp
  | cons byte rest ih =>
      have hbyte := unitsOf_le_two byte
      simp only [unitsIn_cons, List.length_cons]
      omega

/-- A text fills its buffer exactly when it has no byte other than line feeds. -/
theorem unitsIn_lt_iff (bytes : List UInt8) :
    unitsIn bytes < 2 * bytes.length ↔ ∃ byte ∈ bytes, byte ≠ lineFeed := by
  induction bytes with
  | nil => simp
  | cons byte rest ih =>
      have hrest := unitsIn_le rest
      have hbyte := unitsOf_le_two byte
      have hline := unitsOf_lt_two_iff byte
      simp only [unitsIn_cons, List.length_cons, List.mem_cons, exists_eq_or_imp,
        ← ih, ← hline]
      omega

/-- The locals of the loop after the given bytes: both indices count without having
wrapped, and every store so far lies below the write index. -/
structure StrCursor.Fits (cursor : StrCursor) (bytes : List UInt8) : Prop where
  it : cursor.it.toNat = bytes.length
  strIt : cursor.strIt.toNat = unitsIn bytes
  stores : ∀ s ∈ cursor.stores, s.1.toNat < unitsIn bytes

/-- Every pass counts, whatever its byte. -/
theorem StrCursor.next_it (cursor : StrCursor) (byte : UInt8) :
    (cursor.next byte).it = cursor.it + 1 := by
  unfold StrCursor.next
  split
  · rfl
  · split
    · rfl
    · rfl

/-- A pass keeps the locals in order when it counts the units of its byte and stores
below the new write index only. -/
theorem StrCursor.Fits.extend {cursor next : StrCursor} {bytes : List UInt8} {byte : UInt8}
    {added : List (UInt32 × UInt16)} (hfits : cursor.Fits bytes)
    (hsmall : bytes.length + 1 < 2 ^ 31) (hit : next.it = cursor.it + 1)
    (hstrIt : next.strIt.toNat = unitsIn bytes + unitsOf byte)
    (hstores : next.stores = cursor.stores ++ added)
    (hadded : ∀ s ∈ added, s.1.toNat < unitsIn bytes + unitsOf byte) :
    next.Fits (bytes ++ [byte]) := by
  refine ⟨?_, ?_, ?_⟩
  · rw [hit, toNat_add_one (by rw [hfits.it]; omega), hfits.it, List.length_append,
      List.length_singleton]
  · rw [hstrIt, unitsIn_append_singleton]
  · intro s hs
    rw [unitsIn_append_singleton]
    rw [hstores, List.mem_append] at hs
    rcases hs with hs | hs
    · exact Nat.lt_add_right _ (hfits.stores s hs)
    · exact hadded s hs

/-- One pass of the loop, by the kind of the byte. -/
theorem StrCursor.Fits.next {cursor : StrCursor} {bytes : List UInt8}
    (hfits : cursor.Fits bytes) (hsmall : bytes.length + 1 < 2 ^ 31) (byte : UInt8) :
    (cursor.next byte).Fits (bytes ++ [byte]) := by
  have hunits := unitsIn_le bytes
  have hstrIt := hfits.strIt
  have hone : (cursor.strIt + 1).toNat = unitsIn bytes + 1 := by
    rw [toNat_add_one (by omega), hstrIt]
  have hit := cursor.next_it byte
  unfold StrCursor.next at hit ⊢
  by_cases hnul : byte = 0
  · have hnone : unitsOf byte = 0 := if_pos hnul
    have hkept : cursor.stores = cursor.stores ++ [] := (List.append_nil _).symm
    rw [if_pos hnul] at hit ⊢
    refine hfits.extend hsmall hit ?_ hkept (by simp)
    rw [UInt32.sub_add_cancel, hstrIt, hnone, Nat.add_zero]
  · rw [if_neg hnul] at hit ⊢
    by_cases hline : byte = lineFeed
    · have htwo : unitsOf byte = 2 := by rw [unitsOf, if_neg hnul, if_pos hline]
      rw [if_pos hline] at hit ⊢
      refine hfits.extend hsmall hit ?_ rfl ?_
      · change (cursor.strIt + 1 + 1).toNat = _
        rw [toNat_add_one (by omega), hone, htwo]
      · intro s hs
        rw [htwo]
        simp only [List.mem_cons, List.not_mem_nil, or_false] at hs
        rcases hs with rfl | rfl
        · change cursor.strIt.toNat < _
          omega
        · change (cursor.strIt + 1).toNat < _
          omega
    · have hunit : unitsOf byte = 1 := by rw [unitsOf, if_neg hnul, if_neg hline]
      rw [if_neg hline] at hit ⊢
      refine hfits.extend hsmall hit ?_ rfl ?_
      · rw [hone, hunit]
      · intro s hs
        rw [List.mem_singleton.mp hs, hunit, hstrIt]
        exact Nat.lt_succ_self _

/-- The loop over the rest of the text. -/
def StrCursor.feed (cursor : StrCursor) (bytes : List UInt8) : StrCursor :=
  bytes.foldl StrCursor.next cursor

theorem StrCursor.Fits.feed {cursor : StrCursor} {done rest : List UInt8}
    (hfits : cursor.Fits done) (hsmall : done.length + rest.length < 2 ^ 31) :
    (cursor.feed rest).Fits (done ++ rest) := by
  induction rest generalizing cursor done with
  | nil => simpa [StrCursor.feed] using hfits
  | cons byte rest ih =>
      simp only [List.length_cons] at hsmall
      have hnext := hfits.next (by omega) byte
      have hlength : (done ++ [byte]).length + rest.length < 2 ^ 31 := by
        simp only [List.length_append, List.length_singleton]
        omega
      have hrest := ih hnext hlength
      rw [List.append_assoc] at hrest
      exact hrest

/-- The bytes that the loop reads from an index on. -/
def bytesFrom (src : UInt32 → UInt8) (first left : Nat) : List UInt8 :=
  (List.range' first left).map fun i => src (UInt32.ofNat i)

section Write

variable (m : Machine) (buf count : UInt64)

/-- The conversion loop of `fd_write`, with a budget. -/
def conversion (fuel : Nat) (cursor : StrCursor) : M StrCursor :=
  loop .outOfFuel (consoleWritePass buf count) fuel cursor

/-- The text that `fd_write` reads from the caller. -/
def writeText : List UInt8 :=
  bytesFrom (fun it => m.mem (buf + it.toUInt64)) 0 count.toNat

@[simp] theorem writeText_length : (writeText m buf count).length = count.toNat := by
  simp [writeText, bytesFrom]

variable {m buf count}

theorem consoleWritePass_run_full {cursor : StrCursor} (hfull : cursor.it.toUInt64 = count) :
    (consoleWritePass buf count cursor).run m = .ok (.inr cursor) m := by
  rw [consoleWritePass, if_pos hfull]
  rfl

theorem consoleWritePass_run_more {cursor : StrCursor} (hmore : cursor.it.toUInt64 ≠ count) :
    (consoleWritePass buf count cursor).run m =
      .ok (.inl (cursor.next (m.mem (buf + cursor.it.toUInt64)))) m := by
  rw [consoleWritePass, if_neg hmore]
  rfl

variable (m buf)

/-- With a budget the loop ends, and has then read every byte. -/
theorem conversion_run_from (hcount : count.toNat < 2 ^ 31) (fuel left : Nat)
    (cursor : StrCursor) (hleft : cursor.it.toNat + left = count.toNat) :
    (conversion buf count fuel cursor).run m =
      if left < fuel then
        .ok (cursor.feed (bytesFrom (fun it => m.mem (buf + it.toUInt64)) cursor.it.toNat left)) m
      else .error .outOfFuel m := by
  induction fuel generalizing left cursor with
  | zero => rfl
  | succ fuel ih =>
      cases left with
      | zero =>
          have hend : cursor.it.toUInt64 = count := by
            apply UInt64.toNat.inj
            rw [UInt32.toNat_toUInt64]
            omega
          rw [conversion, loop_run_of_inr (consoleWritePass_run_full hend), if_pos (by omega)]
          rfl
      | succ left =>
          have hgoes : ¬ cursor.it.toUInt64 = count := by
            intro hend
            have hnat := congrArg UInt64.toNat hend
            rw [UInt32.toNat_toUInt64] at hnat
            omega
          generalize hnext : cursor.next (m.mem (buf + cursor.it.toUInt64)) = next
          have hit : next.it.toNat = cursor.it.toNat + 1 := by
            rw [← hnext, StrCursor.next_it, toNat_add_one (by omega)]
          have hrest := ih left next (by omega)
          rw [conversion] at hrest
          rw [conversion, loop_run_of_inl (consoleWritePass_run_more hgoes), hnext, hrest, hit]
          have hbytes : bytesFrom (fun it => m.mem (buf + it.toUInt64)) cursor.it.toNat (left + 1) =
              m.mem (buf + cursor.it.toUInt64) ::
                bytesFrom (fun it => m.mem (buf + it.toUInt64)) (cursor.it.toNat + 1) left := by
            rw [bytesFrom, List.range'_succ, List.map_cons, UInt32.ofNat_toNat]
            rfl
          rw [hbytes, ← hnext]
          by_cases hfuel : left < fuel
          · rw [if_pos hfuel, if_pos (by omega)]
            rfl
          · rw [if_neg hfuel, if_neg (by omega)]

/-- The conversion needs a budget of one pass more than there are bytes. -/
theorem conversion_run (hcount : count.toNat < 2 ^ 31) (fuel : Nat) :
    (conversion buf count fuel ⟨0, 0, []⟩).run m =
      if count.toNat < fuel then
        .ok (StrCursor.feed ⟨0, 0, []⟩ (writeText m buf count)) m
      else .error .outOfFuel m :=
  conversion_run_from m buf hcount fuel count.toNat ⟨0, 0, []⟩ (Nat.zero_add _)

/-- Every store of the conversion of the text, the terminator last. -/
def writeStores (count : UInt64) : List (UInt32 × UInt16) :=
  (StrCursor.feed ⟨0, 0, []⟩ (writeText m buf count)).allStores

theorem conversion_fits (hcount : count.toNat < 2 ^ 31) :
    (StrCursor.feed ⟨0, 0, []⟩ (writeText m buf count)).Fits (writeText m buf count) := by
  have hstart : StrCursor.Fits ⟨0, 0, []⟩ [] := ⟨rfl, rfl, by simp⟩
  have hsmall : ([] : List UInt8).length + (writeText m buf count).length < 2 ^ 31 := by
    simpa using hcount
  exact hstart.feed hsmall

/-- Every store of a finished conversion is in bounds exactly when the terminator
is. -/
theorem StrCursor.Fits.allStores_lt_iff {cursor : StrCursor} {bytes : List UInt8}
    (hfits : cursor.Fits bytes) :
    (∀ s ∈ cursor.allStores, s.1.toNat < bytes.length * 2) ↔
      unitsIn bytes < 2 * bytes.length := by
  simp only [StrCursor.allStores, List.mem_append, List.mem_singleton]
  constructor
  · intro hall
    have hlast := hall (cursor.strIt, 0) (Or.inr rfl)
    rw [hfits.strIt] at hlast
    omega
  · rintro hunits s (hs | rfl)
    · have hstore := hfits.stores s hs
      omega
    · rw [hfits.strIt]
      omega

theorem exists_mem_writeText_iff :
    (∃ byte ∈ writeText m buf count, byte ≠ lineFeed) ↔
      ∃ i < count.toNat, m.mem (buf + (UInt32.ofNat i).toUInt64) ≠ lineFeed := by
  simp only [writeText, bytesFrom, List.mem_map, List.mem_range'_1, Nat.zero_le,
    true_and, Nat.zero_add]
  constructor
  · rintro ⟨byte, ⟨i, hi, rfl⟩, hbyte⟩
    exact ⟨i, hi, hbyte⟩
  · rintro ⟨i, hi, hbyte⟩
    exact ⟨_, ⟨i, hi, rfl⟩, hbyte⟩

variable (count)

/-- The conversion of `fd_write` ends, and every index it stores to in `str_buf` lies
below the declared length. -/
def StoresInBuffer : Prop :=
  ∃ fuel cursor m', (conversion buf count fuel ⟨0, 0, []⟩).run m = .ok cursor m' ∧
    ∀ s ∈ cursor.allStores, s.1.toNat < count.toNat * 2

variable {count}

/-- The stores of the conversion do not depend on the budget. -/
theorem storesInBuffer_iff_stores (hcount : count.toNat < 2 ^ 31) :
    StoresInBuffer m buf count ↔
      ∀ s ∈ writeStores m buf count, s.1.toNat < count.toNat * 2 := by
  constructor
  · rintro ⟨fuel, cursor, m', hrun, hall⟩
    rw [conversion_run m buf hcount] at hrun
    split at hrun
    · rw [EStateM.Result.ok.injEq] at hrun
      rw [writeStores, hrun.1]
      exact hall
    · cases hrun
  · intro hall
    refine ⟨count.toNat + 1, _, m, ?_, hall⟩
    rw [conversion_run m buf hcount, if_pos (by omega)]

theorem storesInBuffer_iff_text (hcount : count.toNat < 2 ^ 31) :
    StoresInBuffer m buf count ↔ ∃ byte ∈ writeText m buf count, byte ≠ lineFeed := by
  have hfits := conversion_fits m buf hcount
  rw [storesInBuffer_iff_stores m buf hcount, ← unitsIn_lt_iff,
    ← hfits.allStores_lt_iff, writeText_length, writeStores]

/-- The bounds check of the model's buffer is the declared length. -/
theorem outside_iff (hcount : count.toNat < 2 ^ 31) (index : UInt32) :
    count * 2 ≤ index.toUInt64 ↔ count.toNat * 2 ≤ index.toNat := by
  have hdouble : (count * 2).toNat = count.toNat * 2 := by
    rw [UInt64.toNat_mul]
    change count.toNat * 2 % 2 ^ 64 = count.toNat * 2
    exact Nat.mod_eq_of_lt (by omega)
  rw [UInt64.le_iff_toNat_le, hdouble, UInt32.toNat_toUInt64]

/-- What `fd_write` does on the console once the text is converted, with so many units in
its buffer. -/
theorem fdWriteSized_console_run (hcount : count.toNat < 2 ^ 31) (p : Platform) {fd : Int}
    (hfd : fd = 1 ∨ fd = 2) (fuel : Nat) (size : UInt64) :
    (fdWriteSized p fuel size fd buf count).run m =
      if count.toNat < fuel then
        match (writeStores m buf count).find? fun s => decide (size ≤ s.1.toUInt64) with
        | some s => .error (.fault (.strBufIndex s.1)) m
        | none => (do
            let written ← uefiCallWrapper p (.outputString
              (strBufText (writeStores m buf count) (writeStores m buf count).length 0))
            if efiError written.status then return failure written.status
            return count.toInt64.toInt : M Int).run m
      else .error .outOfFuel m := by
  have hlow : ¬ fd > (maxFds : Int) := by
    simp only [maxFds]
    omega
  have hrun := conversion_run m buf hcount fuel
  rw [conversion] at hrun
  rw [fdWriteSized, if_neg hlow, if_pos hfd, fdWriteConsole]
  by_cases hfuel : count.toNat < fuel
  · rw [if_pos hfuel] at hrun
    rw [run_bind_of_ok hrun, if_pos hfuel]
    simp only [writeStores]
    cases (StrCursor.feed ⟨0, 0, []⟩ (writeText m buf count)).allStores.find?
        fun s => decide (size ≤ s.1.toUInt64) with
    | some s => rfl
    | none => rfl
  · rw [if_neg hfuel] at hrun
    rw [EStateM.run_bind, hrun, if_neg hfuel]

/-- `fd_write` on the console leaves its buffer exactly when some store lies outside
it. -/
theorem fdWrite_faults_iff (hcount : count.toNat < 2 ^ 31) (p : Platform) {fd : Int}
    (hfd : fd = 1 ∨ fd = 2) :
    (∃ fuel index m', (fdWrite p fuel fd buf count).run m =
      .error (.fault (.strBufIndex index)) m') ↔ ¬ StoresInBuffer m buf count := by
  rw [storesInBuffer_iff_stores m buf hcount]
  constructor
  · rintro ⟨fuel, index, m', hrun⟩ hall
    rw [fdWrite, fdWriteSized_console_run m buf hcount p hfd] at hrun
    split at hrun
    · split at hrun
      · rename_i s hfind
        have hmem := List.mem_of_find?_eq_some hfind
        have hout : count * 2 ≤ s.1.toUInt64 := by simpa using List.find?_some hfind
        have hin := hall s hmem
        rw [outside_iff hcount] at hout
        omega
      · rw [reportedCall_run p rfl] at hrun
        cases hrun
    · cases hrun
  · intro hout
    obtain ⟨s, hs, hindex⟩ :
        ∃ s ∈ writeStores m buf count, count * 2 ≤ s.1.toUInt64 := by
      by_contra hnone
      apply hout
      intro s hs
      by_contra hbig
      exact hnone ⟨s, hs, (outside_iff hcount s.1).mpr (by omega)⟩
    have hsome : ((writeStores m buf count).find? fun s =>
        decide (count * 2 ≤ s.1.toUInt64)).isSome = true :=
      List.find?_isSome.mpr ⟨s, hs, decide_eq_true hindex⟩
    obtain ⟨found, hfind⟩ := Option.isSome_iff_exists.mp hsome
    refine ⟨count.toNat + 1, found.1, m, ?_⟩
    rw [fdWrite, fdWriteSized_console_run m buf hcount p hfd, if_pos (by omega), hfind]

end Write

/-- A console write of fewer than 2^31 bytes stays inside its buffer exactly when the
text has a byte other than a line feed. -/
theorem console_write_in_buffer_iff (m : Machine) (buf : UInt64) {count : UInt64}
    (hcount : count.toNat < 2 ^ 31) {fd : Int} (hfd : fd = 1 ∨ fd = 2) :
    (StoresInBuffer m buf count ↔
      ∃ i < count.toNat, m.mem (buf + (UInt32.ofNat i).toUInt64) ≠ lineFeed) ∧
    ∀ p, (∃ fuel index m', (fdWrite p fuel fd buf count).run m =
      .error (.fault (.strBufIndex index)) m') ↔ ¬ StoresInBuffer m buf count := by
  constructor
  · rw [storesInBuffer_iff_text m buf hcount, exists_mem_writeText_iff]
  · intro p
    exact fdWrite_faults_iff m buf hcount p hfd

/-- A letter, a line feed and a byte above 127 in memory. -/
def lineInMemory : Machine :=
  { Machine.blank with mem := Machine.blank.mem.store 0 [104, 10, 233] }

theorem console_write_in_buffer_line :
    StoresInBuffer lineInMemory 0 3 ∧
      ∀ p, ¬ ∃ fuel index m', (fdWrite p fuel 1 0 3).run lineInMemory =
        .error (.fault (.strBufIndex index)) m' := by
  have hwrite := console_write_in_buffer_iff lineInMemory 0
    (show (3 : UInt64).toNat < 2 ^ 31 by decide) (show (1 : Int) = 1 ∨ (1 : Int) = 2 by decide)
  have hstores : StoresInBuffer lineInMemory 0 3 := hwrite.1.mpr ⟨0, by decide, by decide⟩
  exact ⟨hstores, fun p hfaults => (hwrite.2 p).mp hfaults hstores⟩

/-- The line feed that `_puts` ends with, printed alone, puts its terminator outside
the buffer of two units. -/
theorem line_feed_overruns_buffer :
    ¬ ∀ (m : Machine) (buf count : UInt64), count.toNat < 2 ^ 31 →
      StoresInBuffer m buf count := by
  intro hall
  have hstores := hall { Machine.blank with mem := fun _ => lineFeed } 0 1 (by decide)
  rw [storesInBuffer_iff_text _ _ (by decide)] at hstores
  exact absurd hstores (by decide)

end UefiLinux
