/-
What `fd_write` prints.  The conversion is followed unit by unit: after each byte the
stores are the transcoded text so far, in order, so the buffer holds exactly that text.
-/
import UefiLinux.Cells
import UefiLinux.ConsoleBuffer
import Mathlib.Data.List.Induction

namespace UefiLinux

open Progress Journal Words

/-- The units that stand for a byte on the console. -/
def transcodeByte (byte : UInt8) : List UInt16 :=
  if byte = 0 then []
  else if byte = lineFeed then [carriageReturn.toUInt16, lineFeed.toUInt16]
  else [UInt16.ofNat byte.toNat]

def transcode (bytes : List UInt8) : List UInt16 := bytes.flatMap transcodeByte

@[simp] theorem transcode_append (first second : List UInt8) :
    transcode (first ++ second) = transcode first ++ transcode second :=
  List.flatMap_append

theorem transcodeByte_length (byte : UInt8) :
    (transcodeByte byte).length = unitsOf byte := by
  rw [transcodeByte, unitsOf]
  split
  · rfl
  · split <;> rfl

theorem transcode_length (bytes : List UInt8) :
    (transcode bytes).length = unitsIn bytes := by
  induction bytes with
  | nil => rfl
  | cons byte rest ih =>
      rw [unitsIn_cons, ← ih, ← transcodeByte_length]
      exact List.length_append

/-- No unit of a transcoded text ends it. -/
theorem zero_not_mem_transcode (bytes : List UInt8) : 0 ∉ transcode bytes := by
  rw [transcode, List.mem_flatMap]
  rintro ⟨byte, _, hzero⟩
  rw [transcodeByte] at hzero
  split at hzero
  · cases hzero
  · rename_i hnul
    split at hzero
    · exact absurd hzero (by decide)
    · rw [List.mem_singleton, ← UInt16.toNat_inj, UInt16.toNat_ofNat'] at hzero
      have hbyte := byte.toNat_lt
      have hback : byte.toNat = 0 := by
        change 0 = byte.toNat % 2 ^ 16 at hzero
        omega
      exact hnul (UInt8.toNat_inj.mp hback)

/-- The stores that put a text into the buffer from its start. -/
def unitStores (units : List UInt16) : List (UInt32 × UInt16) :=
  units.mapIdx fun i unit => (UInt32.ofNat i, unit)

theorem unitStores_append_singleton (units : List UInt16) (unit : UInt16) :
    unitStores (units ++ [unit]) =
      unitStores units ++ [(UInt32.ofNat units.length, unit)] := by
  simp [unitStores, List.mapIdx_append]

/-- Each unit is found where it was stored. -/
theorem strBufUnit_unitStores {units : List UInt16} (hfit : units.length < 2 ^ 32)
    (index : Nat) : strBufUnit (unitStores units) index = units[index]? := by
  induction units using List.reverseRecOn with
  | nil => rfl
  | append_singleton units unit ih =>
      rw [List.length_append, List.length_singleton] at hfit
      have hlast : (UInt32.ofNat units.length).toNat = units.length := by
        rw [UInt32.toNat_ofNat', Nat.mod_eq_of_lt (by omega)]
      have hbefore := ih (by omega)
      rw [unitStores_append_singleton, strBufUnit, List.reverse_append]
      simp only [List.reverse_singleton, List.singleton_append, List.find?_cons, hlast]
      by_cases hindex : units.length = index
      · subst hindex
        simp
      · rw [decide_eq_false hindex]
        rw [strBufUnit] at hbefore
        rw [hbefore]
        simp only [List.getElem?_append, List.getElem?_singleton]
        split
        · rfl
        · rename_i hlate
          rw [if_neg (by omega), List.getElem?_eq_none (not_lt.mp hlate)]

/-- A text without a NUL is read back up to the NUL stored after it. -/
theorem strBufText_unitStores {units : List UInt16} (hfit : units.length + 1 < 2 ^ 32)
    (hzero : 0 ∉ units) {left index : Nat} (hleft : units.length < left + index) :
    strBufText (unitStores (units ++ [0])) left index = units.drop index := by
  have hfit' : (units ++ [(0 : UInt16)]).length < 2 ^ 32 := by simpa using hfit
  induction left generalizing index with
  | zero =>
      rw [strBufText, List.drop_eq_nil_of_le (by omega)]
  | succ left ih =>
      rw [strBufText, strBufUnit_unitStores hfit']
      by_cases hindex : index < units.length
      · have hunit : units[index] ≠ 0 := fun heq => hzero (heq ▸ List.getElem_mem hindex)
        rw [List.getElem?_append_left hindex, List.getElem?_eq_getElem hindex]
        simp only [if_neg hunit]
        rw [ih (by omega), List.drop_eq_getElem_cons hindex]
      · rw [List.drop_eq_nil_of_le (by omega)]
        by_cases hend : index = units.length
        · subst hend
          simp
        · rw [List.getElem?_eq_none (by simp; omega)]

theorem charUnit_eq (byte : UInt8) : charUnit byte = UInt16.ofNat byte.toNat := by
  rw [charUnit, toUInt16_or_zero]
  apply UInt16.toNat.inj
  have hbyte := byte.toNat_lt
  rw [UInt8.toNat_toUInt16, UInt16.toNat_ofNat', Nat.mod_eq_of_lt (by omega)]

/-- One pass of the loop stores the units of its byte. -/
theorem StrCursor.Fits.next_stores {cursor : StrCursor} {bytes : List UInt8}
    (hfits : cursor.Fits bytes)
    (hstores : cursor.stores = unitStores (transcode bytes)) (byte : UInt8) :
    (cursor.next byte).stores = unitStores (transcode (bytes ++ [byte])) := by
  have hindex : cursor.strIt = UInt32.ofNat (transcode bytes).length := by
    rw [transcode_length, ← hfits.strIt, UInt32.ofNat_toNat]
  have hsingle : transcode [byte] = transcodeByte byte := List.append_nil _
  rw [transcode_append, hsingle, StrCursor.next, transcodeByte]
  by_cases hnul : byte = 0
  · rw [if_pos hnul, if_pos hnul, List.append_nil]
    exact hstores
  · rw [if_neg hnul, if_neg hnul]
    by_cases hline : byte = lineFeed
    · have hsecond : UInt32.ofNat ((transcode bytes).length + 1) =
          UInt32.ofNat (transcode bytes).length + 1 := UInt32.ofNat_add _ _
      have hpair : transcode bytes ++ [carriageReturn.toUInt16, lineFeed.toUInt16] =
          (transcode bytes ++ [carriageReturn.toUInt16]) ++ [lineFeed.toUInt16] := by
        rw [List.append_assoc]
        rfl
      rw [if_pos hline, if_pos hline, hpair, unitStores_append_singleton,
        unitStores_append_singleton, List.length_append, List.length_singleton, hsecond]
      change cursor.stores ++ _ = _
      rw [hstores, hindex, List.append_assoc]
      rfl
    · rw [if_neg hline, if_neg hline, unitStores_append_singleton]
      change cursor.stores ++ _ = _
      rw [hstores, hindex, charUnit_eq]

theorem StrCursor.Fits.feed_stores {cursor : StrCursor} {done rest : List UInt8}
    (hfits : cursor.Fits done) (hsmall : done.length + rest.length < 2 ^ 31)
    (hstores : cursor.stores = unitStores (transcode done)) :
    (cursor.feed rest).stores = unitStores (transcode (done ++ rest)) := by
  induction rest generalizing cursor done with
  | nil => simpa [StrCursor.feed] using hstores
  | cons byte rest ih =>
      simp only [List.length_cons] at hsmall
      have hnext := hfits.next (by omega) byte
      have hnextStores := hfits.next_stores hstores byte
      have hlength : (done ++ [byte]).length + rest.length < 2 ^ 31 := by
        simp only [List.length_append, List.length_singleton]
        omega
      have hrest := ih hnext hlength hnextStores
      rw [List.append_assoc] at hrest
      exact hrest

section Write

variable (m : Machine) (buf : UInt64) {count : UInt64}

/-- The whole conversion stores the transcoded text and the NUL after it. -/
theorem writeStores_eq (hcount : count.toNat < 2 ^ 31) :
    writeStores m buf count = unitStores (transcode (writeText m buf count) ++ [0]) := by
  have hfits := conversion_fits m buf hcount
  have hstart : StrCursor.Fits ⟨0, 0, []⟩ [] := ⟨rfl, rfl, by simp⟩
  have hsmall : ([] : List UInt8).length + (writeText m buf count).length < 2 ^ 31 := by
    simpa using hcount
  have hstores := hstart.feed_stores hsmall rfl
  rw [List.nil_append] at hstores
  rw [writeStores, StrCursor.allStores, hstores, unitStores_append_singleton,
    transcode_length, ← hfits.strIt, UInt32.ofNat_toNat]

/-- The string in the buffer is the transcoded text. -/
theorem writeString_eq (hcount : count.toNat < 2 ^ 31) :
    strBufText (writeStores m buf count) (writeStores m buf count).length 0 =
      transcode (writeText m buf count) := by
  have hunits := unitsIn_le (writeText m buf count)
  rw [writeText_length] at hunits
  rw [writeStores_eq m buf hcount, strBufText_unitStores, List.drop_zero]
  · rw [transcode_length]
    omega
  · exact zero_not_mem_transcode _
  · simp [unitStores]

/-- The text that is converted is what lies in memory. -/
theorem writeText_eq_bytes (hcount : count.toNat < 2 ^ 31) :
    writeText m buf count = m.mem.bytes buf count.toNat := by
  rw [writeText, bytesFrom, Memory.bytes, List.range_eq_range']
  apply List.map_congr_left
  intro i hi
  have hsmall : i < 2 ^ 32 := by
    rw [List.mem_range'_1] at hi
    omega
  have hindex : (UInt32.ofNat i).toUInt64 = UInt64.ofNat i := by
    apply UInt64.toNat.inj
    rw [UInt32.toNat_toUInt64, UInt32.toNat_ofNat', UInt64.toNat_ofNat',
      Nat.mod_eq_of_lt hsmall, Nat.mod_eq_of_lt (by omega)]
  rw [hindex]

end Write

section Sized

variable (p : Platform)

/-- Every store of the conversion lies in a buffer of so many units. -/
def StoresFit (m : Machine) (buf count size : UInt64) : Prop :=
  ∀ s ∈ writeStores m buf count, s.1.toNat < size.toNat

/-- The writes of consecutive pieces of one text, each with a buffer of the size that goes
with its length. -/
def consecutiveWrites (fuel : Nat) (size : UInt64 → UInt64) (fd : Int) :
    (buf : UInt64) → List UInt64 → M PUnit
  | _, [] => pure ⟨⟩
  | buf, count :: rest => do
      let _ ← fdWriteSized p fuel (size count) fd buf count
      consecutiveWrites fuel size fd (buf + count) rest

/-- Every piece of a text fits the buffer of its own write. -/
def PiecesFit (m : Machine) (size : UInt64 → UInt64) : (buf : UInt64) → List UInt64 → Prop
  | _, [] => True
  | buf, count :: rest =>
      StoresFit m buf count (size count) ∧ PiecesFit m size (buf + count) rest

/-- What the calls of a journal print. -/
def printedBy (log : List Event) : List UInt16 :=
  log.flatMap fun e =>
    match e.call with
    | .outputString text => text
    | _ => []

variable {count size : UInt64} {fuel : Nat} {fd : Int}

/-- The stores fit exactly when the terminator, which is the last of them, does. -/
theorem storesFit_iff (m : Machine) (buf : UInt64) (hcount : count.toNat < 2 ^ 31) :
    StoresFit m buf count size ↔ unitsIn (writeText m buf count) < size.toNat := by
  have hfits := conversion_fits m buf hcount
  simp only [StoresFit, writeStores, StrCursor.allStores, List.mem_append, List.mem_singleton]
  constructor
  · intro hall
    rw [← hfits.strIt]
    exact hall _ (Or.inr rfl)
  · rintro hunits s (hs | rfl)
    · exact (hfits.stores s hs).trans hunits
    · exact hfits.strIt ▸ hunits

/-- The declared buffer is one of `count*2` units. -/
theorem storesFit_of_inBuffer {m : Machine} {buf : UInt64} (hcount : count.toNat < 2 ^ 31)
    (hstores : StoresInBuffer m buf count) : StoresFit m buf count (count * 2) := by
  rw [storesInBuffer_iff_stores m buf hcount] at hstores
  have hdouble : (count * 2).toNat = count.toNat * 2 := by
    rw [UInt64.toNat_mul]
    change count.toNat * 2 % 2 ^ 64 = count.toNat * 2
    exact Nat.mod_eq_of_lt (by omega)
  rw [StoresFit, hdouble]
  exact hstores

/-- With room for every store the write prints the transcoded text in one call. -/
theorem fdWriteSized_run {m : Machine} {buf : UInt64} (hcount : count.toNat < 2 ^ 31)
    (hfit : StoresFit m buf count size) (hfd : fd = 1 ∨ fd = 2) (hfuel : count.toNat < fuel) :
    ∃ v, (fdWriteSized p fuel size fd buf count).run m =
      .ok v (p.after m (.outputString (transcode (m.mem.bytes buf count.toNat)))) := by
  have hroom : (writeStores m buf count).find?
      (fun s => decide (size ≤ s.1.toUInt64)) = none := by
    rw [List.find?_eq_none]
    intro s hs
    have hlt := hfit s hs
    rw [decide_eq_true_eq, UInt64.le_iff_toNat_le, UInt32.toNat_toUInt64]
    omega
  rw [fdWriteSized_console_run m buf hcount p hfd, if_pos hfuel, hroom]
  simp only
  rw [writeString_eq m buf hcount, writeText_eq_bytes m buf hcount, reportedCall_run p rfl]
  exact ⟨_, rfl⟩

/-- What a write stores in its buffer depends on memory only. -/
theorem storesFit_congr {m m' : Machine} (hmem : m'.mem = m.mem) (buf : UInt64) :
    StoresFit m' buf count size ↔ StoresFit m buf count size := by
  rw [StoresFit, StoresFit, writeStores, writeStores, writeText, writeText, hmem]

theorem piecesFit_congr {m m' : Machine} (hmem : m'.mem = m.mem) {size : UInt64 → UInt64}
    {buf : UInt64} {counts : List UInt64} :
    PiecesFit m' size buf counts ↔ PiecesFit m size buf counts := by
  induction counts generalizing buf with
  | nil => exact Iff.rfl
  | cons count rest ih => rw [PiecesFit, PiecesFit, storesFit_congr hmem, ih]

/-- Consecutive writes print the transcoded text of all their pieces. -/
theorem consecutiveWrites_run {size : UInt64 → UInt64} {m : Machine} {buf : UInt64}
    (hfd : fd = 1 ∨ fd = 2) {counts : List UInt64}
    (hcounts : (counts.map UInt64.toNat).sum < 2 ^ 31)
    (hfit : PiecesFit m size buf counts) (hfuel : (counts.map UInt64.toNat).sum < fuel) :
    ∃ m' new, (consecutiveWrites p fuel size fd buf counts).run m = .ok ⟨⟩ m' ∧
      m'.trace = m.trace ++ new ∧
      printedBy new =
        transcode (m.mem.bytes buf (counts.map UInt64.toNat).sum) := by
  induction counts generalizing m buf with
  | nil => exact ⟨m, [], rfl, (List.append_nil _).symm, rfl⟩
  | cons count rest ih =>
      rw [List.map_cons, List.sum_cons] at hcounts hfuel ⊢
      obtain ⟨hpiece, hrest⟩ := hfit
      have hcount : count.toNat < 2 ^ 31 := by omega
      obtain ⟨v, hfirst⟩ := fdWriteSized_run p hcount hpiece hfd (by omega : count.toNat < fuel)
      generalize hcall : Call.outputString (transcode (m.mem.bytes buf count.toNat)) = call
        at hfirst
      have hafter : PiecesFit (p.after m call) size (buf + count) rest :=
        (piecesFit_congr (p.after_mem m call)).mpr hrest
      obtain ⟨m', new, hrun, htrace, hprinted⟩ := ih (by omega) hafter (by omega)
      refine ⟨m', p.answer m call :: new, ?_, ?_, ?_⟩
      · rw [consecutiveWrites, run_bind_of_ok hfirst, hrun]
      · rw [htrace, Platform.after_trace, List.append_assoc]
        rfl
      · have hone : printedBy (p.answer m call :: new) =
            transcode (m.mem.bytes buf count.toNat) ++ printedBy new := by
          rw [← hcall]
          rfl
        rw [hone, hprinted, Memory.bytes_add, transcode_append, UInt64.ofNat_toNat]
        rfl

/-- A piece of a text takes no more units than the text. -/
theorem piecesFit_of_storesFit {m : Machine} {buf : UInt64} {counts : List UInt64}
    (hcounts : (counts.map UInt64.toNat).sum < 2 ^ 31)
    (hunits : unitsIn (m.mem.bytes buf (counts.map UInt64.toNat).sum) < size.toNat) :
    PiecesFit m (fun _ => size) buf counts := by
  induction counts generalizing buf with
  | nil => trivial
  | cons count rest ih =>
      rw [List.map_cons, List.sum_cons] at hcounts hunits
      rw [Memory.bytes_add, UInt64.ofNat_toNat, unitsIn_append] at hunits
      refine ⟨?_, ih (by omega) (by omega)⟩
      rw [storesFit_iff m buf (by omega), writeText_eq_bytes m buf (by omega)]
      change _ < size.toNat
      omega

end Sized

/-- For every size of the buffer in which all stores of a console write lie, the write
prints the transcoding of its bytes, a string without a NUL, in one call, and however the
text is split into consecutive writes with that buffer, they print together what the
single write prints.  `fd_write` itself is the write whose buffer has `count*2` units. -/
theorem console_write_transcodes (p : Platform) (m : Machine) (buf : UInt64)
    {count : UInt64} {fuel : Nat} {fd : Int} (hcount : count.toNat < 2 ^ 31)
    (hfd : fd = 1 ∨ fd = 2) (hfuel : count.toNat < fuel) :
    (∀ size, StoresFit m buf count size →
      (∃ v, (fdWriteSized p fuel size fd buf count).run m =
        .ok v (p.after m (.outputString (transcode (m.mem.bytes buf count.toNat))))) ∧
      ∀ counts : List UInt64, (counts.map UInt64.toNat).sum = count.toNat →
        ∃ m' new, (consecutiveWrites p fuel (fun _ => size) fd buf counts).run m = .ok ⟨⟩ m' ∧
          m'.trace = m.trace ++ new ∧
          printedBy new = transcode (m.mem.bytes buf count.toNat)) ∧
    (StoresInBuffer m buf count → ∃ v, (fdWrite p fuel fd buf count).run m =
      .ok v (p.after m (.outputString (transcode (m.mem.bytes buf count.toNat))))) ∧
    (∀ counts : List UInt64, (counts.map UInt64.toNat).sum = count.toNat →
      PiecesFit m (fun piece => piece * 2) buf counts →
      ∃ m' new, (consecutiveWrites p fuel (fun piece => piece * 2) fd buf counts).run m =
          .ok ⟨⟩ m' ∧
        m'.trace = m.trace ++ new ∧ printedBy new = transcode (m.mem.bytes buf count.toNat)) ∧
    0 ∉ transcode (m.mem.bytes buf count.toNat) := by
  refine ⟨fun size hfit => ⟨fdWriteSized_run p hcount hfit hfd hfuel, fun counts hsum => ?_⟩,
    fun hstores => fdWriteSized_run p hcount (storesFit_of_inBuffer hcount hstores) hfd hfuel,
    fun counts hsum hfit => ?_, zero_not_mem_transcode _⟩
  · rw [storesFit_iff m buf hcount, writeText_eq_bytes m buf hcount, ← hsum] at hfit
    have hpieces := consecutiveWrites_run p hfd (by omega)
      (piecesFit_of_storesFit (by omega) hfit) (hsum ▸ hfuel)
    rwa [hsum] at hpieces
  · have hpieces := consecutiveWrites_run p hfd (by omega) hfit (hsum ▸ hfuel)
    rwa [hsum] at hpieces

/-- The letter, the line feed and the byte above 127 are printed by `fd_write`, and as well
byte after byte when the buffer is large enough. -/
theorem console_write_transcodes_line :
    (∃ v, (fdWrite failingFirmware 4 1 0 3).run lineInMemory =
      .ok v (failingFirmware.after lineInMemory (.outputString [104, 13, 10, 233]))) ∧
    ∃ m' new, (consecutiveWrites failingFirmware 4 (fun _ => 5) 1 0 [1, 1, 1]).run
        lineInMemory = .ok ⟨⟩ m' ∧
      m'.trace = lineInMemory.trace ++ new ∧ printedBy new = [104, 13, 10, 233] := by
  have htext : transcode (lineInMemory.mem.bytes 0 (3 : UInt64).toNat) = [104, 13, 10, 233] := by
    decide
  have hwrite := console_write_transcodes failingFirmware lineInMemory 0
    (show (3 : UInt64).toNat < 2 ^ 31 by decide) (show (1 : Int) = 1 ∨ (1 : Int) = 2 by decide)
    (show (3 : UInt64).toNat < 4 by decide)
  rw [htext] at hwrite
  obtain ⟨hsized, hown, _, _⟩ := hwrite
  have hstores : StoresInBuffer lineInMemory 0 3 := by
    rw [storesInBuffer_iff_text _ _ (by decide)]
    exact ⟨104, by decide, by decide⟩
  have hfit : StoresFit lineInMemory 0 3 5 := by
    rw [storesFit_iff _ _ (by decide)]
    decide
  exact ⟨hown hstores, (hsized 5 hfit).2 [1, 1, 1] (by decide)⟩

example : transcode [72, 0, 10, 233] = [72, 13, 10, 233] := by decide

end UefiLinux
