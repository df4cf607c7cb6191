/-
Reading and writing: the console loops on the standard descriptors, and transfers
on open files.
-/
import UefiLinux.Descriptors

namespace UefiLinux

open Progress Journal

variable (p : Platform)

/-- The string a `CHAR16[2]` buffer of one unit and a NUL holds. -/
def printed (unit : UInt16) : List UInt16 := if unit = 0 then [] else [unit]

def backspace : UInt8 := 0x08
def lineFeed : UInt8 := 0x0a
def carriageReturn : UInt8 := 0x0d

/-- Print a key, with a line feed after a carriage return. -/
def echoKey (key : UInt16) : M PUnit := do
  let _ ← uefiCallWrapper p (.outputString (printed key))
  if key.toUInt8 = carriageReturn then
    let _ ← uefiCallWrapper p (.outputString (printed lineFeed.toUInt16))

/-- One pass of the console loop of `fd_read`, from the exit test to the loop
increment; it breaks with the value of `it`. -/
def consoleReadPass (buf count : UInt64) (it : UInt32) : M (UInt32 ⊕ UInt32) := do
  if it.toUInt64 = count then return .inr it
  let _ ← uefiCallWrapper p (.stall 1000)
  let _ ← uefiCallWrapper p .waitForEvent
  let read ← uefiCallWrapper p .readKeyStroke
  let c := read.key.toUInt8
  if it = 0 ∧ c = backspace then return .inl (it + 1)
  echoKey p read.key
  let c := if c = carriageReturn then lineFeed else c
  storeBytes (buf + it.toUInt64) [c]
  if c = lineFeed then return .inr it
  return .inl (it + 1)

/-- `fd_read` on the console -/
def fdReadConsole (fuel : Nat) (buf count : UInt64) : M Int := do
  let it ← loop .outOfFuel (consoleReadPass p buf count) fuel 0
  return (it + 1).toNat

def fdReadTaken (buf count : UInt64) (handle : FileHandle) : M Int := do
  let read ← uefiCallWrapper p (.read handle count)
  storeBytes buf read.data
  if efiError read.status then return failure read.status
  return read.size.toInt64.toInt

def fdRead (fuel : Nat) (fd : Int) (buf count : UInt64) : M Int := do
  if fd > maxFds then return Errno.ebadf.neg
  if fd = 0 then fdReadConsole p fuel buf count
  else withOpenFd fd (fdReadTaken p buf count)

/-- The locals of the conversion loop of `fd_write`, with the stores it has made
into `str_buf` so far. -/
structure StrCursor where
  it : UInt32
  strIt : UInt32
  stores : List (UInt32 × UInt16)
deriving DecidableEq

/-- The unit a character store puts together from its two bytes. -/
def charUnit (byte : UInt8) : UInt16 := byte.toUInt16 ||| (0 : UInt8).toUInt16 <<< 8

/-- The locals after a pass with the given byte. -/
def StrCursor.next (cursor : StrCursor) (byte : UInt8) : StrCursor :=
  if byte = 0 then
    { it := cursor.it + 1, strIt := cursor.strIt - 1 + 1, stores := cursor.stores }
  else if byte = lineFeed then
    { it := cursor.it + 1
      strIt := cursor.strIt + 1 + 1
      stores := cursor.stores ++
        [(cursor.strIt, carriageReturn.toUInt16),
          (cursor.strIt + 1, lineFeed.toUInt16)] }
  else
    { it := cursor.it + 1
      strIt := cursor.strIt + 1
      stores := cursor.stores ++ [(cursor.strIt, charUnit byte)] }

/-- One pass of the conversion loop of `fd_write`, from the exit test to the loop
increments; the 32-bit `it` is compared with the 64-bit count. -/
def consoleWritePass (buf count : UInt64) (cursor : StrCursor) :
    M (StrCursor ⊕ StrCursor) := do
  if cursor.it.toUInt64 = count then return .inr cursor
  let m : Machine ← get
  return .inl (cursor.next (m.mem (buf + cursor.it.toUInt64)))

/-- Every store of a finished conversion, the terminator last. -/
def StrCursor.allStores (cursor : StrCursor) : List (UInt32 × UInt16) :=
  cursor.stores ++ [(cursor.strIt, 0)]

/-- The unit last stored at an index. -/
def strBufUnit (stores : List (UInt32 × UInt16)) (index : Nat) : Option UInt16 :=
  (stores.reverse.find? fun s => s.1.toNat = index).map Prod.snd

/-- The string in the buffer from an index on, of at most `left` units. -/
def strBufText (stores : List (UInt32 × UInt16)) : (left index : Nat) → List UInt16
  | 0, _ => []
  | left + 1, index =>
      match strBufUnit stores index with
      | none => []
      | some unit =>
          if unit = 0 then [] else unit :: strBufText stores left (index + 1)

/-- `fd_write` on the console with so many units in `str_buf` -/
def fdWriteConsole (fuel : Nat) (size buf count : UInt64) : M Int := do
  let cursor ← loop .outOfFuel (consoleWritePass buf count) fuel ⟨0, 0, []⟩
  match cursor.allStores.find? fun s => decide (size ≤ s.1.toUInt64) with
  | some s => throw (.fault (.strBufIndex s.1))
  | none =>
      let written ← uefiCallWrapper p (.outputString
        (strBufText cursor.allStores cursor.allStores.length 0))
      if efiError written.status then return failure written.status
      return count.toInt64.toInt

def fdWriteTaken (buf count : UInt64) (handle : FileHandle) : M Int := do
  let m : Machine ← get
  let written ← uefiCallWrapper p
    (.write handle count (m.mem.bytes buf count.toNat))
  if efiError written.status then return failure written.status
  return written.size.toInt64.toInt

/-- `fd_write` with so many units in `str_buf` -/
def fdWriteSized (fuel : Nat) (size : UInt64) (fd : Int) (buf count : UInt64) : M Int := do
  if fd > maxFds then return Errno.ebadf.neg
  if fd = 1 ∨ fd = 2 then fdWriteConsole p fuel size buf count
  else withOpenFd fd (fdWriteTaken p buf count)

/-- `fd_write`, which declares `str_buf[count*2]` -/
def fdWrite (fuel : Nat) (fd : Int) (buf count : UInt64) : M Int :=
  fdWriteSized p fuel (count * 2) fd buf count

end UefiLinux
