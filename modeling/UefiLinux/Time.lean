/-
Timekeeping: the conversion of firmware dates to Unix time and the handlers that
read the clock or wait.
-/
import UefiLinux.Machine

namespace UefiLinux

open Progress Journal

/-- `time_year_to_secs`: the seconds from 1970 to the start of the year counted
from 1900, and the leap flag.  The `int` locals are integers; the result wraps in
64 bits as in the source. -/
def timeYearToSecs (year : UInt64) : UInt64 × Bool :=
  if year - 2 ≤ 136 then
    let y : Int := year.toNat
    let leaps := (y - 68) >>> (2 : Nat)
    if (y - 68) % 4 = 0 then
      (31536000 * UInt64.ofInt (y - 70) + 86400 * UInt64.ofInt (leaps - 1), true)
    else
      (31536000 * UInt64.ofInt (y - 70) + 86400 * UInt64.ofInt leaps, false)
  else
    let cycles : Int := ((year - 100) / 400).toUInt32.toInt32.toInt
    let rem : Int := ((year - 100) % 400).toNat
    -- `rem < 0` never holds: the remainder was taken in unsigned arithmetic
    let (centuries, rem') : Int × Int :=
      if rem ≥ 300 then (3, rem - 300)
      else if rem ≥ 200 then (2, rem - 200)
      else if rem ≥ 100 then (1, rem - 100)
      else (0, rem)
    let (leaps, isLeap) : Int × Bool :=
      if rem = 0 then (0, true)
      else if rem' = 0 then (0, false)
      else (rem' / 4, decide (rem' % 4 = 0))
    let leaps := leaps + 97 * cycles + 24 * centuries - (if isLeap then 1 else 0)
    ((year - 100) * 31536000 + UInt64.ofInt leaps * 86400 + 946684800 + 86400, isLeap)

def secsThroughMonth : List UInt64 :=
  [0, 31 * 86400, 59 * 86400, 90 * 86400, 120 * 86400, 151 * 86400, 181 * 86400,
    212 * 86400, 243 * 86400, 273 * 86400, 304 * 86400, 334 * 86400]

def timeEfiTimeToTimeT (time : EfiTime) : Int :=
  -- workaround some buggy firmware
  let year16 := time.year + (if time.year > 2000 then UInt16.ofInt (-1900) else 98)
  let month8 := time.month - 1
  let month := month8.toNat
  -- the month is widened from an unsigned byte, so it is never negative
  let (year, month) :=
    if month ≥ 12 then
      (year16.toUInt64 + UInt64.ofNat month / 12, month % 12)
    else (year16.toUInt64, month)
  let (secs, isLeap) := timeYearToSecs year
  let t := secs + secsThroughMonth.getD month 0
  let t := if isLeap ∧ month ≥ 2 then t + 86400 else t
  let t := t + 86400 * UInt64.ofInt ((time.day.toNat : Int) - 1)
  let t := t + 3600 * time.hour.toUInt64
  let t := t + 60 * time.minute.toUInt64
  let t := t + time.second.toUInt64
  t.toInt64.toInt

variable (p : Platform)

/-- `time_cstd_time`; the status of `GetTime` is not looked at. -/
def timeCstdTime : M Int := do
  let got ← uefiCallWrapper p .getTime
  return timeEfiTimeToTimeT got.time

/-- `time_gettimeofday`, writing the two words of the `struct timeval` at `tv`. -/
def timeGettimeofday (tv : UInt64) : M Int := do
  let now ← timeCstdTime p
  storeBytes tv (littleEndian 8 (UInt64.ofInt now).toNat)
  storeBytes (tv + 8) (littleEndian 8 0)
  return 0

/-- `time_sleep` on the `struct timeval` at `duration` -/
def timeSleep (duration : UInt64) : M Int := do
  let m : Machine ← get
  let reply ← uefiCallWrapper p
    (.stall (m.mem.load64 duration * 1000000 + m.mem.load64 (duration + 8)))
  if efiError reply.status then return failure reply.status
  return 0

end UefiLinux
