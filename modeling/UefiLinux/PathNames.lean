/-
The path that the firmware is given.  The conversion copies at most 510 bytes into the
static buffer and closes them with a NUL; nothing of an earlier string is left before it.
-/
import UefiLinux.FileStatus
import UefiLinux.Reporting

namespace UefiLinux

open Progress Journal Patches Words

theorem low_lt (i : Fin 512) : i.1 * 2 < 1024 := by omega

theorem high_lt (i : Fin 512) : i.1 * 2 + 1 < 1024 := by omega

/-- The units of the static buffer. -/
def fresUnits (fres : Fin 1024 → UInt8) : List UInt16 :=
  (List.finRange 512).map fun (i : Fin 512) =>
    (fres ⟨i.1 * 2, low_lt i⟩).toUInt16 ||| (fres ⟨i.1 * 2 + 1, high_lt i⟩).toUInt16 <<< 8

theorem wideUnits_eq (fres : Fin 1024 → UInt8) :
    wideUnits fres = (fresUnits fres).takeWhile (· ≠ 0) := rfl

@[simp] theorem fresUnits_length (fres : Fin 1024 → UInt8) :
    (fresUnits fres).length = 512 := by
  simp [fresUnits]

theorem fresUnits_getElem (fres : Fin 1024 → UInt8) {i : Nat} (hi : i < 512)
    (hbelow : i < (fresUnits fres).length) :
    (fresUnits fres)[i] = (fres ⟨i * 2, by omega⟩).toUInt16 |||
      (fres ⟨i * 2 + 1, by omega⟩).toUInt16 <<< 8 := by
  simp [fresUnits]

/-- The number of bytes that a conversion copies. -/
def copied (input : Nat → UInt8) : (left it : Nat) → Nat
  | 0, _ => 0
  | left + 1, it => if input it = 0 then 0 else copied input left (it + 1) + 1

/-- The conversion stores to every index up to its end, once and in order. -/
theorem points_bstrStores (input : Nat → UInt8) (left it : Nat) :
    points (bstrStores input left it) =
      List.range' (it * 2) (copied input left it * 2 + 2) := by
  induction left generalizing it with
  | zero => rfl
  | succ left ih =>
      rw [bstrStores, copied]
      by_cases hend : input it = 0
      · rw [if_pos hend, if_pos hend]
        rfl
      · rw [if_neg hend, if_neg hend]
        change it * 2 :: (it * 2 + 1) :: points (bstrStores input left (it + 1)) = _
        rw [ih, Nat.add_mul, Nat.add_mul, Nat.add_right_comm]
        rfl

/-- The bytes of a unit of the buffer after the conversion. -/
theorem mem_bstrStores (input : Nat → UInt8) {left it i : Nat}
    (hi : i < copied input left it) :
    ((it + i) * 2, input (it + i)) ∈ bstrStores input left it ∧
      ((it + i) * 2 + 1, 0) ∈ bstrStores input left it := by
  induction left generalizing it i with
  | zero => cases hi
  | succ left ih =>
      rw [copied] at hi
      rw [bstrStores]
      by_cases hend : input it = 0
      · rw [if_pos hend] at hi
        cases hi
      · rw [if_neg hend] at hi ⊢
        cases i with
        | zero => simp
        | succ i =>
            have hrest := @ih (it + 1) i (Nat.lt_of_succ_lt_succ hi)
            rw [Nat.add_right_comm] at hrest
            exact ⟨List.mem_cons_of_mem _ (List.mem_cons_of_mem _ hrest.1),
              List.mem_cons_of_mem _ (List.mem_cons_of_mem _ hrest.2)⟩

theorem end_mem_bstrStores (input : Nat → UInt8) (left it : Nat) :
    ((it + copied input left it) * 2, 0) ∈ bstrStores input left it ∧
      ((it + copied input left it) * 2 + 1, 0) ∈ bstrStores input left it := by
  induction left generalizing it with
  | zero => simp [bstrStores, copied]
  | succ left ih =>
      rw [bstrStores, copied]
      by_cases hend : input it = 0
      · simp [hend]
      · have hrest := ih (it + 1)
        rw [Nat.add_right_comm] at hrest
        rw [if_neg hend, if_neg hend]
        exact ⟨List.mem_cons_of_mem _ (List.mem_cons_of_mem _ hrest.1),
          List.mem_cons_of_mem _ (List.mem_cons_of_mem _ hrest.2)⟩

theorem fresAfter_eq_patch (fres : Fin 1024 → UInt8) (stores : List (Nat × UInt8))
    (k : Fin 1024) :
    fresAfter fres stores k =
      patch (fun i => if h : i < 1024 then fres ⟨i, h⟩ else 0) stores k.1 := by
  induction stores generalizing fres with
  | nil => simp [fresAfter, patch]
  | cons s rest ih =>
      rw [fresAfter, List.foldl_cons, ← fresAfter, ih, patch]
      apply patch_congr
      left
      by_cases hs : s.1 < 1024
      · rw [dif_pos hs, dif_pos k.2]
        by_cases hk : k.1 = s.1
        · have hkey : k = ⟨s.1, hs⟩ := Fin.ext hk
          rw [hkey, Function.update_self, Function.update_self]
        · have hkey : (⟨k.1, k.2⟩ : Fin 1024) ≠ ⟨s.1, hs⟩ := fun heq => hk (Fin.mk.inj heq)
          rw [Function.update_of_ne hkey, Function.update_of_ne hk, dif_pos k.2]
      · have hk : k.1 ≠ s.1 := by
          have hbound := k.2
          omega
        rw [dif_neg hs, Function.update_of_ne hk]

/-- A string of bytes in memory and the NUL that ends it. -/
structure IsCString (mem : Memory) (address : UInt64) (bytes : List UInt8) : Prop where
  noNul : 0 ∉ bytes
  holds : ∀ i (hi : i < bytes.length), mem (address + UInt64.ofNat i) = bytes[i]
  ends : mem (address + UInt64.ofNat bytes.length) = 0

/-- The units that stand for a path, without the NUL. -/
def widened (bytes : List UInt8) : List UInt16 := bytes.map UInt8.toUInt16

theorem widened_injective {first second : List UInt8}
    (heq : widened first = widened second) : first = second := by
  refine (List.map_inj_right fun a b hab => ?_).mp heq
  have hnat := congrArg UInt16.toNat hab
  rw [UInt8.toNat_toUInt16, UInt8.toNat_toUInt16] at hnat
  exact UInt8.toNat_inj.mp hnat

theorem zero_not_mem_widened {bytes : List UInt8} (hnul : 0 ∉ bytes) :
    0 ∉ widened bytes := by
  rw [widened, List.mem_map]
  rintro ⟨byte, hbyte, hzero⟩
  have hnat := congrArg UInt16.toNat hzero
  rw [UInt8.toNat_toUInt16] at hnat
  exact hnul (UInt8.toNat_inj.mp (hnat.trans rfl : byte.toNat = (0 : UInt8).toNat) ▸ hbyte)

section Conversion

variable {m : Machine} {path : UInt64} {bytes : List UInt8}

theorem IsCString.copied_eq (hstring : IsCString m.mem path bytes) (left it : Nat)
    (hit : it ≤ bytes.length) :
    copied (fun i => m.mem (path + UInt64.ofNat i)) left it =
      min left (bytes.length - it) := by
  induction left generalizing it with
  | zero => simp [copied]
  | succ left ih =>
      rw [copied]
      by_cases hend : it = bytes.length
      · subst hend
        rw [if_pos hstring.ends]
        omega
      · have hlt : it < bytes.length := by omega
        have hne : ¬ m.mem (path + UInt64.ofNat it) = 0 := by
          rw [hstring.holds it hlt]
          exact fun hzero => hstring.noNul (hzero ▸ List.getElem_mem hlt)
        rw [if_neg hne, ih (it + 1) (by omega)]
        omega

/-- What the conversion stores is found in the buffer. -/
theorem convert_fres_of_mem {k : Fin 1024} {v : UInt8}
    (hstore : (k.1, v) ∈ m.pathStores path) : (m.convert path).fres k = v := by
  have hnodup : (points (m.pathStores path)).Nodup := by
    rw [Machine.pathStores, points_bstrStores]
    exact List.nodup_range'
  change fresAfter m.fres (m.pathStores path) k = v
  rw [fresAfter_eq_patch]
  exact patch_of_mem hnodup hstore

/-- A byte that is stored with a zero byte behind it makes a unit. -/
theorem convert_unit {i : Nat} {byte : UInt8} (hi : i < 512)
    (hbelow : i < (fresUnits (m.convert path).fres).length)
    (hbyte : (i * 2, byte) ∈ m.pathStores path)
    (hhigh : (i * 2 + 1, 0) ∈ m.pathStores path) :
    (fresUnits (m.convert path).fres)[i] = byte.toUInt16 := by
  have hlow : (m.convert path).fres ⟨i * 2, by omega⟩ = byte := convert_fres_of_mem hbyte
  have hzero : (m.convert path).fres ⟨i * 2 + 1, by omega⟩ = 0 := convert_fres_of_mem hhigh
  rw [fresUnits_getElem _ hi, hlow, hzero, toUInt16_or_zero]

/-- Before its end the buffer holds the bytes of the string, one a unit, and then a
NUL. -/
theorem convert_units (hstring : IsCString m.mem path bytes) :
    ∃ rest, fresUnits (m.convert path).fres =
      widened (bytes.take wideLimit) ++ 0 :: rest := by
  have hcopied : copied (fun i => m.mem (path + UInt64.ofNat i)) wideLimit 0 =
      min wideLimit bytes.length :=
    hstring.copied_eq wideLimit 0 (Nat.zero_le _)
  have hlimit : wideLimit = 510 := rfl
  have hlength := fresUnits_length (m.convert path).fres
  have hbelow : min wideLimit bytes.length < (fresUnits (m.convert path).fres).length := by
    omega
  have htake : (fresUnits (m.convert path).fres).take (min wideLimit bytes.length) =
      widened (bytes.take wideLimit) := by
    apply List.ext_getElem
    · simp only [List.length_take, hlength, widened, List.length_map]
      omega
    · intro i hi hi'
      have hbound : i < min wideLimit bytes.length := by
        rw [List.length_take] at hi
        omega
      obtain ⟨hbyte, hhigh⟩ := mem_bstrStores (fun i => m.mem (path + UInt64.ofNat i))
        (hcopied ▸ hbound)
      rw [Nat.zero_add] at hbyte hhigh
      rw [List.getElem_take, convert_unit (by omega) _ hbyte hhigh,
        hstring.holds i (by omega)]
      simp [widened]
  have hend : (fresUnits (m.convert path).fres)[min wideLimit bytes.length] = 0 := by
    obtain ⟨hbyte, hhigh⟩ :=
      end_mem_bstrStores (fun i => m.mem (path + UInt64.ofNat i)) wideLimit 0
    rw [Nat.zero_add, hcopied] at hbyte hhigh
    exact convert_unit (by omega) hbelow hbyte hhigh
  refine ⟨(fresUnits (m.convert path).fres).drop (min wideLimit bytes.length + 1), ?_⟩
  rw [← htake, ← hend, ← List.drop_eq_getElem_cons hbelow, List.take_append_drop]

/-- A path is converted up to the limit. -/
theorem widePath_eq (hstring : IsCString m.mem path bytes) :
    m.widePath path = widened (bytes.take wideLimit) := by
  obtain ⟨rest, hunits⟩ := convert_units hstring
  have hnul : 0 ∉ widened (bytes.take wideLimit) :=
    zero_not_mem_widened fun hzero => hstring.noNul (List.mem_of_mem_take hzero)
  rw [Machine.widePath, wideUnits_eq, hunits, List.takeWhile_append_of_pos]
  · simp
  · intro unit hunit
    rw [decide_eq_true_eq]
    exact fun hzero => hnul (hzero ▸ hunit)

end Conversion

/-- The path that a call hands to `Volume->Open`. -/
def Event.path? (e : Event) : Option (List UInt16) :=
  match e.call with
  | .volumeOpen path _ _ => some path
  | _ => none

/-- A path has been refused without a call, or handed over once, whole and closed by a
NUL in the static buffer. -/
def PathWhole (bytes : List UInt8) (v : Int) (m' : Machine) (new : List Event) : Prop :=
  (IsErrno v ∧ new.filterMap Event.path? = []) ∨
    new.filterMap Event.path? = [widened bytes] ∧
      ∃ rest, fresUnits m'.fres = widened bytes ++ 0 :: rest

section Handlers

variable (p : Platform) (m : Machine) (path : UInt64) (flags : UInt32) (buf : UInt64)
  (bytes : List UInt8)

def OpenPassesWhole : Prop :=
  ∃ v m' new, (fdOpen p path flags).run m = .ok v m' ∧ m'.trace = m.trace ++ new ∧
    PathWhole bytes v m' new

def StatPassesWhole : Prop :=
  ∃ v m' new, (fdStat p path buf).run m = .ok v m' ∧ m'.trace = m.trace ++ new ∧
    PathWhole bytes v m' new

variable {p m path flags buf bytes}

/-- Once a run has handed over the converted path, it is whole up to the limit. -/
theorem pathWhole_iff_of_converted (hstring : IsCString m.mem path bytes) {v : Int}
    {m' : Machine} {new : List Event}
    (hpaths : new.filterMap Event.path? = [m.widePath path])
    (hfres : m'.fres = (m.convert path).fres) :
    PathWhole bytes v m' new ↔ bytes.length ≤ wideLimit := by
  rw [PathWhole, hpaths, widePath_eq hstring, hfres]
  constructor
  · rintro (⟨_, hnone⟩ | ⟨hsame, _⟩)
    · cases hnone
    · rw [List.cons.injEq] at hsame
      have hlength := congrArg List.length (widened_injective hsame.1)
      rw [List.length_take] at hlength
      omega
  · intro hlimit
    obtain ⟨rest, hunits⟩ := convert_units hstring
    rw [List.take_of_length_le hlimit] at hunits ⊢
    exact Or.inr ⟨rfl, rest, hunits⟩

/-- What `fd_open` does to a fresh object opens no path. -/
theorem effectCall_path? {handle : FileHandle} {e : Event}
    (hcall : effectCall p m flags handle = some e.call) : e.path? = none := by
  unfold effectCall at hcall
  split at hcall
  · rw [Option.some.injEq] at hcall
    rw [Event.path?, ← hcall]
  · split at hcall
    · rw [Option.some.injEq] at hcall
      rw [Event.path?, ← hcall]
    · cases hcall

variable (p m path flags) in
/-- An `fd_open` that finds a slot hands over the converted path, once. -/
theorem fdOpen_run_converted (hoccupied : ∃ r, m.fds r ≠ none) :
    ∃ v m' new, (fdOpen p path flags).run m = .ok v m' ∧ m'.trace = m.trace ++ new ∧
      new.filterMap Event.path? = [m.widePath path] ∧
      m'.fres = (m.convert path).fres := by
  obtain ⟨r, hfind, _⟩ := fdRealFindFree_of_occupied hoccupied
  have hslot : ¬ fdRealFindFree m.fds < 0 := by omega
  rw [fdOpen_run, if_neg hslot]
  by_cases hopen : efiError (openAnswer p m path flags).reply.status = true
  · rw [if_pos hopen]
    exact ⟨_, _, [openAnswer p m path flags], rfl, rfl, rfl, rfl⟩
  · rw [if_neg hopen]
    by_cases hinfo : efiError (infoAnswer p m path flags).reply.status = true
    · rw [if_pos hinfo]
      exact ⟨_, _, _, rfl, infoMachine_trace p m path flags, rfl, rfl⟩
    · rw [if_neg hinfo]
      obtain ⟨effects, htrace, hcalls⟩ := afterOption_trace p (infoMachine p m path flags)
        (effectCall p (infoMachine p m path flags) flags
          (openAnswer p m path flags).reply.handle)
      have hquiet : effects.filterMap Event.path? = [] :=
        List.filterMap_eq_nil_iff.mpr fun e he => effectCall_path? (hcalls e he)
      refine ⟨_, _, [openAnswer p m path flags, infoAnswer p m path flags] ++ effects, rfl,
        ?_, ?_, ?_⟩
      · rw [effectMachine, htrace, infoMachine_trace, List.append_assoc]
      · rw [List.filterMap_append, hquiet]
        rfl
      · rw [effectMachine]
        cases effectCall p (infoMachine p m path flags) flags
            (openAnswer p m path flags).reply.handle with
        | none => rfl
        | some call => rfl

theorem openPassesWhole_iff (hstring : IsCString m.mem path bytes) :
    OpenPassesWhole p m path flags bytes ↔
      (∀ r, m.fds r = none) ∨ bytes.length ≤ wideLimit := by
  by_cases hempty : ∀ r, m.fds r = none
  · refine iff_of_true ?_ (Or.inl hempty)
    exact ⟨_, m, [], fdOpen_run_of_empty p hempty, (List.append_nil _).symm,
      Or.inl ⟨Errno.neg_isErrno _, rfl⟩⟩
  · obtain ⟨v, m', new, hrun, htrace, hpaths, hfres⟩ :=
      fdOpen_run_converted p m path flags (not_forall.mp hempty)
    have hwhole : PathWhole bytes v m' new ↔ bytes.length ≤ wideLimit :=
      pathWhole_iff_of_converted hstring hpaths hfres
    rw [or_iff_right hempty, ← hwhole]
    exact ends_iff hrun htrace

variable (p m path buf) in
/-- An `fd_stat` hands over the converted path, once. -/
theorem fdStat_run_converted :
    ∃ v m' new, (fdStat p path buf).run m = .ok v m' ∧ m'.trace = m.trace ++ new ∧
      new.filterMap Event.path? = [m.widePath path] ∧
      m'.fres = (m.convert path).fres := by
  rw [fdStat_run]
  by_cases hopen : efiError (statAnswer p m path).reply.status = true
  · rw [if_pos hopen]
    exact ⟨_, _, [statAnswer p m path], rfl, rfl, rfl, rfl⟩
  · rw [if_neg hopen, fdEfiStat_run]
    have htrace : (statMachine p m path).trace ++ [statInfoAnswer p (statMachine p m path)
        buf (statAnswer p m path).reply.handle] = m.trace ++ [statAnswer p m path,
          statInfoAnswer p (statMachine p m path) buf
            (statAnswer p m path).reply.handle] :=
      List.append_assoc _ _ _
    split
    · exact ⟨_, _, _, rfl, htrace, rfl, rfl⟩
    · exact ⟨_, _, _, rfl, htrace, rfl, rfl⟩

theorem statPassesWhole_iff (hstring : IsCString m.mem path bytes) :
    StatPassesWhole p m path buf bytes ↔ bytes.length ≤ wideLimit := by
  obtain ⟨v, m', new, hrun, htrace, hpaths, hfres⟩ :=
    fdStat_run_converted p m path buf
  have hwhole : PathWhole bytes v m' new ↔ bytes.length ≤ wideLimit :=
    pathWhole_iff_of_converted hstring hpaths hfres
  rw [← hwhole]
  exact ends_iff hrun htrace

end Handlers

/-- A path is opened whole, or refused, exactly when no slot is found or it has at most
510 bytes; its status is asked for whole exactly when it has at most 510; and two such
paths are never the same path for the firmware. -/
theorem path_passed_whole_iff (p : Platform) (m : Machine) (path : UInt64)
    (flags : UInt32) (buf : UInt64) {bytes : List UInt8}
    (hstring : IsCString m.mem path bytes) :
    (OpenPassesWhole p m path flags bytes ↔
      (∀ r, m.fds r = none) ∨ bytes.length ≤ 510) ∧
    (StatPassesWhole p m path buf bytes ↔ bytes.length ≤ 510) ∧
    ∀ (m' : Machine) (path' : UInt64) (bytes' : List UInt8),
      IsCString m'.mem path' bytes' → bytes.length ≤ 510 → bytes'.length ≤ 510 →
        m.widePath path = m'.widePath path' → bytes = bytes' := by
  refine ⟨openPassesWhole_iff hstring, statPassesWhole_iff hstring, ?_⟩
  intro m' path' bytes' hstring' hlimit hlimit' hsame
  have hwhole : bytes.take wideLimit = bytes := List.take_of_length_le hlimit
  have hwhole' : bytes'.take wideLimit = bytes' := List.take_of_length_le hlimit'
  rw [widePath_eq hstring, widePath_eq hstring', hwhole, hwhole'] at hsame
  exact widened_injective hsame

/-- Memory with a string of one letter, so many times, at address zero. -/
def letters (count : Nat) : Memory := fun x => if x.toNat < count then 97 else 0

theorem letters_isCString {count : Nat} (hcount : count < 2 ^ 64) :
    IsCString (letters count) 0 (List.replicate count 97) := by
  have hnat : ∀ i < 2 ^ 64, ((0 : UInt64) + UInt64.ofNat i).toNat = i := by
    intro i hi
    rw [UInt64.zero_add, UInt64.toNat_ofNat', Nat.mod_eq_of_lt hi]
  refine ⟨?_, ?_, ?_⟩
  · rw [List.mem_replicate]
    rintro ⟨_, hzero⟩
    exact absurd hzero (by decide)
  · intro i hi
    rw [List.length_replicate] at hi
    rw [letters, hnat i (by omega), if_pos hi, List.getElem_replicate]
  · rw [List.length_replicate, letters, hnat count hcount, if_neg (lt_irrefl _)]

/-- A machine with a path of so many letters at address zero and one file open. -/
def pathMachine (count : Nat) : Machine :=
  { Machine.blank.put 0 firstHandle with mem := letters count }

/-- With a slot to be found, a path of three letters is opened whole and one of 511 is not. -/
theorem path_passed_whole_iff_letters :
    OpenPassesWhole failingFirmware (pathMachine 3) 0 0 (List.replicate 3 97) ∧
      ¬ OpenPassesWhole failingFirmware (pathMachine 511) 0 0 (List.replicate 511 97) ∧
      StatPassesWhole failingFirmware (pathMachine 3) 0 0 (List.replicate 3 97) := by
  have hshort := path_passed_whole_iff failingFirmware (pathMachine 3) 0 0 0
    (letters_isCString (show 3 < 2 ^ 64 by decide))
  have hlong := path_passed_whole_iff failingFirmware (pathMachine 511) 0 0 0
    (letters_isCString (show 511 < 2 ^ 64 by decide))
  have hfits : (List.replicate 3 (97 : UInt8)).length ≤ 510 := by decide
  refine ⟨hshort.1.mpr (Or.inr hfits), fun hopens => ?_, hshort.2.1.mpr hfits⟩
  rcases hlong.1.mp hopens with hempty | hlimit
  · exact absurd (hempty 0) (by decide)
  · rw [List.length_replicate] at hlimit
    omega

/-- The status of a path of 511 letters is asked for under its first 510. -/
theorem long_path_is_cut :
    ¬ ∀ (p : Platform) (m : Machine) (path buf : UInt64) (bytes : List UInt8),
      IsCString m.mem path bytes → StatPassesWhole p m path buf bytes := by
  intro hall
  have hstring : IsCString (letters 511) 0 (List.replicate 511 97) :=
    letters_isCString (by decide)
  have hwhole := hall failingFirmware { Machine.blank with mem := letters 511 } 0 0 _ hstring
  have hlimit : (List.replicate 511 (97 : UInt8)).length ≤ wideLimit :=
    (statPassesWhole_iff hstring).mp hwhole
  rw [List.length_replicate, wideLimit] at hlimit
  omega

end UefiLinux
