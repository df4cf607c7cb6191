/-
Seeking in a file.  The firmware's position follows from the calls it has been given;
`fd_lseek` is judged by the position it leaves and by what it returns.
-/
import UefiLinux.Reporting

namespace UefiLinux

open Progress Journal Words

/-- The position that stands for the end of the file. -/
def seekToEnd : UInt64 := 0xFFFFFFFFFFFFFFFF

/-- Where a `SetPosition` of a file of the given size lands. -/
def landing (size position : UInt64) : UInt64 :=
  if position = seekToEnd then size else position

/-- The position of an open file after one call. -/
def positionNext (handle : FileHandle) (size position : UInt64) (e : Event) : UInt64 :=
  match e.call with
  | .setPosition h target => if h = handle then landing size target else position
  | _ => position

/-- The position of an open file after the calls of a journal. -/
def positionAfter (handle : FileHandle) (size start : UInt64) (log : List Event) : UInt64 :=
  log.foldl (positionNext handle size) start

/-- From the given journal on, the positions of an open file are set and told without
failure, and the one told is the one last set. -/
structure Positions (p : Platform) (handle : FileHandle) (size start : UInt64)
    (base : List Event) : Prop where
  sets : ∀ new target,
    efiError (p.reply (base ++ new) (.setPosition handle target)).status = false
  gets : ∀ new, efiError (p.reply (base ++ new) (.getPosition handle)).status = false
  told : ∀ new, (p.reply (base ++ new) (.getPosition handle)).position =
    positionAfter handle size start new

/-- Where a seek is counted from. -/
def seekBase (size start : UInt64) (whence : Int) : Option Int :=
  if whence = 0 then some 0
  else if whence = 1 then some start.toNat
  else if whence = 2 then some size.toNat
  else none

/-- The position a seek asks for, when there is such a position. -/
def seekTarget (size start : UInt64) (offset whence : Int) : Option Int :=
  (seekBase size start whence).bind fun base =>
    if 0 ≤ base + offset ∧ base + offset < 2 ^ 63 then some (base + offset) else none

section Seek

variable {p : Platform} {m : Machine} {handle : FileHandle} {size start : UInt64}

/-- A seek ends: it returns the position asked for and moves there, or it returns an
errno and leaves the position. -/
def SeeksExactly (p : Platform) (m : Machine) (handle : FileHandle) (size start : UInt64)
    (fd offset whence : Int) : Prop :=
  ∃ v m' new, (fdLseek p fd offset whence).run m = .ok v m' ∧ m'.trace = m.trace ++ new ∧
    match seekTarget size start offset whence with
    | some target => v = target ∧
        positionAfter handle size start new = UInt64.ofInt target
    | none => IsErrno v ∧ positionAfter handle size start new = start

/-- The seeks that come out right: on the descriptors the guard refuses, those that ask
for no position; else those that ask for one, those that hit the mark of the end in a
file that is at its end, and those in an unknown direction that find an errno on the
stack. -/
def SeekInReach (p : Platform) (m : Machine) (size start : UInt64)
    (fd offset whence : Int) : Prop :=
  if 16 < fd then seekTarget size start offset whence = none
  else
    match seekBase size start whence with
    | some base =>
        (0 ≤ base + offset ∧ base + offset < 2 ^ 63) ∨ (base + offset = -1 ∧ size = start)
    | none =>
        efiError (p.residue m.trace).status = true ∨
          IsErrno (p.residue m.trace).offset64.toInt64.toInt

/-- The end of a seek that knows where to go. -/
theorem setPosition_run (hfile : Positions p handle size start m.trace) (new : List Event)
    (target : UInt64) {m₁ : Machine} (htrace : m₁.trace = m.trace ++ new) :
    ∃ m' e, (do
        let moved ← uefiCallWrapper p (.setPosition handle target)
        return seekResult moved.status target : M Int).run m₁ =
          .ok target.toInt64.toInt m' ∧
      m'.trace = m.trace ++ (new ++ [e]) ∧
      positionAfter handle size start (new ++ [e]) = landing size target := by
  have hok : efiError (p.answer m₁ (.setPosition handle target)).reply.status = false := by
    rw [← hfile.sets new target, ← htrace]
    rfl
  refine ⟨p.after m₁ (.setPosition handle target),
    p.answer m₁ (.setPosition handle target), ?_, ?_, ?_⟩
  · rw [run_bind_of_ok (uefiCallWrapper_run p rfl m₁), EStateM.run_pure, seekResult,
      if_neg (by simp [hok])]
  · rw [Platform.after_trace, htrace, List.append_assoc]
  · simp [positionAfter, positionNext]

theorem seekCurrent_run (hfile : Positions p handle size start m.trace) (new : List Event)
    (offset : Int) {m₁ : Machine} (htrace : m₁.trace = m.trace ++ new) :
    ∃ m' new', (seekCurrent p handle offset).run m₁ =
        .ok (positionAfter handle size start new + UInt64.ofInt offset).toInt64.toInt m' ∧
      m'.trace = m.trace ++ new' ∧
      positionAfter handle size start new' =
        landing size (positionAfter handle size start new + UInt64.ofInt offset) := by
  have hok : efiError (p.answer m₁ (.getPosition handle)).reply.status = false := by
    rw [← hfile.gets new, ← htrace]
    rfl
  have htold : (p.answer m₁ (.getPosition handle)).reply.position =
      positionAfter handle size start new := by
    rw [← hfile.told new, ← htrace]
    rfl
  have hkept : positionAfter handle size start (new ++ [p.answer m₁ (.getPosition handle)]) =
      positionAfter handle size start new := by
    simp [positionAfter, positionNext]
  have htrace' : (p.after m₁ (.getPosition handle)).trace =
      m.trace ++ (new ++ [p.answer m₁ (.getPosition handle)]) := by
    rw [Platform.after_trace, htrace, List.append_assoc]
  obtain ⟨m', e, hrun, hnew, hposition⟩ := setPosition_run hfile _
    (positionAfter handle size start new + UInt64.ofInt offset) htrace'
  refine ⟨m', _, ?_, hnew, hposition⟩
  rw [seekCurrent, run_bind_of_ok (uefiCallWrapper_run p rfl m₁), if_neg (by simp [hok]),
    htold]
  exact hrun

theorem ofInt_add_natCast (word : UInt64) (offset : Int) :
    word + UInt64.ofInt offset = UInt64.ofInt (word.toNat + offset) := by
  rw [UInt64.ofInt_add, ofInt_natCast, UInt64.ofNat_toNat]

/-- A seek counted from `base` returns the wrapped sum, and goes where the firmware takes
that for. -/
def SeekLands (p : Platform) (m : Machine) (handle : FileHandle) (size start : UInt64)
    (offset whence base : Int) : Prop :=
  ∃ m' new, (fdLseekTaken p offset whence handle).run m =
      .ok (UInt64.ofInt (base + offset)).toInt64.toInt m' ∧
    m'.trace = m.trace ++ new ∧
    positionAfter handle size start new = landing size (UInt64.ofInt (base + offset))

theorem seekLands_start (hfile : Positions p handle size start m.trace) (offset : Int) :
    SeekLands p m handle size start offset 0 0 := by
  have hnew : m.trace = m.trace ++ [] := (List.append_nil _).symm
  obtain ⟨m', e, hrun, htrace, hposition⟩ :=
    setPosition_run hfile [] (UInt64.ofInt offset) hnew
  rw [SeekLands, Int.zero_add]
  refine ⟨m', _, ?_, htrace, hposition⟩
  rw [fdLseekTaken, if_pos rfl]
  exact hrun

theorem seekLands_current (hfile : Positions p handle size start m.trace) (offset : Int) :
    SeekLands p m handle size start offset 1 start.toNat := by
  have hnew : m.trace = m.trace ++ [] := (List.append_nil _).symm
  obtain ⟨m', new, hrun, htrace, hposition⟩ := seekCurrent_run hfile [] offset hnew
  change _ = EStateM.Result.ok (start + UInt64.ofInt offset).toInt64.toInt m' at hrun
  change _ = landing size (start + UInt64.ofInt offset) at hposition
  rw [ofInt_add_natCast] at hrun hposition
  refine ⟨m', new, ?_, htrace, hposition⟩
  rw [fdLseekTaken, if_neg (by decide), if_neg (by decide), if_pos rfl]
  exact hrun

/-- The file is moved to its end first, and the position is asked for there. -/
theorem seekLands_end (hfile : Positions p handle size start m.trace) (offset : Int) :
    SeekLands p m handle size start offset 2 size.toNat := by
  have hok : efiError (p.answer m (.setPosition handle seekToEnd)).reply.status = false := by
    rw [← hfile.sets [] seekToEnd, List.append_nil]
    rfl
  have hsize : positionAfter handle size start
      [p.answer m (.setPosition handle seekToEnd)] = size := by
    simp [positionAfter, positionNext, landing]
  obtain ⟨m', new, hrun, htrace, hposition⟩ := seekCurrent_run hfile
    [p.answer m (.setPosition handle seekToEnd)] offset
    (Platform.after_trace p m (.setPosition handle seekToEnd))
  rw [hsize, ofInt_add_natCast] at hrun hposition
  refine ⟨m', new, ?_, htrace, hposition⟩
  rw [fdLseekTaken, if_neg (by decide), if_pos rfl,
    run_bind_of_ok (uefiCallWrapper_run p rfl m)]
  change (if efiError (p.answer m (.setPosition handle seekToEnd)).reply.status = true
    then _ else seekCurrent p handle offset : M Int).run _ = _
  rw [if_neg (by simp [hok])]
  exact hrun

theorem seekLands_of_known (hfile : Positions p handle size start m.trace)
    (offset : Int) {whence base : Int} (hbase : seekBase size start whence = some base) :
    SeekLands p m handle size start offset whence base := by
  unfold seekBase at hbase
  by_cases hset : whence = 0
  · rw [if_pos hset, Option.some.injEq] at hbase
    rw [hset, ← hbase]
    exact seekLands_start hfile offset
  · rw [if_neg hset] at hbase
    by_cases hcur : whence = 1
    · rw [if_pos hcur, Option.some.injEq] at hbase
      rw [hcur, ← hbase]
      exact seekLands_current hfile offset
    · rw [if_neg hcur] at hbase
      by_cases hend : whence = 2
      · rw [if_pos hend, Option.some.injEq] at hbase
        rw [hend, ← hbase]
        exact seekLands_end hfile offset
      · rw [if_neg hend] at hbase
        cases hbase

variable {offset whence base : Int}

theorem seekBase_range (hsize : size.toNat < 2 ^ 63) (hstart : start.toNat < 2 ^ 63)
    (hbase : seekBase size start whence = some base) : 0 ≤ base ∧ base < 2 ^ 63 := by
  unfold seekBase at hbase
  split at hbase
  · simp only [Option.some.injEq] at hbase
    omega
  · split at hbase
    · simp only [Option.some.injEq] at hbase
      omega
    · split at hbase
      · simp only [Option.some.injEq] at hbase
        omega
      · cases hbase

theorem landing_of_ne {target : UInt64} (hne : target ≠ seekToEnd) :
    landing size target = target :=
  if_neg hne

/-- A position outside the file offsets is not the one before, unless the mark of the
end is hit in a file that is at its end. -/
theorem landing_eq_start_iff (hstart : start.toNat < 2 ^ 63) {target : Int}
    (hlow : -2 ^ 63 ≤ target) (hhigh : target < 2 ^ 64 - 1)
    (hout : ¬ (0 ≤ target ∧ target < 2 ^ 63)) :
    landing size (UInt64.ofInt target) = start ↔ target = -1 ∧ size = start := by
  by_cases hmark : target = -1
  · subst hmark
    have hend : landing size (UInt64.ofInt (-1)) = size := if_pos rfl
    rw [hend]
    simp
  · have hnat : (UInt64.ofInt target).toNat = (target % 2 ^ 64).toNat := by
      change (target % 2 ^ 64).toNat % 2 ^ 64 = _
      omega
    have hne : UInt64.ofInt target ≠ seekToEnd := by
      intro heq
      have htop : (UInt64.ofInt target).toNat = 2 ^ 64 - 1 := by
        rw [heq]
        rfl
      omega
    rw [landing_of_ne hne]
    constructor
    · intro heq
      rw [heq] at hnat
      omega
    · rintro ⟨hmark', _⟩
      exact absurd hmark' hmark

theorem seekTarget_of_base (hbase : seekBase size start whence = some base) :
    seekTarget size start offset whence =
      if 0 ≤ base + offset ∧ base + offset < 2 ^ 63 then some (base + offset) else none := by
  rw [seekTarget, hbase, Option.bind_some]

/-- The seek has one ending, so the law is about that one. -/
theorem seeksExactly_iff_of_run {fd v : Int} {m' : Machine} {new : List Event}
    (hrun : (fdLseek p fd offset whence).run m = .ok v m')
    (htrace : m'.trace = m.trace ++ new) :
    SeeksExactly p m handle size start fd offset whence ↔
      match seekTarget size start offset whence with
      | some target => v = target ∧
          positionAfter handle size start new = UInt64.ofInt target
      | none => IsErrno v ∧ positionAfter handle size start new = start :=
  ends_iff hrun htrace

theorem seeksExactly_iff_of_refused {fd : Int} (hhigh : 16 < fd) :
    SeeksExactly p m handle size start fd offset whence ↔
      seekTarget size start offset whence = none := by
  have hrun : (fdLseek p fd offset whence).run m = .ok Errno.ebadf.neg m := by
    rw [fdLseek, withFd_run_of_high hhigh]
  rw [seeksExactly_iff_of_run hrun (List.append_nil _).symm]
  cases htarget : seekTarget size start offset whence with
  | some target =>
      have hpos : 0 ≤ target := by
        cases hbase : seekBase size start whence with
        | none => simp [seekTarget, hbase] at htarget
        | some base =>
            rw [seekTarget_of_base hbase] at htarget
            split at htarget
            · simp only [Option.some.injEq] at htarget
              omega
            · cases htarget
      have hneg : Errno.ebadf.neg = -9 := rfl
      simp only [reduceCtorEq, iff_false, not_and]
      intro heq
      omega
  | none => simp [Errno.neg_isErrno, positionAfter]

theorem seeksExactly_iff_of_known (hfile : Positions p handle size start m.trace)
    (hsize : size.toNat < 2 ^ 63) (hstart : start.toNat < 2 ^ 63)
    (hoffset : -2 ^ 63 ≤ offset ∧ offset < 2 ^ 63) {fd : Int}
    (htaken : (fdLseek p fd offset whence).run m =
      (fdLseekTaken p offset whence handle).run m)
    (hbase : seekBase size start whence = some base) :
    SeeksExactly p m handle size start fd offset whence ↔
      (0 ≤ base + offset ∧ base + offset < 2 ^ 63) ∨
        (base + offset = -1 ∧ size = start) := by
  obtain ⟨hlow, hhigh⟩ := seekBase_range hsize hstart hbase
  obtain ⟨m', new, hrun, htrace, hposition⟩ := seekLands_of_known hfile offset hbase
  rw [← htaken] at hrun
  rw [seeksExactly_iff_of_run hrun htrace, seekTarget_of_base hbase, hposition]
  by_cases hrange : 0 ≤ base + offset ∧ base + offset < 2 ^ 63
  · have hne : UInt64.ofInt (base + offset) ≠ seekToEnd := by
      intro heq
      have htop : (UInt64.ofInt (base + offset)).toNat = 2 ^ 64 - 1 := by
        rw [heq]
        rfl
      change ((base + offset) % 2 ^ 64).toNat % 2 ^ 64 = 2 ^ 64 - 1 at htop
      omega
    rw [if_pos hrange]
    exact iff_of_true ⟨toInt_ofInt (by omega) (by omega), landing_of_ne hne⟩ (Or.inl hrange)
  · rw [if_neg hrange, or_iff_right hrange]
    simp only
    rw [landing_eq_start_iff hstart (by omega) (by omega) hrange]
    constructor
    · exact And.right
    · rintro ⟨hmark, hend⟩
      refine ⟨?_, hmark, hend⟩
      rw [hmark]
      decide

theorem seeksExactly_iff_of_unknown {fd : Int} (hpasses : ¬ m.Refuses fd)
    (hbase : seekBase size start whence = none) :
    SeeksExactly p m handle size start fd offset whence ↔
      efiError (p.residue m.trace).status = true ∨
        IsErrno (p.residue m.trace).offset64.toInt64.toInt := by
  have hwhence : ¬ KnownWhence whence := by
    rintro (rfl | rfl | rfl)
    · cases hbase
    · cases hbase
    · cases hbase
  have htarget : seekTarget size start offset whence = none := by
    rw [seekTarget, hbase, Option.bind_none]
  rw [seeksExactly_iff_of_run (fdLseek_run_of_unknown p hpasses hwhence)
    (List.append_nil _).symm, htarget, seekResult]
  have hkept : positionAfter handle size start [] = start := rfl
  simp only [hkept, and_true]
  by_cases herror : efiError (p.residue m.trace).status = true
  · rw [if_pos herror]
    exact iff_of_true (failure_isErrno _) (Or.inl herror)
  · rw [if_neg herror, or_iff_right herror]

end Seek

/-- A seek is exact or without effect exactly when it is in reach. -/
theorem seeksExactly_iff_inReach (p : Platform) (m : Machine) {handle : FileHandle}
    {size start : UInt64} {fd offset : Int} (whence : Int)
    (hopen : m.openHandle fd = some handle)
    (hfile : Positions p handle size start m.trace) (hsize : size.toNat < 2 ^ 63)
    (hstart : start.toNat < 2 ^ 63) (hoffset : -2 ^ 63 ≤ offset ∧ offset < 2 ^ 63) :
    SeeksExactly p m handle size start fd offset whence ↔
      SeekInReach p m size start fd offset whence := by
  rw [SeekInReach]
  by_cases hhigh : 16 < fd
  · rw [if_pos hhigh]
    exact seeksExactly_iff_of_refused hhigh
  · rw [if_neg hhigh]
    have hpasses : ¬ m.Refuses fd := by
      rintro (hrefused | hclosed)
      · exact hhigh hrefused
      · rw [hopen] at hclosed
        cases hclosed
    have htaken : (fdLseek p fd offset whence).run m =
        (fdLseekTaken p offset whence handle).run m :=
      withFd_run_of_open (not_lt.mp hhigh) hopen _
    cases hbase : seekBase size start whence with
    | some base =>
        exact seeksExactly_iff_of_known hfile hsize hstart hoffset htaken hbase
    | none => exact seeksExactly_iff_of_unknown hpasses hbase

/-- Firmware with one open file. -/
def seekingFirmware (handle : FileHandle) (size start : UInt64) : Platform where
  volume := 0
  reply := fun log _ =>
    { Reply.ofStatus efiSuccess with position := positionAfter handle size start log }
  residue := fun _ => ⟨efiSuccess, 0, EfiFileInfo.zero⟩

theorem seekingFirmware_positions (handle : FileHandle) (size start : UInt64) :
    Positions (seekingFirmware handle size start) handle size start [] := by
  have hok : efiError efiSuccess = false := by decide
  exact ⟨fun _ _ => hok, fun _ => hok, fun _ => rfl⟩

theorem seeksExactly_iff_inReach_end :
    SeeksExactly (seekingFirmware firstHandle 10 0) (Machine.blank.put 0 firstHandle)
        firstHandle 10 0 (toVirtualFd (0 : Fin maxFds)) (-3) 2 ↔
      SeekInReach (seekingFirmware firstHandle 10 0) (Machine.blank.put 0 firstHandle)
        10 0 (toVirtualFd (0 : Fin maxFds)) (-3) 2 :=
  seeksExactly_iff_inReach (seekingFirmware firstHandle 10 0)
    (Machine.blank.put 0 firstHandle) 2
    (by rw [Machine.openHandle_toVirtualFd, Machine.put_fds, Function.update_self])
    (seekingFirmware_positions firstHandle 10 0) (by decide) (by decide) (by decide)

/-- Seeking to the offset -1 from the start moves to the end of the file. -/
theorem seek_before_start_moves_to_end :
    ¬ ∀ (p : Platform) (m : Machine) (handle : FileHandle) (size start : UInt64)
      (fd offset whence : Int), m.openHandle fd = some handle →
      Positions p handle size start m.trace → size.toNat < 2 ^ 63 → start.toNat < 2 ^ 63 →
      -2 ^ 63 ≤ offset ∧ offset < 2 ^ 63 →
        SeeksExactly p m handle size start fd offset whence := by
  intro hall
  have hslot : (Machine.blank.put 0 firstHandle).fds 0 = some firstHandle := by
    rw [Machine.put_fds, Function.update_self]
  have hfile := seekingFirmware_positions firstHandle 10 0
  have hexact := hall _ (Machine.blank.put 0 firstHandle) firstHandle 10 0
    (toVirtualFd (0 : Fin maxFds)) (-1) 0
    (by rw [Machine.openHandle_toVirtualFd, hslot]) hfile (by decide) (by decide)
    (by decide)
  have htaken := withFd_run_of_slot (by decide) hslot
    (fdLseekTaken (seekingFirmware firstHandle 10 0) (-1) 0)
  have hreach := (seeksExactly_iff_of_known hfile (by decide) (by decide) (by decide)
    htaken rfl).mp hexact
  exact absurd hreach (by decide)

end UefiLinux
