/-
The status of existing files.  The file info ends in the file's own name, and the buffer
it is asked for in has the size of the fixed part: names of more than three characters
do not fit, and their files have no status.
-/
import UefiLinux.PathNames

namespace UefiLinux

open Progress Journal

/-- A file of the volume: its own name, without the NUL, and its size. -/
structure File where
  name : List UInt16
  size : UInt64

/-- The bytes that the file info of a file takes up. -/
def File.infoSize (f : File) : Nat := 80 + 2 * (f.name.length + 1)

theorem File.infoSize_le_iff (f : File) :
    f.infoSize ≤ sizeofEfiFileInfo.toNat ↔ f.name.length ≤ 3 := by
  have hsize : sizeofEfiFileInfo.toNat = 88 := rfl
  rw [File.infoSize, hsize]
  omega

/-- The firmware keeps a volume.  After every history, `files` is what a path names and
`denotes` what an open handle stands for; the file info is given to a buffer that has
room for it and to no other. -/
structure KeepsFiles (p : Platform) (files : List Event → List UInt16 → Option File)
    (denotes : List Event → FileHandle → Option File) : Prop where
  opens : ∀ log path f, files log path = some f →
    efiError (p.reply log (statCall path)).status = false ∧
      denotes (log ++ [⟨statCall path, p.reply log (statCall path)⟩])
        (p.reply log (statCall path)).handle = some f
  refuses : ∀ log path, files log path = none →
    efiError (p.reply log (statCall path)).status = true
  informs : ∀ log handle f size, denotes log handle = some f → f.infoSize ≤ size.toNat →
    efiError (p.reply log (.getInfo handle size)).status = false ∧
      (p.reply log (.getInfo handle size)).info.fileSize = f.size
  tooSmall : ∀ log handle f size, denotes log handle = some f →
    size.toNat < f.infoSize →
      (p.reply log (.getInfo handle size)).status = efiBufferTooSmall

/-- A call has returned 0 and left the size of a file in `st_size`. -/
def GivesSize (result : EStateM.Result Stop Machine Int) (buf : UInt64) (f : File) :
    Prop :=
  ∃ m', result = .ok 0 m' ∧ m'.mem.load64 (buf + 48) = f.size

theorem givesSize_ok_iff {v : Int} {m' : Machine} {buf : UInt64} {f : File} :
    GivesSize (.ok v m') buf f ↔ v = 0 ∧ m'.mem.load64 (buf + 48) = f.size := by
  constructor
  · rintro ⟨m'', hrun, hsize⟩
    rw [EStateM.Result.ok.injEq] at hrun
    obtain ⟨rfl, rfl⟩ := hrun
    exact ⟨rfl, hsize⟩
  · rintro ⟨rfl, hsize⟩
    exact ⟨m', rfl, hsize⟩

theorem not_givesSize_failure {status : EfiStatus} {m' : Machine} {buf : UInt64}
    {f : File} : ¬ GivesSize (.ok (failure status) m') buf f := by
  rw [givesSize_ok_iff]
  rintro ⟨hzero, _⟩
  have hrange := failure_range status
  omega

section Volume

variable {p : Platform} {m : Machine} {buf : UInt64}
  {files : List Event → List UInt16 → Option File}
  {denotes : List Event → FileHandle → Option File}

/-- The status of an open file is the size of that file when its name is short, and
-EIO when it is not. -/
theorem fdEfiStat_givesSize_iff (hkeeps : KeepsFiles p files denotes)
    {handle : FileHandle} {f wanted : File} (hdenotes : denotes m.trace handle = some f) :
    GivesSize ((fdEfiStat p buf handle).run m) buf wanted ↔
      f.name.length ≤ 3 ∧ f.size = wanted.size := by
  rw [fdEfiStat_run, ← f.infoSize_le_iff]
  by_cases hfits : f.infoSize ≤ sizeofEfiFileInfo.toNat
  · obtain ⟨hok, hsize⟩ := hkeeps.informs m.trace handle f sizeofEfiFileInfo hdenotes hfits
    have hstatus : efiError (statInfoAnswer p m buf handle).reply.status = false := hok
    have hinfo : (statInfoAnswer p m buf handle).reply.info.fileSize = f.size := hsize
    have hload : (describedMachine p m buf handle).mem.load64 (buf + 48) = f.size := by
      rw [describedMachine, (statInfoMemory_load _ buf _).1, hinfo]
    rw [hstatus, if_neg Bool.false_ne_true, givesSize_ok_iff, hload]
    exact and_congr_left fun _ => iff_of_true rfl hfits
  · have hshort := hkeeps.tooSmall m.trace handle f sizeofEfiFileInfo hdenotes
      (not_le.mp hfits)
    have hstatus : (statInfoAnswer p m buf handle).reply.status = efiBufferTooSmall := hshort
    have herror : efiError efiBufferTooSmall = true := by decide
    rw [hstatus, if_pos herror]
    exact iff_of_false not_givesSize_failure fun hboth => hfits hboth.1

/-- `fd_stat` gives the size of what the path names once it is cut. -/
theorem fdStat_givesSize_iff (hkeeps : KeepsFiles p files denotes) {path : UInt64}
    {bytes : List UInt8} (hstring : IsCString m.mem path bytes) (wanted : File) :
    GivesSize ((fdStat p path buf).run m) buf wanted ↔
      ∃ f, files m.trace (widened (bytes.take wideLimit)) = some f ∧
        f.name.length ≤ 3 ∧ f.size = wanted.size := by
  have hpath : m.widePath path = widened (bytes.take wideLimit) := widePath_eq hstring
  rw [fdStat_run, ← hpath]
  cases hfile : files m.trace (m.widePath path) with
  | none =>
      have herror : efiError (statAnswer p m path).reply.status = true :=
        hkeeps.refuses m.trace _ hfile
      rw [if_pos herror]
      exact iff_of_false not_givesSize_failure fun ⟨f, hf, _⟩ => by cases hf
  | some f =>
      obtain ⟨hok, hdenotes⟩ := hkeeps.opens m.trace _ f hfile
      have hstatus : efiError (statAnswer p m path).reply.status = false := hok
      have hopened : denotes (statMachine p m path).trace
          (statAnswer p m path).reply.handle = some f := hdenotes
      rw [hstatus, if_neg Bool.false_ne_true, fdEfiStat_givesSize_iff hkeeps hopened]
      simp only [Option.some.injEq, exists_eq_left']

theorem fdFstat_givesSize_iff (hkeeps : KeepsFiles p files denotes) {fd : Int}
    {handle : FileHandle} {f : File} (hopen : m.openHandle fd = some handle)
    (hdenotes : denotes m.trace handle = some f) :
    GivesSize ((fdFstat p fd buf).run m) buf f ↔ fd ≤ 16 ∧ f.name.length ≤ 3 := by
  rw [fdFstat]
  by_cases hhigh : 16 < fd
  · have hcode : Errno.ebadf.neg ≠ 0 := by decide
    rw [withFd_run_of_high hhigh, givesSize_ok_iff]
    exact iff_of_false (fun hzero => hcode hzero.1) fun hboth => not_le.mpr hhigh hboth.1
  · have hpass : fd ≤ 16 := not_lt.mp hhigh
    rw [withFd_run_of_open hpass hopen, fdEfiStat_givesSize_iff hkeeps hdenotes,
      and_iff_left rfl, and_iff_right hpass]

end Volume

/-- An existing file has a status under its path exactly when the path, cut to 510 bytes,
names a file of the same size whose own name has at most three characters; an open file
has one exactly when its descriptor passes the guard and its name is that short. -/
theorem stat_gives_size_iff_short_name (p : Platform)
    (files : List Event → List UInt16 → Option File)
    (denotes : List Event → FileHandle → Option File) (hkeeps : KeepsFiles p files denotes)
    (m : Machine) (buf : UInt64) :
    (∀ (path : UInt64) (bytes : List UInt8) (f : File), IsCString m.mem path bytes →
      files m.trace (widened bytes) = some f →
        (GivesSize ((fdStat p path buf).run m) buf f ↔
          ∃ g, files m.trace (widened (bytes.take 510)) = some g ∧
            g.name.length ≤ 3 ∧ g.size = f.size)) ∧
    ∀ (fd : Int) (handle : FileHandle) (f : File), m.openHandle fd = some handle →
      denotes m.trace handle = some f →
        (GivesSize ((fdFstat p fd buf).run m) buf f ↔ fd ≤ 16 ∧ f.name.length ≤ 3) := by
  constructor
  · intro path bytes f hstring _
    exact fdStat_givesSize_iff hkeeps hstring f
  · intro fd handle f hopen hdenotes
    exact fdFstat_givesSize_iff hkeeps hopen hdenotes

/-- Firmware with one file, which every handle stands for. -/
def fileKeeper (path : List UInt16) (f : File) : Platform :=
  Platform.ofReply fun
    | .volumeOpen opened _ _ =>
        Reply.ofStatus (if opened = path then efiSuccess else efiNotFound)
    | .getInfo _ size =>
        if f.infoSize ≤ size.toNat then
          { Reply.ofStatus efiSuccess with info := { EfiFileInfo.zero with fileSize := f.size } }
        else Reply.ofStatus efiBufferTooSmall
    | _ => Reply.ofStatus efiSuccess

theorem fileKeeper_keepsFiles (path : List UInt16) (f : File) :
    KeepsFiles (fileKeeper path f) (fun _ opened => if opened = path then some f else none)
      (fun _ _ => some f) := by
  refine ⟨?_, ?_, ?_, ?_⟩
  · intro log opened g hfile
    by_cases hpath : opened = path
    · rw [if_pos hpath] at hfile
      refine ⟨?_, hfile⟩
      simp only [fileKeeper, Platform.ofReply, statCall, Reply.ofStatus, if_pos hpath]
      decide
    · rw [if_neg hpath] at hfile
      cases hfile
  · intro log opened hfile
    by_cases hpath : opened = path
    · rw [if_pos hpath] at hfile
      cases hfile
    · simp only [fileKeeper, Platform.ofReply, statCall, Reply.ofStatus, if_neg hpath]
      decide
  · rintro log handle g size ⟨⟩ hfits
    simp only [fileKeeper, Platform.ofReply, if_pos hfits]
    exact ⟨by decide, trivial⟩
  · rintro log handle g size ⟨⟩ hshort
    simp only [fileKeeper, Platform.ofReply, if_neg (not_le.mpr hshort)]
    rfl

/-- A file of the name `file`, with five bytes. -/
def fourLetterFile : File := ⟨wide "file", 5⟩

/-- The four letters of the name `file` as a string in memory. -/
def fourLetterMemory : Memory := Memory.store (fun _ => 0) 0 [102, 105, 108, 101]

theorem fourLetterMemory_isCString : IsCString fourLetterMemory 0 [102, 105, 108, 101] :=
  ⟨by decide, by decide, by decide⟩

/-- A machine with a string at 0, every slot of which is open. -/
def namedMachine (bytes : List UInt8) : Machine :=
  { Machine.blank with
    fds := fun _ => some firstHandle
    mem := Memory.store (fun _ => 0) 0 bytes }

/-- A file of the name `abc`, with five bytes. -/
def threeLetterFile : File := ⟨wide "abc", 5⟩

theorem threeLetterMemory_isCString :
    IsCString (namedMachine [97, 98, 99]).mem 0 [97, 98, 99] := ⟨by decide, by decide, by decide⟩

/-- `file` has no status, neither under its path nor when it is open; `abc` has both, but
for a descriptor above 16. -/
theorem stat_gives_size_iff_short_name_abc :
    (¬ GivesSize ((fdStat (fileKeeper (wide "file") fourLetterFile) 0 64).run
        (namedMachine [102, 105, 108, 101])) 64 fourLetterFile ∧
      ¬ GivesSize ((fdFstat (fileKeeper (wide "file") fourLetterFile) 4 64).run
        (namedMachine [102, 105, 108, 101])) 64 fourLetterFile) ∧
    GivesSize ((fdStat (fileKeeper (wide "abc") threeLetterFile) 0 64).run
      (namedMachine [97, 98, 99])) 64 threeLetterFile ∧
    GivesSize ((fdFstat (fileKeeper (wide "abc") threeLetterFile) 16 64).run
      (namedMachine [97, 98, 99])) 64 threeLetterFile ∧
    ¬ GivesSize ((fdFstat (fileKeeper (wide "abc") threeLetterFile) 17 64).run
      (namedMachine [97, 98, 99])) 64 threeLetterFile := by
  obtain ⟨hstat, hfstat⟩ := stat_gives_size_iff_short_name _ _ _
    (fileKeeper_keepsFiles (wide "file") fourLetterFile) (namedMachine [102, 105, 108, 101]) 64
  obtain ⟨hstat', hfstat'⟩ := stat_gives_size_iff_short_name _ _ _
    (fileKeeper_keepsFiles (wide "abc") threeLetterFile) (namedMachine [97, 98, 99]) 64
  have hfile := hstat 0 _ fourLetterFile fourLetterMemory_isCString (if_pos (by decide))
  have habc := hstat' 0 _ threeLetterFile threeLetterMemory_isCString (if_pos (by decide))
  refine ⟨⟨fun hsize => ?_, fun hsize => ?_⟩, ?_, ?_, fun hsize => ?_⟩
  · obtain ⟨g, hnamed, hshort, _⟩ := hfile.mp hsize
    rw [if_pos (by decide), Option.some.injEq] at hnamed
    subst hnamed
    exact absurd hshort (by decide)
  · exact absurd ((hfstat 4 _ fourLetterFile rfl rfl).mp hsize).2 (by decide)
  · exact habc.mpr ⟨threeLetterFile, if_pos (by decide), by decide, rfl⟩
  · exact (hfstat' 16 _ threeLetterFile rfl rfl).mpr ⟨by decide, by decide⟩
  · exact absurd ((hfstat' 17 _ threeLetterFile rfl rfl).mp hsize).1 (by decide)

/-- The file `file` exists and `fd_stat` finds no size. -/
theorem four_letter_name_has_no_status :
    ¬ ∀ (p : Platform) (files : List Event → List UInt16 → Option File)
      (denotes : List Event → FileHandle → Option File), KeepsFiles p files denotes →
      ∀ (m : Machine) (path buf : UInt64) (bytes : List UInt8) (f : File),
        IsCString m.mem path bytes → files m.trace (widened bytes) = some f →
          GivesSize ((fdStat p path buf).run m) buf f := by
  intro hall
  have hkeeps := fileKeeper_keepsFiles (wide "file") fourLetterFile
  have hsize := hall _ _ _ hkeeps { Machine.blank with mem := fourLetterMemory } 0 0 _
    fourLetterFile fourLetterMemory_isCString (if_pos (by decide))
  obtain ⟨g, hfile, hshort, _⟩ :=
    (fdStat_givesSize_iff hkeeps fourLetterMemory_isCString _).mp hsize
  have hnamed : widened ([102, 105, 108, 101].take wideLimit) = wide "file" := by decide
  rw [if_pos hnamed, Option.some.injEq] at hfile
  subst hfile
  exact absurd hshort (by decide)

end UefiLinux
