/-
Opening a file, call by call: what `fd_open` returns and leaves behind, when a
failed open has had an effect, and what the search for a free slot means for the
descriptors that `fd_open` and `fd_dup` hand out.
-/
import UefiLinux.Closing

namespace UefiLinux

open Progress Journal

variable (p : Platform)

section Stages

variable (m : Machine) (pathname : UInt64) (flags : UInt32)

/-- The answer of `Volume->Open` to `fd_open`. -/
def openAnswer : Event :=
  p.answer (m.convert pathname) (openCall (m.widePath pathname) flags)

/-- The machine once `Volume->Open` has answered. -/
def openMachine : Machine := (m.convert pathname).record (openAnswer p m pathname flags)

/-- The answer of `GetInfo` on the opened handle. -/
def infoAnswer : Event :=
  p.answer (openMachine p m pathname flags)
    (.getInfo (openAnswer p m pathname flags).reply.handle sizeofEfiFileInfo)

/-- The machine once `GetInfo` has answered. -/
def infoMachine : Machine :=
  (openMachine p m pathname flags).record (infoAnswer p m pathname flags)

/-- The call that `fd_open` makes on the object before it looks at its kind. -/
def effectCall (handle : FileHandle) : Option Call :=
  if hasFlag flags oAppend then some (.setPosition handle 0xFFFFFFFFFFFFFFFF)
  else if openMode flags &&& efiFileModeWrite ≠ 0 then
    some (.setInfo handle sizeofEfiFileInfo (p.residue m.trace).info)
  else none

/-- The machine after an optional call. -/
def Platform.afterOption : Option Call → Machine
  | none => m
  | some call => p.after m call

theorem openEffects_run (handle : FileHandle) (info : EfiFileInfo) :
    (openEffects p handle flags info).run m =
      .ok ⟨⟩ (p.afterOption m (effectCall p m flags handle)) := by
  unfold openEffects effectCall
  by_cases happend : hasFlag flags oAppend = true
  · rw [if_pos happend, if_pos happend, EStateM.run_bind, uefiCallWrapper_run p rfl]
    rfl
  · rw [if_neg happend, if_neg happend]
    by_cases hwrite : openMode flags &&& efiFileModeWrite ≠ 0
    · rw [if_pos hwrite, if_pos hwrite, EStateM.run_bind, fdEfiSetFileInfo,
        EStateM.run_bind, EStateM.run_get]
      simp only
      rw [uefiCallWrapper_run p rfl]
      rfl
    · rw [if_neg hwrite, if_neg hwrite]
      rfl

/-- The machine `fd_open` leaves once it has looked at the kind of the object. -/
def effectMachine : Machine :=
  p.afterOption (infoMachine p m pathname flags)
    (effectCall p (infoMachine p m pathname flags) flags
      (openAnswer p m pathname flags).reply.handle)

/-- Every way `fd_open` can go. -/
theorem fdOpen_run :
    (fdOpen p pathname flags).run m =
      if fdRealFindFree m.fds < 0 then .ok Errno.emfile.neg m
      else if efiError (openAnswer p m pathname flags).reply.status then
        .ok (failure (openAnswer p m pathname flags).reply.status)
          (openMachine p m pathname flags)
      else if efiError (infoAnswer p m pathname flags).reply.status then
        .ok (failure (infoAnswer p m pathname flags).reply.status)
          (infoMachine p m pathname flags)
      else .ok (openResult (fdRealFindFree m.fds) flags
          (infoAnswer p m pathname flags).reply.info)
        (effectMachine p m pathname flags) := by
  unfold fdOpen
  rw [EStateM.run_bind, EStateM.run_get]
  by_cases hnone : fdRealFindFree m.fds < 0
  · rw [if_pos hnone]
    simp only [if_pos hnone]
    rfl
  · rw [if_neg hnone]
    simp only [if_neg hnone]
    rw [run_bind_of_ok (bstrToWstr_run pathname m),
      run_bind_of_ok (uefiCallWrapper_run p rfl (m.convert pathname))]
    change (if efiError (openAnswer p m pathname flags).reply.status = true then _
      else _ : M Int).run (openMachine p m pathname flags) = _
    by_cases hopen : efiError (openAnswer p m pathname flags).reply.status = true
    · rw [if_pos hopen, if_pos hopen]
      rfl
    · rw [if_neg hopen, if_neg hopen, fdEfiGetFileInfo,
        run_bind_of_ok (uefiCallWrapper_run p rfl _)]
      change (if efiError (infoAnswer p m pathname flags).reply.status = true then _
        else _ : M Int).run (infoMachine p m pathname flags) = _
      by_cases hinfo : efiError (infoAnswer p m pathname flags).reply.status = true
      · rw [if_pos hinfo, if_pos hinfo]
        rfl
      · rw [if_neg hinfo, if_neg hinfo, run_bind_of_ok (openEffects_run p _ flags _ _)]
        rfl

theorem openAnswer_opened : (openAnswer p m pathname flags).opened =
    if efiError (openAnswer p m pathname flags).reply.status then none
    else some (openAnswer p m pathname flags).reply.handle := rfl

theorem openMachine_trace : (openMachine p m pathname flags).trace =
    m.trace ++ [openAnswer p m pathname flags] := rfl

theorem infoMachine_trace : (infoMachine p m pathname flags).trace =
    m.trace ++ [openAnswer p m pathname flags, infoAnswer p m pathname flags] := by
  rw [infoMachine, Machine.record_trace, openMachine_trace, List.append_assoc]
  rfl

@[simp] theorem afterOption_fds (call : Option Call) :
    (p.afterOption m call).fds = m.fds := by
  cases call <;> rfl

theorem afterOption_trace (call : Option Call) :
    ∃ new, (p.afterOption m call).trace = m.trace ++ new ∧
      ∀ e ∈ new, call = some e.call := by
  cases call with
  | none => exact ⟨[], by simp [Platform.afterOption], by simp⟩
  | some call => exact ⟨[p.answer m call], rfl, by simp⟩

theorem effectCall_not_close {handle : FileHandle} {call : Call}
    (hcall : effectCall p m flags handle = some call) (closed : FileHandle) :
    call ≠ .close closed := by
  rintro rfl
  unfold effectCall at hcall
  split at hcall
  · cases hcall
  · split at hcall
    · cases hcall
    · cases hcall

/-- The object is a directory exactly when `O_DIRECTORY` asks for one. -/
def KindMatches (info : EfiFileInfo) : Prop :=
  hasFlag flags oDirectory = info.isDirectory

instance (info : EfiFileInfo) : Decidable (KindMatches flags info) :=
  inferInstanceAs (Decidable (_ = _))

theorem openResult_of_matches {info : EfiFileInfo} (hkind : KindMatches flags info)
    (fd : Int) : openResult fd flags info = toVirtualFd fd := by
  rw [KindMatches] at hkind
  rw [openResult, hkind]
  cases info.isDirectory <;> rfl

theorem openResult_of_mismatch {info : EfiFileInfo} (hkind : ¬ KindMatches flags info)
    (fd : Int) : ∃ e : Errno, openResult fd flags info = e.neg := by
  rw [KindMatches] at hkind
  rw [openResult]
  cases hflag : hasFlag flags oDirectory with
  | true =>
      have hfile : info.isDirectory = false := by
        rw [hflag] at hkind
        simpa using hkind
      exact ⟨.enotdir, by simp [hfile]⟩
  | false =>
      have hdirectory : info.isDirectory = true := by
        rw [hflag] at hkind
        simpa using hkind
      exact ⟨.eisdir, by simp [hdirectory]⟩

/-- The firmware opens the object, describes it, and it is of the kind asked for. -/
def OpensMatching : Prop :=
  efiError (openAnswer p m pathname flags).reply.status = false ∧
    efiError (infoAnswer p m pathname flags).reply.status = false ∧
    KindMatches flags (infoAnswer p m pathname flags).reply.info

end Stages

section FailedOpen

variable {m : Machine} {pathname : UInt64} {flags : UInt32}

/-- The calls of a journal that set file information. -/
def Event.SetsInfo (e : Event) : Prop :=
  ∃ handle size info, e.call = .setInfo handle size info

/-- A failed open has no effect: if the result is negative, the table is as before,
every handle that `Volume->Open` returned has been passed to `Close`, and no file
information was set. -/
def FailedOpenIsVoid (m : Machine) (pathname : UInt64) (flags : UInt32) : Prop :=
  ∀ v m', (fdOpen p pathname flags).run m = .ok v m' → v < 0 →
    m'.fds = m.fds ∧ ∃ new, m'.trace = m.trace ++ new ∧
      (∀ e ∈ new, ∀ handle, e.opened = some handle →
        ∃ e' ∈ new, e'.closed = some handle) ∧
      ∀ e ∈ new, ¬ e.SetsInfo

/-- Some slot is occupied and the firmware opens the object, but cannot describe it
or it is of the other kind. -/
def GivesUpOpen (m : Machine) (pathname : UInt64) (flags : UInt32) : Prop :=
  (∃ r, m.fds r ≠ none) ∧
    efiError (openAnswer p m pathname flags).reply.status = false ∧
    ¬ (efiError (infoAnswer p m pathname flags).reply.status = false ∧
      KindMatches flags (infoAnswer p m pathname flags).reply.info)

theorem fdOpen_run_of_empty (hempty : ∀ r, m.fds r = none) :
    (fdOpen p pathname flags).run m = .ok Errno.emfile.neg m := by
  rw [fdOpen_run, fdRealFindFree_of_empty hempty, if_pos (by decide)]

theorem fdOpen_run_of_matching (hoccupied : ∃ r, m.fds r ≠ none)
    (hopens : OpensMatching p m pathname flags) :
    ∃ r : Fin maxFds, m.fds r ≠ none ∧ (fdOpen p pathname flags).run m =
      .ok (toVirtualFd r) (effectMachine p m pathname flags) := by
  obtain ⟨r, hfind, hr⟩ := fdRealFindFree_of_occupied hoccupied
  obtain ⟨hopen, hinfo, hkind⟩ := hopens
  refine ⟨r, hr, ?_⟩
  rw [fdOpen_run, hfind, if_neg (by omega), if_neg (by simp [hopen]),
    if_neg (by simp [hinfo]), openResult_of_matches flags hkind]

/-- Giving up leaves a negative result, the table, and a journal in which the object
has been opened and nothing has been closed. -/
theorem fdOpen_run_of_givesUp (hgives : GivesUpOpen p m pathname flags) :
    ∃ v m' new, (fdOpen p pathname flags).run m = .ok v m' ∧ v < 0 ∧
      m'.trace = m.trace ++ openAnswer p m pathname flags :: new ∧
      ∀ e ∈ openAnswer p m pathname flags :: new, e.closed = none := by
  obtain ⟨hoccupied, hopen, hrest⟩ := hgives
  obtain ⟨r, hfind, _⟩ := fdRealFindFree_of_occupied hoccupied
  rw [fdOpen_run, hfind, if_neg (by omega), if_neg (by simp [hopen])]
  by_cases hinfo : efiError (infoAnswer p m pathname flags).reply.status = true
  · have hneg := failure_range (infoAnswer p m pathname flags).reply.status
    rw [if_pos hinfo]
    refine ⟨_, _, [infoAnswer p m pathname flags], rfl, by omega,
      infoMachine_trace p m pathname flags, ?_⟩
    intro e he
    simp only [List.mem_cons, List.not_mem_nil, or_false] at he
    rcases he with rfl | rfl
    · rfl
    · rfl
  · have hmismatch : ¬ KindMatches flags (infoAnswer p m pathname flags).reply.info :=
      fun hkind => hrest ⟨by simpa using hinfo, hkind⟩
    obtain ⟨errno, herrno⟩ := openResult_of_mismatch flags hmismatch r
    have hneg := errno.neg_range
    obtain ⟨new, htrace, hnew⟩ := afterOption_trace p (infoMachine p m pathname flags)
      (effectCall p (infoMachine p m pathname flags) flags
        (openAnswer p m pathname flags).reply.handle)
    rw [if_neg hinfo, herrno]
    refine ⟨_, _, infoAnswer p m pathname flags :: new, rfl, by omega, ?_, ?_⟩
    · rw [effectMachine, htrace, infoMachine_trace, List.append_assoc]
      rfl
    · intro e he
      simp only [List.mem_cons] at he
      rcases he with rfl | rfl | he
      · rfl
      · rfl
      · have hcall := hnew e he
        cases hclose : e.closed with
        | none => rfl
        | some closed =>
            have hcloses : e.call = .close closed := Event.closed_eq_some.mp hclose
            exact absurd hcloses (effectCall_not_close p _ flags hcall closed)

theorem not_failedOpenIsVoid_of_givesUp (hgives : GivesUpOpen p m pathname flags) :
    ¬ FailedOpenIsVoid p m pathname flags := by
  intro hvoid
  obtain ⟨v, m', new, hrun, hneg, htrace, hclosed⟩ := fdOpen_run_of_givesUp p hgives
  obtain ⟨_, new', htrace', hreleased, _⟩ := hvoid v m' hrun hneg
  rw [htrace, List.append_cancel_left_eq] at htrace'
  subst htrace'
  have hopened : (openAnswer p m pathname flags).opened =
      some (openAnswer p m pathname flags).reply.handle := by
    rw [openAnswer_opened, hgives.2.1]
    rfl
  obtain ⟨e', he', hclose⟩ := hreleased _ List.mem_cons_self _ hopened
  rw [hclosed e' he'] at hclose
  cases hclose

theorem failedOpenIsVoid_of_not_givesUp (hkeeps : ¬ GivesUpOpen p m pathname flags) :
    FailedOpenIsVoid p m pathname flags := by
  intro v m' hrun hneg
  by_cases hoccupied : ∃ r, m.fds r ≠ none
  · obtain ⟨r, hfind, _⟩ := fdRealFindFree_of_occupied hoccupied
    rw [fdOpen_run, hfind, if_neg (by omega)] at hrun
    by_cases hopen : efiError (openAnswer p m pathname flags).reply.status = true
    · rw [if_pos hopen, EStateM.Result.ok.injEq] at hrun
      rw [← hrun.2]
      refine ⟨rfl, [openAnswer p m pathname flags], rfl, ?_, ?_⟩
      · intro e he handle hopened
        rw [List.mem_singleton.mp he, openAnswer_opened, if_pos hopen] at hopened
        cases hopened
      · rintro e he ⟨handle, size, info, hcall⟩
        rw [List.mem_singleton.mp he] at hcall
        cases hcall
    · have hgood : efiError (infoAnswer p m pathname flags).reply.status = false ∧
          KindMatches flags (infoAnswer p m pathname flags).reply.info := by
        by_contra hbad
        exact hkeeps ⟨hoccupied, by simpa using hopen, hbad⟩
      rw [if_neg hopen, if_neg (by simp [hgood.1]),
        openResult_of_matches flags hgood.2, EStateM.Result.ok.injEq] at hrun
      have hrange := toVirtualFd_slot_range r
      omega
  · have hempty : ∀ r, m.fds r = none := by simpa using hoccupied
    rw [fdOpen_run_of_empty p hempty, EStateM.Result.ok.injEq] at hrun
    rw [← hrun.2]
    exact ⟨rfl, [], by simp, by simp, by simp⟩

/-- A failed open is without effect exactly when it is not one that gives up on an
object it has opened. -/
theorem failedOpenIsVoid_iff (m : Machine) (pathname : UInt64) (flags : UInt32) :
    FailedOpenIsVoid p m pathname flags ↔ ¬ GivesUpOpen p m pathname flags := by
  constructor
  · intro hvoid hgives
    exact not_failedOpenIsVoid_of_givesUp p hgives hvoid
  · exact failedOpenIsVoid_of_not_givesUp p

/-- Firmware on which every path names the same directory. -/
def directoryFirmware : Platform :=
  Platform.ofReply fun _ =>
    { Reply.ofStatus efiSuccess with
      info := { EfiFileInfo.zero with fileAttribute := efiFileDirectory } }

/-- A directory opened for writing is refused with `-EISDIR` after its file info was
set, and its handle stays open. -/
theorem open_directory_for_writing_has_effect :
    ¬ ∀ (p : Platform) (m : Machine) (pathname : UInt64) (flags : UInt32),
      FailedOpenIsVoid p m pathname flags := by
  intro hall
  have hvoid := hall directoryFirmware oneOpen 0 oWronly
  refine not_failedOpenIsVoid_of_givesUp _ ⟨⟨0, by simp [oneOpen]⟩, by decide, ?_⟩ hvoid
  rintro ⟨_, hkind⟩
  exact absurd hkind (by decide)

end FailedOpen

section Allocation

/-- A call allocates a fresh descriptor for a handle: it returns `-EMFILE` exactly
when no slot is empty, and otherwise the number of a slot that was empty, now holds
the handle, and is the only slot to have changed. -/
def AllocatesFresh (m : Machine) (handle : FileHandle)
    (result : EStateM.Result Stop Machine Int) : Prop :=
  ∃ v m', result = .ok v m' ∧
    (v = Errno.emfile.neg ↔ ∀ r, m.fds r ≠ none) ∧
    (v ≠ Errno.emfile.neg → ∃ r : Fin maxFds, v = toVirtualFd r ∧ m.fds r = none ∧
      m'.fds = Function.update m.fds r (some handle))

/-- A result that numbers a slot which was occupied before the call. -/
theorem not_allocatesFresh_of_occupied {m m' : Machine} {handle : FileHandle}
    {r : Fin maxFds} (hr : m.fds r ≠ none) :
    ¬ AllocatesFresh m handle (.ok (toVirtualFd r) m') := by
  rintro ⟨v, m'', hrun, _, hfresh⟩
  rw [EStateM.Result.ok.injEq] at hrun
  have hrange := toVirtualFd_slot_range r
  have hnumber : v ≠ Errno.emfile.neg := by
    rw [← hrun.1]
    simp only [Errno.neg, Errno.code]
    omega
  obtain ⟨s, hs, hempty, _⟩ := hfresh hnumber
  have hsame : r = s := toVirtualFd_injective (hrun.1.trans hs)
  exact hr (hsame ▸ hempty)

/-- `-EMFILE` although a slot is empty. -/
theorem not_allocatesFresh_of_empty {m m' : Machine} {handle : FileHandle}
    {r : Fin maxFds} (hr : m.fds r = none) :
    ¬ AllocatesFresh m handle (.ok Errno.emfile.neg m') := by
  rintro ⟨v, m'', hrun, hfull, _⟩
  rw [EStateM.Result.ok.injEq] at hrun
  exact hfull.mp hrun.1.symm r hr

/-- A refusal of the descriptor that is to be duplicated. -/
theorem not_allocatesFresh_of_ebadf {m m' : Machine} {handle : FileHandle} :
    ¬ AllocatesFresh m handle (.ok Errno.ebadf.neg m') := by
  rintro ⟨v, m'', hrun, _, hfresh⟩
  rw [EStateM.Result.ok.injEq] at hrun
  have hnumber : v ≠ Errno.emfile.neg := by
    rw [← hrun.1]
    decide
  obtain ⟨s, hs, _⟩ := hfresh hnumber
  have hrange := toVirtualFd_slot_range s
  rw [← hs, ← hrun.1] at hrange
  simp only [Errno.neg, Errno.code] at hrange
  omega

/-- `fd_dup` overwrites the first occupied slot with the handle. -/
theorem fdDupTaken_run {m : Machine} (hoccupied : ∃ r, m.fds r ≠ none)
    (handle : FileHandle) :
    ∃ r : Fin maxFds, m.fds r ≠ none ∧
      (fdDupTaken handle).run m = .ok (toVirtualFd r) (m.put r handle) := by
  obtain ⟨r, hfind, hr⟩ := fdRealFindFree_of_occupied hoccupied
  refine ⟨r, hr, ?_⟩
  rw [fdDupTaken, EStateM.run_bind, EStateM.run_get]
  simp only [hfind]
  rw [if_neg (by omega), run_bind_of_ok (fdsWrite_run_slot r _ m)]
  rfl

theorem fdDup_not_fresh {m : Machine} {oldFd : Int} {handle : FileHandle}
    (hopen : m.openHandle oldFd = some handle) :
    ¬ AllocatesFresh m handle ((fdDup oldFd).run m) := by
  obtain ⟨ro, hold, hslot⟩ := Machine.openHandle_eq_some.mp hopen
  have hoccupied : ∃ r, m.fds r ≠ none := ⟨ro, by simp [hslot]⟩
  by_cases hpass : ro.val ≤ 12
  · obtain ⟨r, hr, hrun⟩ := fdDupTaken_run hoccupied handle
    rw [fdDup, hold, withFd_run_of_slot hpass hslot, hrun]
    exact not_allocatesFresh_of_occupied hr
  · have hhigh : 16 < oldFd := by
      rw [hold, ← not_le, toVirtualFd_le_iff]
      exact hpass
    rw [fdDup, withFd_run_of_high hhigh]
    exact not_allocatesFresh_of_ebadf

theorem fdOpen_not_fresh {m : Machine} {pathname : UInt64} {flags : UInt32}
    (hopens : OpensMatching p m pathname flags) :
    ¬ AllocatesFresh m (openAnswer p m pathname flags).reply.handle
      ((fdOpen p pathname flags).run m) := by
  by_cases hoccupied : ∃ r, m.fds r ≠ none
  · obtain ⟨r, hr, hrun⟩ := fdOpen_run_of_matching p hoccupied hopens
    rw [hrun]
    exact not_allocatesFresh_of_occupied hr
  · have hempty : ∀ r, m.fds r = none := by simpa using hoccupied
    rw [fdOpen_run_of_empty p hempty]
    exact not_allocatesFresh_of_empty (hempty 0)

/-- No call of `fd_dup` on an open descriptor and no call of `fd_open` that the
firmware serves allocates a fresh descriptor. -/
theorem never_allocates_fresh (m : Machine) :
    (∀ (oldFd : Int) (handle : FileHandle), m.openHandle oldFd = some handle →
      ¬ AllocatesFresh m handle ((fdDup oldFd).run m)) ∧
    ∀ (p : Platform) (pathname : UInt64) (flags : UInt32),
      OpensMatching p m pathname flags →
        ¬ AllocatesFresh m (openAnswer p m pathname flags).reply.handle
          ((fdOpen p pathname flags).run m) := by
  constructor
  · intro oldFd handle hopen
    exact fdDup_not_fresh hopen
  · intro p pathname flags hopens
    exact fdOpen_not_fresh p hopens

theorem never_allocates_fresh_dup_four :
    ¬ AllocatesFresh oneOpen firstHandle ((fdDup 4).run oneOpen) :=
  (never_allocates_fresh oneOpen).1 4 _ rfl

/-- With one file open as descriptor 4, `fd_dup` of it returns 4 again. -/
theorem dup_returns_its_argument :
    ¬ ∀ (m : Machine) (oldFd : Int32) (handle : FileHandle),
      m.openHandle oldFd.toInt = some handle →
        AllocatesFresh m handle ((fdDup oldFd.toInt).run m) := by
  intro hall
  have hfresh := hall oneOpen 4 firstHandle rfl
  have hopen : oneOpen.openHandle 4 = some firstHandle := rfl
  exact fdDup_not_fresh hopen hfresh

end Allocation

end UefiLinux
