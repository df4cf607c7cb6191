/-
The descriptor checks against the descriptor numbering.  The guard bounds a virtual
number by the number of real slots, so it refuses the descriptors of the last three
slots; on every other descriptor it agrees with the numbering.
-/
import UefiLinux.Closing

namespace UefiLinux

open Progress Journal

/-- The handlers that take an open descriptor, with their other arguments. -/
inductive FdOp
  | close
  | fsync
  | dup
  | lseek (offset whence : Int)
  | read (buf count : UInt64)
  | write (buf count : UInt64)
  | getdents64 (dirp : UInt64) (count : Int)
  | fstat (buf : UInt64)

section Operations

variable (p : Platform)

/-- The handler applied to a descriptor. -/
def FdOp.run (fuel : Nat) (fd : Int) : FdOp → M Int
  | .close => fdClose p fd
  | .fsync => fdFsync p fd
  | .dup => fdDup fd
  | .lseek offset whence => fdLseek p fd offset whence
  | .read buf count => fdRead p fuel fd buf count
  | .write buf count => fdWrite p fuel fd buf count
  | .getdents64 dirp count => fdGetdents64 p fd dirp count
  | .fstat buf => fdFstat p fd buf

/-- The code of the handler that works on the handle it has taken. -/
def FdOp.taken (fd : Int) : FdOp → FileHandle → M Int
  | .close => fdCloseTaken p fd
  | .fsync => fdFsyncTaken p
  | .dup => fdDupTaken
  | .lseek offset whence => fdLseekTaken p offset whence
  | .read buf count => fdReadTaken p buf count
  | .write buf count => fdWriteTaken p buf count
  | .getdents64 dirp count => fdGetdents64Taken p dirp count
  | .fstat buf => fdEfiStat p buf

/-- The descriptors that `fd_read` and `fd_write` send to the console. -/
def FdOp.console (fd : Int) : FdOp → Bool
  | .read .. => decide (fd = 0)
  | .write .. => decide (fd = 1 ∨ fd = 2)
  | _ => false

/-- Away from the console every handler is the one guard and its own code. -/
theorem FdOp.run_eq_withFd {op : FdOp} {fd : Int} (hconsole : op.console fd = false)
    (fuel : Nat) : op.run p fuel fd = withFd fd (op.taken p fd) := by
  cases op with
  | read buf count =>
      have hfd : fd ≠ 0 := by simpa [FdOp.console] using hconsole
      simp only [FdOp.run, FdOp.taken, fdRead, withFd, if_neg hfd]
  | write buf count =>
      have hfd : ¬ (fd = 1 ∨ fd = 2) := by simpa [FdOp.console] using hconsole
      simp only [FdOp.run, FdOp.taken, fdWrite, fdWriteSized, withFd, if_neg hfd]
  | _ => rfl

theorem fdDupTaken_no_indexFault (handle : FileHandle) :
    Avoids IndexFault (fdDupTaken handle) := by
  apply Avoids.get.bind
  intro m
  by_cases hoccupied : ∃ r, m.fds r ≠ none
  · obtain ⟨r, hfind, _⟩ := fdRealFindFree_of_occupied hoccupied
    rw [hfind, if_neg (by omega), fdsWrite, fdsSlot_of_slot, pure_bind]
    exact (Avoids.modify _).bind fun _ => Avoids.pure _
  · have hempty : ∀ r, m.fds r = none := by simpa using hoccupied
    rw [fdRealFindFree_of_empty hempty]
    exact Avoids.pure _

theorem fdCloseTaken_no_indexFault (r : Fin maxFds) (handle : FileHandle) :
    Avoids IndexFault (fdCloseTaken p (toVirtualFd r) handle) := by
  rw [fdCloseTaken, toRealFd_toVirtualFd, fdRealReset, fdsWrite, fdsSlot_of_slot,
    pure_bind]
  apply (Avoids.modify _).bind
  intro _
  apply Avoids.get.bind
  intro m
  apply Avoids.ite
  · apply Avoids.bind
    · intro s stop s' hrun
      rintro ⟨index, hindex⟩
      rw [uefiCallWrapper_eq_error p hrun] at hindex
      cases hindex
    · intro closed
      exact (Avoids.pure _).ite (Avoids.pure _)
  · exact Avoids.pure _

/-- No handler indexes the table outside its bounds once the guard has let the
descriptor of a slot pass. -/
theorem FdOp.taken_no_indexFault (op : FdOp) (r : Fin maxFds) (handle : FileHandle) :
    Avoids IndexFault (op.taken p (toVirtualFd r) handle) := by
  cases op with
  | close => exact fdCloseTaken_no_indexFault p r handle
  | fsync => exact (fdFsyncTaken_attending p handle).avoids
  | dup => exact fdDupTaken_no_indexFault handle
  | lseek offset whence => exact (fdLseekTaken_attending p offset whence handle).avoids
  | read buf count => exact (fdReadTaken_attending p buf count handle).avoids
  | write buf count => exact (fdWriteTaken_attending p buf count handle).avoids
  | getdents64 dirp count =>
      exact (fdGetdents64Taken_attending p dirp count handle).avoids
  | fstat buf => exact (fdEfiStat_attending p buf handle).avoids

/-- Guard and handler together keep to the bounds of the table. -/
theorem FdOp.withFd_no_indexFault (op : FdOp) (fd : Int) :
    Avoids IndexFault (withFd fd (op.taken p fd)) := by
  intro m stop m' hrun
  rw [withFd_run] at hrun
  split at hrun
  · cases hrun
  · split at hrun
    · cases hrun
    · split at hrun
      · cases hrun
      · rename_i handle hopen
        obtain ⟨r, hnumber, _⟩ := Machine.openHandle_eq_some.mp hopen
        rw [hnumber] at hrun
        exact op.taken_no_indexFault p r handle m stop m' hrun

end Operations

/-- The check of a handler agrees with the numbering in a machine, whatever the
firmware: it takes the handle of an open descriptor, it refuses every other
descriptor without touching the machine, and it keeps to the bounds of the table. -/
def FdOp.GuardAgrees (op : FdOp) (fd : Int) (m : Machine) : Prop :=
  ∀ (p : Platform) (fuel : Nat),
    (∀ (r : Fin maxFds) handle, fd = toVirtualFd r → m.fds r = some handle →
      (op.run p fuel fd).run m = (op.taken p fd handle).run m) ∧
    ((¬ ∃ (r : Fin maxFds) (handle : FileHandle),
        fd = toVirtualFd r ∧ m.fds r = some handle) →
      ∃ e, (e = Errno.ebadf ∨ e = Errno.eacces) ∧
        (op.run p fuel fd).run m = .ok e.neg m) ∧
    ∀ stop m', (op.run p fuel fd).run m = .error stop m' → ¬ IndexFault stop

theorem failingFirmware_error (m : Machine) (call : Call) :
    efiError (failingFirmware.answer m call).reply.status = true := by
  change efiError efiAborted = true
  decide

theorem ok_ne_ok {v w : Int} (hne : v ≠ w) (m m' : Machine) :
    (.ok v m : EStateM.Result Stop Machine Int) ≠ .ok w m' := by
  intro heq
  rw [EStateM.Result.ok.injEq] at heq
  exact hne heq.1

/-- A call that fails, and whose failure is returned, is not answered with `-EBADF`. -/
theorem failingCall_ne_refusal {call : Call} (hback : call.mayNotReturn = false)
    {f : Reply → M Int} {m : Machine}
    (hf : ∀ r, efiError r.status = true →
      (f r).run (failingFirmware.after m call) =
        .ok (failure r.status) (failingFirmware.after m call)) (m' : Machine) :
    (uefiCallWrapper failingFirmware call >>= f).run m ≠ .ok Errno.ebadf.neg m' := by
  rw [run_bind_of_ok (uefiCallWrapper_run _ hback m), hf _ (failingFirmware_error m call)]
  exact ok_ne_ok (failure_ne_ebadf _) _ _

/-- A failure that is checked at once is returned. -/
theorem checked_run {status : EfiStatus} (herror : efiError status = true)
    (rest : M Int) (m : Machine) :
    (if efiError status then return failure status else rest : M Int).run m =
      .ok (failure status) m := by
  rw [if_pos herror]
  rfl

theorem seekResult_of_error {status : EfiStatus} (herror : efiError status = true)
    (offset64 : UInt64) : seekResult status offset64 = failure status :=
  if_pos herror

theorem fdLseekTaken_ne_refusal (offset whence : Int) (handle : FileHandle)
    (m m' : Machine) :
    (fdLseekTaken failingFirmware offset whence handle).run m ≠ .ok Errno.ebadf.neg m' := by
  rw [fdLseekTaken]
  by_cases hset : whence = 0
  · rw [if_pos hset]
    refine failingCall_ne_refusal rfl (fun r herror => ?_) m'
    rw [seekResult_of_error herror]
    rfl
  · rw [if_neg hset]
    by_cases hend : whence = 2
    · rw [if_pos hend]
      exact failingCall_ne_refusal rfl (fun r herror => checked_run herror _ _) m'
    · rw [if_neg hend]
      by_cases hcur : whence = 1
      · rw [if_pos hcur, seekCurrent]
        exact failingCall_ne_refusal rfl (fun r herror => checked_run herror _ _) m'
      · have hzero : seekResult efiSuccess 0 ≠ Errno.ebadf.neg := by decide
        rw [if_neg hcur]
        exact ok_ne_ok hzero _ _

/-- On firmware that fails every call, no handler answers `-EBADF` by itself. -/
theorem FdOp.taken_ne_refusal (op : FdOp) {m : Machine} {r : Fin maxFds}
    {handle : FileHandle} (hslot : m.fds r = some handle) (m' : Machine) :
    (op.taken failingFirmware (toVirtualFd r) handle).run m ≠
      .ok Errno.ebadf.neg m' := by
  cases op with
  | close =>
      rw [FdOp.taken, fdCloseTaken_run]
      split
      · rw [closeResult, if_pos (failingFirmware_error _ _)]
        exact ok_ne_ok (failure_ne_ebadf _) _ _
      · exact ok_ne_ok (by decide) _ _
  | fsync => exact failingCall_ne_refusal rfl (fun r herror => checked_run herror _ _) m'
  | dup =>
      have hoccupied : ∃ s, m.fds s ≠ none := ⟨r, by simp [hslot]⟩
      obtain ⟨s, hfind, _⟩ := fdRealFindFree_of_occupied hoccupied
      have hrange := toVirtualFd_slot_range s
      simp only [FdOp.taken, fdDupTaken, EStateM.run_bind, EStateM.run_get, hfind]
      rw [if_neg (by omega), EStateM.run_bind, fdsWrite_run_slot]
      apply ok_ne_ok
      simp only [Errno.neg, Errno.code]
      omega
  | lseek offset whence => exact fdLseekTaken_ne_refusal offset whence handle m m'
  | read buf count =>
      rw [FdOp.taken, fdReadTaken, EStateM.run_bind, uefiCallWrapper_run _ rfl]
      simp only [EStateM.run_bind, storeBytes_run, failingFirmware_error, ↓reduceIte]
      exact ok_ne_ok (failure_ne_ebadf _) _ _
  | write buf count =>
      rw [FdOp.taken, fdWriteTaken, run_bind_of_ok (EStateM.run_get m)]
      exact failingCall_ne_refusal rfl (fun r herror => checked_run herror _ _) m'
  | getdents64 dirp count =>
      rw [FdOp.taken, fdGetdents64Taken]
      cases (UInt32.ofInt (direntCount count)).toNat with
      | zero => exact ok_ne_ok (by decide) _ _
      | succ left =>
          rw [direntLoop]
          exact failingCall_ne_refusal rfl (fun r herror => checked_run herror _ _) m'
  | fstat buf =>
      simp only [FdOp.taken, fdEfiStat, storeStatHeader, EStateM.run_bind,
        storeBytes_run, fdEfiGetFileInfo]
      rw [uefiCallWrapper_run _ rfl]
      simp only [failingFirmware_error, ↓reduceIte]
      exact ok_ne_ok (failure_ne_ebadf _) _ _

/-- The open descriptors of the last three slots are refused. -/
theorem FdOp.not_guardAgrees_of_top {op : FdOp} {fd : Int} {m : Machine}
    (hconsole : op.console fd = false) (htop : 17 ≤ fd) {handle : FileHandle}
    (hopen : m.openHandle fd = some handle) : ¬ op.GuardAgrees fd m := by
  intro hagrees
  obtain ⟨r, hfd, hslot⟩ := Machine.openHandle_eq_some.mp hopen
  obtain ⟨htakes, _, _⟩ := hagrees failingFirmware 0
  have hrun := htakes r handle hfd hslot
  rw [FdOp.run_eq_withFd _ hconsole, withFd_run, if_pos (by omega), hfd] at hrun
  exact op.taken_ne_refusal hslot m hrun.symm

/-- Every other descriptor is taken or refused as the numbering says. -/
theorem FdOp.guardAgrees_of_low_or_closed {op : FdOp} {fd : Int} {m : Machine}
    (hconsole : op.console fd = false)
    (hfd : fd ≤ 16 ∨ m.openHandle fd = none) : op.GuardAgrees fd m := by
  intro p fuel
  rw [FdOp.run_eq_withFd p hconsole fuel]
  refine ⟨?_, ?_, ?_⟩
  · intro r handle hnumber hslot
    have hopen : m.openHandle fd = some handle :=
      Machine.openHandle_eq_some.mpr ⟨r, hnumber, hslot⟩
    have hlow : fd ≤ 16 := hfd.resolve_right (by simp [hopen])
    have hpass : r.val ≤ 12 := toVirtualFd_le_iff.mp (hnumber ▸ hlow)
    rw [hnumber, withFd_run_of_slot hpass hslot]
  · intro hclosed
    apply withFd_run_of_refused
    apply Or.inr
    cases hopen : m.openHandle fd with
    | none => rfl
    | some handle =>
        obtain ⟨r, hnumber, hslot⟩ := Machine.openHandle_eq_some.mp hopen
        exact absurd ⟨r, handle, hnumber, hslot⟩ hclosed
  · exact op.withFd_no_indexFault p fd m

/-- The check of a handler agrees with the numbering exactly away from the open
descriptors of the last three slots. -/
theorem guardAgrees_iff_not_top {op : FdOp} {fd : Int} {m : Machine}
    (hconsole : op.console fd = false) :
    op.GuardAgrees fd m ↔
      ¬ (17 ≤ fd ∧ fd ≤ 19 ∧ ∃ handle, m.openHandle fd = some handle) := by
  constructor
  · rintro hagrees ⟨htop, _, handle, hopen⟩
    exact FdOp.not_guardAgrees_of_top hconsole htop hopen hagrees
  · intro htop
    apply FdOp.guardAgrees_of_low_or_closed hconsole
    by_cases hlow : fd ≤ 16
    · exact Or.inl hlow
    · apply Or.inr
      cases hopen : m.openHandle fd with
      | none => rfl
      | some handle =>
          have hrange := Machine.openHandle_range hopen
          exact absurd ⟨by omega, by omega, handle, hopen⟩ htop

/-- A machine whose fourteenth slot is open. -/
def fourteenthOpen : Machine := Machine.blank.put 13 firstHandle

/-- With the first slot open as well, `fd_fsync` takes the handle of the one and refuses
that of the other. -/
theorem guardAgrees_fsync_open :
    FdOp.fsync.GuardAgrees 4 (fourteenthOpen.put 0 firstHandle) ∧
      ¬ FdOp.fsync.GuardAgrees 17 (fourteenthOpen.put 0 firstHandle) := by
  refine ⟨(guardAgrees_iff_not_top rfl).mpr fun htop => absurd htop.1 (by decide), ?_⟩
  rw [guardAgrees_iff_not_top rfl, not_not]
  exact ⟨by decide, by decide, firstHandle, rfl⟩

/-- The fourteenth slot is open as descriptor 17, and `fd_fsync` refuses it. -/
theorem fsync_refuses_open_seventeen :
    ¬ ∀ (op : FdOp) (fd : Int32) (m : Machine), op.console fd.toInt = false →
      op.GuardAgrees fd.toInt m := by
  intro hall
  have hagrees := hall .fsync 17 fourteenthOpen rfl
  have hopen : fourteenthOpen.openHandle 17 = some firstHandle := rfl
  exact FdOp.not_guardAgrees_of_top rfl (by decide) hopen hagrees

end UefiLinux
