/-
Closing a descriptor.  The slot is cleared first; then a search for the handle in
the whole table decides whether the firmware's `Close` is called, and that search
answers zero both for the first slot and for no slot.
-/
import UefiLinux.Effects

namespace UefiLinux

open Progress Journal

/-- The machine with a slot emptied. -/
def Machine.clear (m : Machine) (r : Fin maxFds) : Machine :=
  { m with fds := Function.update m.fds r none }

/-- The machine with a handle stored in a slot. -/
def Machine.put (m : Machine) (r : Fin maxFds) (handle : FileHandle) : Machine :=
  { m with fds := Function.update m.fds r (some handle) }

@[simp] theorem Machine.clear_fds (m : Machine) (r : Fin maxFds) :
    (m.clear r).fds = Function.update m.fds r none := rfl

@[simp] theorem Machine.clear_trace (m : Machine) (r : Fin maxFds) :
    (m.clear r).trace = m.trace := rfl

@[simp] theorem Machine.put_fds (m : Machine) (r : Fin maxFds) (handle : FileHandle) :
    (m.put r handle).fds = Function.update m.fds r (some handle) := rfl

@[simp] theorem Machine.put_trace (m : Machine) (r : Fin maxFds)
    (handle : FileHandle) : (m.put r handle).trace = m.trace := rfl

/-- A machine with one file open, as descriptor 4. -/
def oneOpen : Machine := Machine.blank.put 0 firstHandle

/-- `fd_close` of a slot passes the handle it held to the firmware's `Close`. -/
def closesHandle (fds : Slots maxFds FileHandle) (r : Fin maxFds)
    (handle : FileHandle) : Prop :=
  fdRealForHandle (Function.update fds r none) handle = 0

instance (fds : Slots maxFds FileHandle) (r : Fin maxFds) (handle : FileHandle) :
    Decidable (closesHandle fds r handle) :=
  inferInstanceAs (Decidable (_ = _))

/-- A handle left in the first slot counts as held nowhere. -/
theorem closesHandle_iff {fds : Slots maxFds FileHandle} {r : Fin maxFds}
    {handle : FileHandle} :
    closesHandle fds r handle ↔
      (r ≠ 0 ∧ fds 0 = some handle) ∨ ¬ fds.HeldElsewhere r handle := by
  rw [closesHandle, fdRealForHandle_eq_zero_iff]
  have hnowhere : (∀ s, Function.update fds r none s ≠ some handle) ↔
      ¬ fds.HeldElsewhere r handle := by
    rw [← Slots.mem_held_clear, Slots.mem_held]
    simp
  have hfirst : Function.update fds r none 0 = some handle ↔
      r ≠ 0 ∧ fds 0 = some handle := by
    by_cases hr : r = 0
    · subst hr
      simp
    · rw [Function.update_of_ne (Ne.symm hr)]
      simp [hr]
  rw [hnowhere, hfirst]

section Closing

variable (p : Platform)

/-- The firmware's `Close` succeeds on a handle in a machine. -/
def CloseSucceeds (m : Machine) (handle : FileHandle) : Prop :=
  efiError (p.answer m (.close handle)).reply.status = false

instance (m : Machine) (handle : FileHandle) : Decidable (CloseSucceeds p m handle) :=
  inferInstanceAs (Decidable (_ = _))

/-- What `fd_close` returns after it has called `Close`. -/
def closeResult (m : Machine) (handle : FileHandle) : Int :=
  if efiError (p.answer m (.close handle)).reply.status then
    failure (p.answer m (.close handle)).reply.status
  else 0

theorem closeResult_neg_iff {m : Machine} {handle : FileHandle} :
    closeResult p m handle < 0 ↔ ¬ CloseSucceeds p m handle := by
  have hrange := failure_range (p.answer m (.close handle)).reply.status
  rw [closeResult, CloseSucceeds]
  split
  · rename_i herror
    simp only [herror, Bool.true_eq_false, not_false_eq_true, iff_true]
    omega
  · rename_i hok
    simp [hok]

theorem fdCloseTaken_run (r : Fin maxFds) (handle : FileHandle) (m : Machine) :
    (fdCloseTaken p (toVirtualFd r) handle).run m =
      if closesHandle m.fds r handle then
        .ok (closeResult p m handle) (p.after (m.clear r) (.close handle))
      else .ok 0 (m.clear r) := by
  unfold fdCloseTaken fdRealReset
  rw [toRealFd_toVirtualFd]
  simp only [EStateM.run_bind, fdsWrite_run_slot, EStateM.run_get]
  by_cases hcloses : closesHandle m.fds r handle
  · rw [if_pos hcloses, if_pos (show fdRealForHandle _ handle = 0 from hcloses)]
    exact reportedCall_run p rfl 0 (m.clear r)
  · rw [if_neg hcloses, if_neg (show ¬ fdRealForHandle _ handle = 0 from hcloses)]
    rfl

/-- `fd_close` on the descriptor of a slot that the guard lets pass. -/
theorem fdClose_run {r : Fin maxFds} {handle : FileHandle} {m : Machine}
    (hpass : r.val ≤ 12) (hslot : m.fds r = some handle) :
    (fdClose p (toVirtualFd r)).run m =
      if closesHandle m.fds r handle then
        .ok (closeResult p m handle) (p.after (m.clear r) (.close handle))
      else .ok 0 (m.clear r) := by
  rw [fdClose, withFd_run_of_slot hpass hslot]
  exact fdCloseTaken_run p r handle m

/-- The number of times a journal passes a handle to `Close`. -/
def closeCount (handle : FileHandle) (log : List Event) : Nat :=
  log.countP fun e => decide (e.call = .close handle)

/-- `fd_close` empties the slot, leaves the others, and passes the handle to
`Close` once if no other slot holds it and not at all if one does. -/
def ReleasesAtLast (m : Machine) (r : Fin maxFds) (handle : FileHandle) : Prop :=
  ∃ v m' new, (fdClose p (toVirtualFd r)).run m = .ok v m' ∧
    m'.fds = Function.update m.fds r none ∧ m'.trace = m.trace ++ new ∧
    closeCount handle new = if m.fds.HeldElsewhere r handle then 0 else 1

/-- The close that calls `Close` on a handle the first slot still holds. -/
def PrematureClose (fds : Slots maxFds FileHandle) (r : Fin maxFds) : Prop :=
  r ≠ 0 ∧ fds r ≠ none ∧ fds r = fds 0

theorem closesHandle_iff_of_not_premature {fds : Slots maxFds FileHandle}
    {r : Fin maxFds} {handle : FileHandle} (hslot : fds r = some handle)
    (hmature : ¬ PrematureClose fds r) :
    closesHandle fds r handle ↔ ¬ fds.HeldElsewhere r handle := by
  rw [closesHandle_iff]
  constructor
  · rintro (⟨hr, hfirst⟩ | hlast)
    · exact absurd ⟨hr, by simp [hslot], hslot.trans hfirst.symm⟩ hmature
    · exact hlast
  · exact Or.inr

/-- `fd_close` releases the handle at its last slot exactly when it is not a close
of a handle that the first slot still holds. -/
theorem releasesAtLast_iff {m : Machine} {r : Fin maxFds} {handle : FileHandle}
    (hpass : r.val ≤ 12) (hslot : m.fds r = some handle) :
    ReleasesAtLast p m r handle ↔ ¬ PrematureClose m.fds r := by
  have hrun := fdClose_run p hpass hslot
  constructor
  · rintro ⟨v, m', new, hreturn, _, htrace, hcount⟩ ⟨hr, _, hsame⟩
    have hfirst : m.fds 0 = some handle := hsame ▸ hslot
    have hshared : m.fds.HeldElsewhere r handle := ⟨0, Ne.symm hr, hfirst⟩
    rw [hrun, if_pos (closesHandle_iff.mpr (Or.inl ⟨hr, hfirst⟩)),
      EStateM.Result.ok.injEq] at hreturn
    rw [← hreturn.2, Platform.after_trace, Machine.clear_trace,
      List.append_cancel_left_eq] at htrace
    rw [if_pos hshared, ← htrace] at hcount
    simp [closeCount] at hcount
  · intro hmature
    have hcloses := closesHandle_iff_of_not_premature hslot hmature
    by_cases hshared : m.fds.HeldElsewhere r handle
    · rw [if_neg (by simpa [hcloses] using hshared)] at hrun
      refine ⟨0, m.clear r, [], hrun, rfl, by simp, ?_⟩
      rw [if_pos hshared]
      rfl
    · rw [if_pos (hcloses.mpr hshared)] at hrun
      refine ⟨_, _, [p.answer (m.clear r) (.close handle)], hrun, rfl, rfl, ?_⟩
      rw [if_neg hshared]
      simp [closeCount]

end Closing

end UefiLinux
