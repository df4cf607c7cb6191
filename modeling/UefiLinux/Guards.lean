/-
The guard at the head of the descriptor handlers and the two searches of the
table: which descriptors the guard lets pass and which slot it then reads, and
what each search finds.
-/
import UefiLinux.Console
import UefiLinux.Directories

namespace UefiLinux

open Progress Journal

/-- The slot a descriptor numbers, if it numbers one. -/
def slotOf (fd : Int) : Option (Fin maxFds) :=
  if h : 4 ≤ fd ∧ fd < 20 then some ⟨(fd - 4).toNat, by simp only [maxFds]; omega⟩
  else none

/-- The handle of an open descriptor. -/
def Machine.openHandle (m : Machine) (fd : Int) : Option FileHandle :=
  (slotOf fd).bind m.fds

theorem toVirtualFd_slot_range (r : Fin maxFds) :
    4 ≤ toVirtualFd r ∧ toVirtualFd r < 20 := by
  have hbound : r.val < 16 := r.isLt
  simp only [toVirtualFd, virtualFdBase]
  omega

/-- The descriptors the guard lets pass are those of the slots up to the twelfth. -/
theorem toVirtualFd_le_iff {r : Fin maxFds} : toVirtualFd r ≤ 16 ↔ r.val ≤ 12 := by
  simp only [toVirtualFd, virtualFdBase]
  omega

@[simp] theorem slotOf_toVirtualFd (r : Fin maxFds) : slotOf (toVirtualFd r) = some r := by
  rw [slotOf, dif_pos (toVirtualFd_slot_range r), Option.some.injEq]
  apply Fin.ext
  simp only [toVirtualFd, virtualFdBase]
  omega

theorem slotOf_eq_some {fd : Int} {r : Fin maxFds} :
    slotOf fd = some r ↔ fd = toVirtualFd r := by
  constructor
  · intro hslot
    rw [slotOf] at hslot
    split at hslot
    · rename_i hrange
      rw [Option.some.injEq] at hslot
      subst hslot
      simp only [toVirtualFd, virtualFdBase]
      omega
    · cases hslot
  · rintro rfl
    exact slotOf_toVirtualFd r

theorem slotOf_eq_none {fd : Int} : slotOf fd = none ↔ fd < 4 ∨ 20 ≤ fd := by
  rw [slotOf]
  split
  · rename_i hrange
    simp only [reduceCtorEq, false_iff]
    omega
  · rename_i hrange
    simp only [true_iff]
    omega

theorem slotOf_of_range {fd : Int} (hlow : 4 ≤ fd) (hhigh : fd ≤ 19) :
    ∃ r, slotOf fd = some r :=
  ⟨_, dif_pos ⟨hlow, by omega⟩⟩

theorem toRealFd_toVirtualFd (fd : Int) : toRealFd (toVirtualFd fd) = fd := by
  simp only [toRealFd, toVirtualFd]
  omega

theorem toVirtualFd_injective {r s : Fin maxFds} (heq : toVirtualFd r = toVirtualFd s) :
    r = s := by
  have hslots : slotOf (toVirtualFd r) = slotOf (toVirtualFd s) := by rw [heq]
  simpa using hslots

@[simp] theorem Machine.openHandle_toVirtualFd (m : Machine) (r : Fin maxFds) :
    m.openHandle (toVirtualFd r) = m.fds r := by
  simp [Machine.openHandle]

theorem Machine.openHandle_eq_some {m : Machine} {fd : Int} {handle : FileHandle} :
    m.openHandle fd = some handle ↔
      ∃ r : Fin maxFds, fd = toVirtualFd r ∧ m.fds r = some handle := by
  simp only [Machine.openHandle, Option.bind_eq_some_iff, slotOf_eq_some]

theorem Machine.openHandle_range {m : Machine} {fd : Int} {handle : FileHandle}
    (hopen : m.openHandle fd = some handle) : 4 ≤ fd ∧ fd < 20 := by
  obtain ⟨r, rfl, _⟩ := Machine.openHandle_eq_some.mp hopen
  exact toVirtualFd_slot_range r

theorem fdsRead_run_slot (r : Fin maxFds) (m : Machine) :
    (fdsRead (r : Int)).run m = .ok (m.fds r) m := by
  rw [fdsRead, fdsSlot_of_slot]
  rfl

theorem fdsWrite_run_slot (r : Fin maxFds) (value : Option FileHandle) (m : Machine) :
    (fdsWrite (r : Int) value).run m =
      .ok () { m with fds := Function.update m.fds r value } := by
  rw [fdsWrite, fdsSlot_of_slot]
  rfl

/-- Reading the table at the real number of a descriptor. -/
theorem fdsRead_run_of_slotOf {fd : Int} {r : Fin maxFds} (hslot : slotOf fd = some r)
    (m : Machine) : (fdsRead (toRealFd fd)).run m = .ok (m.fds r) m := by
  rw [slotOf_eq_some.mp hslot, toRealFd_toVirtualFd, fdsRead_run_slot]

theorem fdsRead_run_of_none {fd : Int} (hslot : slotOf fd = none) (m : Machine) :
    (fdsRead (toRealFd fd)).run m = .error (.fault (.fdsIndex (toRealFd fd))) m := by
  have hout : ¬ (0 ≤ toRealFd fd ∧ toRealFd fd < maxFds) := by
    have hrange := slotOf_eq_none.mp hslot
    simp only [toRealFd, virtualFdBase, maxFds]
    omega
  rw [fdsRead, fdsSlot_of_not_slot hout]
  rfl

/-- What the guard does with every descriptor: the slots above the twelfth are
refused whatever they hold. -/
theorem withFd_run (fd : Int) (taken : FileHandle → M Int) (m : Machine) :
    (withFd fd taken).run m =
      if 16 < fd then .ok Errno.ebadf.neg m
      else if fd < 4 then .ok Errno.eacces.neg m
      else match m.openHandle fd with
        | none => .ok Errno.ebadf.neg m
        | some handle => (taken handle).run m := by
  unfold withFd withOpenFd
  by_cases hhigh : 16 < fd
  · have hcond : fd > (maxFds : Int) := hhigh
    simp only [if_pos hhigh, if_pos hcond]
    rfl
  · have hcond : ¬ fd > (maxFds : Int) := hhigh
    simp only [if_neg hhigh, if_neg hcond]
    by_cases hlow : fd < 4
    · have hbase : fd < virtualFdBase := hlow
      simp only [if_pos hlow, if_pos hbase]
      rfl
    · have hbase : ¬ fd < virtualFdBase := hlow
      simp only [if_neg hlow, if_neg hbase]
      cases hslot : slotOf fd with
      | none =>
          have hrange := slotOf_eq_none.mp hslot
          omega
      | some r =>
          rw [EStateM.run_bind, fdsRead_run_of_slotOf hslot]
          simp only [Machine.openHandle, hslot, Option.bind_some]
          cases m.fds r with
          | none => rfl
          | some handle => rfl

/-- The guard refuses the descriptors of the slots above the twelfth. -/
theorem withFd_run_of_high {fd : Int} (hhigh : 16 < fd) (taken : FileHandle → M Int)
    (m : Machine) : (withFd fd taken).run m = .ok Errno.ebadf.neg m := by
  rw [withFd_run, if_pos hhigh]

/-- The guard takes the handle of any other open descriptor. -/
theorem withFd_run_of_open {fd : Int} {handle : FileHandle} {m : Machine}
    (hpass : fd ≤ 16) (hopen : m.openHandle fd = some handle)
    (taken : FileHandle → M Int) : (withFd fd taken).run m = (taken handle).run m := by
  have hlow : ¬ fd < 4 := not_lt.mpr (Machine.openHandle_range hopen).1
  rw [withFd_run, if_neg (not_lt.mpr hpass), if_neg hlow, hopen]

/-- The guard takes the handle of an occupied slot up to the twelfth. -/
theorem withFd_run_of_slot {r : Fin maxFds} {handle : FileHandle} {m : Machine}
    (hpass : r.val ≤ 12) (hslot : m.fds r = some handle)
    (taken : FileHandle → M Int) :
    (withFd (toVirtualFd r) taken).run m = (taken handle).run m :=
  withFd_run_of_open (toVirtualFd_le_iff.mpr hpass)
    (by rw [Machine.openHandle_toVirtualFd, hslot]) taken

/-- The guard refuses every descriptor that is not open, and the open descriptors of
the slots above the twelfth. -/
theorem withFd_run_of_refused {fd : Int} {m : Machine}
    (hrefused : 16 < fd ∨ m.openHandle fd = none) (taken : FileHandle → M Int) :
    ∃ e, (e = Errno.ebadf ∨ e = Errno.eacces) ∧
      (withFd fd taken).run m = .ok e.neg m := by
  rw [withFd_run]
  by_cases hhigh : 16 < fd
  · exact ⟨.ebadf, Or.inl rfl, if_pos hhigh⟩
  · rw [if_neg hhigh]
    by_cases hlow : fd < 4
    · exact ⟨.eacces, Or.inr rfl, if_pos hlow⟩
    · have hclosed := hrefused.resolve_left hhigh
      rw [if_neg hlow, hclosed]
      exact ⟨.ebadf, Or.inl rfl, rfl⟩

/-- What holds of the machine as it is, and of where the code behind the guard ends, holds
of where the guarded code ends. -/
theorem withFd_finalState {P : Machine → Prop} {m : Machine} {fd : Int}
    {taken : FileHandle → M Int} (hself : P m)
    (htaken : ∀ (r : Fin maxFds) handle, fd = toVirtualFd r → m.fds r = some handle →
      P (finalState ((taken handle).run m))) : P (finalState ((withFd fd taken).run m)) := by
  rw [withFd_run]
  split
  · exact hself
  · split
    · exact hself
    · cases hopen : m.openHandle fd with
      | none => exact hself
      | some handle =>
          obtain ⟨r, hnumber, hslot⟩ := Machine.openHandle_eq_some.mp hopen
          exact htaken r handle hnumber hslot

/-- A descriptor that the guard lets pass is that of an occupied slot up to the
twelfth. -/
theorem Machine.slot_of_passes {fd : Int} {m : Machine}
    (hpasses : ¬ (16 < fd ∨ m.openHandle fd = none)) :
    ∃ (r : Fin maxFds) (handle : FileHandle),
      fd = toVirtualFd r ∧ r.val ≤ 12 ∧ m.fds r = some handle := by
  obtain ⟨hlow, hsome⟩ := not_or.mp hpasses
  obtain ⟨handle, hopen⟩ := Option.ne_none_iff_exists'.mp hsome
  obtain ⟨r, hnumber, hslot⟩ := Machine.openHandle_eq_some.mp hopen
  have hpass : r.val ≤ 12 := toVirtualFd_le_iff.mp (hnumber ▸ not_lt.mp hlow)
  exact ⟨r, handle, hnumber, hpass, hslot⟩

/-- The search for a free slot finds the first occupied one. -/
theorem fdRealFindFree_of_occupied {fds : Slots maxFds FileHandle}
    (hoccupied : ∃ r, fds r ≠ none) :
    ∃ r : Fin maxFds, fdRealFindFree fds = (r : Int) ∧ fds r ≠ none := by
  unfold fdRealFindFree
  rcases Slots.find?_cases fun it => (fds it).isSome with ⟨r, hfind, hr, _⟩ | ⟨_, hnone⟩
  · rw [hfind]
    exact ⟨r, rfl, by simpa [Option.isSome_iff_ne_none] using hr⟩
  · obtain ⟨r, hr⟩ := hoccupied
    have hmiss := hnone r
    exact absurd (by simpa using hmiss) hr

/-- The search for a free slot fails on the table in which every slot is free. -/
theorem fdRealFindFree_of_empty {fds : Slots maxFds FileHandle}
    (hempty : ∀ r, fds r = none) : fdRealFindFree fds = -1 := by
  unfold fdRealFindFree
  rcases Slots.find?_cases fun it => (fds it).isSome with ⟨r, _, hr, _⟩ | ⟨hfind, _⟩
  · simp [hempty r] at hr
  · rw [hfind]

/-- The search for a handle cannot tell a handle in the first slot from a handle
in no slot. -/
theorem fdRealForHandle_eq_zero_iff {fds : Slots maxFds FileHandle}
    {handle : FileHandle} :
    fdRealForHandle fds handle = 0 ↔
      fds 0 = some handle ∨ ∀ r, fds r ≠ some handle := by
  unfold fdRealForHandle
  rcases Slots.find?_cases fun it => decide (fds it = some handle) with
    ⟨r, hfind, hr, hbefore⟩ | ⟨hfind, hnone⟩
  · rw [hfind]
    have hheld : fds r = some handle := by simpa using hr
    constructor
    · intro hzero
      have hr0 : r = 0 := Fin.ext (Int.ofNat.inj hzero)
      exact Or.inl (hr0 ▸ hheld)
    · rintro (hfirst | hnone)
      · by_contra hne
        change ¬ ((r : Nat) : Int) = 0 at hne
        have hpos : (0 : Fin maxFds) < r := by
          change 0 < (r : Nat)
          omega
        have hmiss := hbefore 0 hpos
        simp [hfirst] at hmiss
      · exact absurd hheld (hnone r)
  · rw [hfind]
    simp only [true_iff]
    exact Or.inr fun r => by simpa using hnone r

end UefiLinux
