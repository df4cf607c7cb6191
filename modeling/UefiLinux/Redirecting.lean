/-
Redirecting a descriptor with `fd_dup2`.  The target is checked and closed under
its virtual number, but the handle is stored, and the result computed, as if that
number were a real slot.
-/
import UefiLinux.Closing

namespace UefiLinux

open Progress Journal

variable (p : Platform)

theorem fdDup2Rest_run_none {oldFd : Int} {m : Machine} {ro : Fin maxFds}
    (hold : slotOf oldFd = some ro) (hnone : m.fds ro = none) (newFd : Int) :
    (fdDup2Rest oldFd newFd).run m = .ok Errno.ebadf.neg m := by
  rw [fdDup2Rest, EStateM.run_bind, fdsRead_run_of_slotOf hold, hnone]
  rfl

/-- The store goes to the slot whose real number is the virtual `new_fd`. -/
theorem fdDup2Rest_run_store {oldFd newFd : Int} {m : Machine} {ro s : Fin maxFds}
    {handle : FileHandle} (hold : slotOf oldFd = some ro)
    (hslot : m.fds ro = some handle) (hnew : newFd = (s : Int)) :
    (fdDup2Rest oldFd newFd).run m = .ok (toVirtualFd newFd) (m.put s handle) := by
  have hpos : ¬ newFd < 0 := by omega
  rw [fdDup2Rest, EStateM.run_bind, fdsRead_run_of_slotOf hold, hslot]
  simp only [if_neg hpos]
  rw [EStateM.run_bind, hnew, fdsWrite_run_slot]
  rfl

/-- A `new_fd` above the real slots is stored outside the table. -/
theorem fdDup2Rest_run_outside {oldFd newFd : Int} {m : Machine} {ro : Fin maxFds}
    {handle : FileHandle} (hold : slotOf oldFd = some ro)
    (hslot : m.fds ro = some handle) (hnew : 16 ≤ newFd) :
    (fdDup2Rest oldFd newFd).run m = .error (.fault (.fdsIndex newFd)) m := by
  have hpos : ¬ newFd < 0 := by omega
  have hout : ¬ (0 ≤ newFd ∧ newFd < maxFds) := by
    simp only [maxFds]
    omega
  rw [fdDup2Rest, EStateM.run_bind, fdsRead_run_of_slotOf hold, hslot]
  simp only [if_neg hpos]
  rw [EStateM.run_bind, fdsWrite, fdsSlot_of_not_slot hout]
  rfl

section Courses

variable {oldFd newFd : Int} {m : Machine}

theorem fdDup2_run_of_refused (hold : oldFd < 4 ∨ 16 < oldFd) :
    ∃ e : Errno, (fdDup2 p oldFd newFd).run m = .ok e.neg m := by
  unfold fdDup2
  by_cases hhigh : oldFd > (maxFds : Int)
  · exact ⟨.ebadf, by rw [if_pos hhigh]; rfl⟩
  · have hlow : oldFd < virtualFdBase := by
      simp only [maxFds] at hhigh
      simp only [virtualFdBase]
      omega
    exact ⟨.eacces, by rw [if_neg hhigh, if_pos hlow]; rfl⟩

/-- Past its checks of `old_fd`, the handler looks at the slot of `new_fd`. -/
theorem fdDup2_eq_of_low (hlow : 4 ≤ oldFd) (hhigh : oldFd ≤ 16) :
    fdDup2 p oldFd newFd = (do
      if (← fdsRead (toRealFd newFd)).isSome then
        let res ← fdClose p newFd
        if res < 0 then return res
      fdDup2Rest oldFd newFd) := by
  have hmax : ¬ oldFd > (maxFds : Int) := by
    simp only [maxFds]
    omega
  have hbase : ¬ oldFd < virtualFdBase := by
    simp only [virtualFdBase]
    omega
  rw [fdDup2, if_neg hmax, if_neg hbase]

/-- The ways `fd_dup2` can have the slot of `new_fd` free: it was, or its handle was
closed, or the search found the handle in another slot. -/
inductive Dup2Frees (m : Machine) (rn : Fin maxFds) : Machine → Prop
  | free (hslot : m.fds rn = none) : Dup2Frees m rn m
  | closed {replaced : FileHandle} (hpass : rn.val ≤ 12) (hslot : m.fds rn = some replaced)
      (hcloses : closesHandle m.fds rn replaced) (hok : CloseSucceeds p m replaced) :
      Dup2Frees m rn (p.after (m.clear rn) (.close replaced))
  | kept {replaced : FileHandle} (hpass : rn.val ≤ 12) (hslot : m.fds rn = some replaced)
      (hcloses : ¬ closesHandle m.fds rn replaced) : Dup2Frees m rn (m.clear rn)

variable {p} in
theorem Dup2Frees.fds {rn : Fin maxFds} {m₁ : Machine} (hfrees : Dup2Frees p m rn m₁) :
    m₁.fds = (m.clear rn).fds := by
  cases hfrees with
  | free hslot =>
      rw [Machine.clear_fds, ← hslot, Function.update_eq_self]
  | closed hpass hslot hcloses hok => rfl
  | kept hpass hslot hcloses => rfl

variable {p} in
/-- When the slot is freed, neither the guard nor the firmware refused the close. -/
theorem Dup2Frees.close_goes {rn : Fin maxFds} {m₁ : Machine} {replaced : FileHandle}
    (hfrees : Dup2Frees p m rn m₁) (hheld : m.fds rn = some replaced) :
    rn.val ≤ 12 ∧ (closesHandle m.fds rn replaced → CloseSucceeds p m replaced) := by
  cases hfrees with
  | free hslot =>
      rw [hslot] at hheld
      cases hheld
  | closed hpass hslot hcloses hok =>
      rw [hslot, Option.some.injEq] at hheld
      exact ⟨hpass, fun _ => hheld ▸ hok⟩
  | kept hpass hslot hcloses =>
      rw [hslot, Option.some.injEq] at hheld
      exact ⟨hpass, fun hclose => absurd (hheld ▸ hclose) hcloses⟩

variable {p} in
/-- An `old_fd` that is open once the slot is freed was open in another slot. -/
theorem Dup2Frees.old_open {ro rn : Fin maxFds} {m₁ : Machine} {handle : FileHandle}
    (hfrees : Dup2Frees p m rn m₁) (hslot : m₁.fds ro = some handle) :
    ro ≠ rn ∧ m.fds ro = some handle := by
  rw [hfrees.fds, Machine.clear_fds] at hslot
  by_cases hsame : ro = rn
  · simp [hsame] at hslot
  · rw [Function.update_of_ne hsame] at hslot
    exact ⟨hsame, hslot⟩

/-- Every way `fd_dup2` can go: its checks of `old_fd` refuse, `new_fd` numbers no slot,
the guard of the inner close refuses, that close fails; or the slot is freed and then
`old_fd` is found empty, its handle is stored, or the store misses the table. -/
inductive Dup2Course (m : Machine) (oldFd newFd : Int) :
    EStateM.Result Stop Machine Int → Prop
  | refused (hold : oldFd < 4 ∨ 16 < oldFd) (e : Errno) :
      Dup2Course m oldFd newFd (.ok e.neg m)
  | outside (hlow : 4 ≤ oldFd) (hhigh : oldFd ≤ 16) (hnew : newFd < 4 ∨ 20 ≤ newFd) :
      Dup2Course m oldFd newFd (.error (.fault (.fdsIndex (toRealFd newFd))) m)
  | top {ro rn : Fin maxFds} {replaced : FileHandle} (hro : ro.val ≤ 12)
      (hold : oldFd = toVirtualFd ro) (hnew : newFd = toVirtualFd rn) (htop : 12 < rn.val)
      (hslot : m.fds rn = some replaced) :
      Dup2Course m oldFd newFd (.ok Errno.ebadf.neg m)
  | fails {ro rn : Fin maxFds} {replaced : FileHandle} (hro : ro.val ≤ 12)
      (hold : oldFd = toVirtualFd ro) (hnew : newFd = toVirtualFd rn) (hpass : rn.val ≤ 12)
      (hslot : m.fds rn = some replaced) (hcloses : closesHandle m.fds rn replaced)
      (hfails : ¬ CloseSucceeds p m replaced) :
      Dup2Course m oldFd newFd
        (.ok (closeResult p m replaced) (p.after (m.clear rn) (.close replaced)))
  | lost {ro rn : Fin maxFds} {m₁ : Machine} (hro : ro.val ≤ 12)
      (hold : oldFd = toVirtualFd ro) (hnew : newFd = toVirtualFd rn)
      (hfrees : Dup2Frees p m rn m₁) (hnone : m₁.fds ro = none) :
      Dup2Course m oldFd newFd (.ok Errno.ebadf.neg m₁)
  | stores {ro rn s : Fin maxFds} {m₁ : Machine} {handle : FileHandle} (hro : ro.val ≤ 12)
      (hold : oldFd = toVirtualFd ro) (hnew : newFd = toVirtualFd rn)
      (hfrees : Dup2Frees p m rn m₁) (hslot : m₁.fds ro = some handle)
      (hs : newFd = (s : Int)) :
      Dup2Course m oldFd newFd (.ok (toVirtualFd newFd) (m₁.put s handle))
  | misses {ro rn : Fin maxFds} {m₁ : Machine} {handle : FileHandle} (hro : ro.val ≤ 12)
      (hold : oldFd = toVirtualFd ro) (hnew : newFd = toVirtualFd rn)
      (hfrees : Dup2Frees p m rn m₁) (hslot : m₁.fds ro = some handle)
      (hbig : 16 ≤ newFd) :
      Dup2Course m oldFd newFd (.error (.fault (.fdsIndex newFd)) m₁)

theorem fdDup2Rest_course {ro rn : Fin maxFds} {m₁ : Machine} (hro : ro.val ≤ 12)
    (hold : oldFd = toVirtualFd ro) (hnew : newFd = toVirtualFd rn)
    (hfrees : Dup2Frees p m rn m₁) :
    Dup2Course p m oldFd newFd ((fdDup2Rest oldFd newFd).run m₁) := by
  have hslotOf : slotOf oldFd = some ro := slotOf_eq_some.mpr hold
  have hrange := toVirtualFd_slot_range rn
  rw [← hnew] at hrange
  cases hslot : m₁.fds ro with
  | none =>
      rw [fdDup2Rest_run_none hslotOf hslot]
      exact .lost hro hold hnew hfrees hslot
  | some handle =>
      by_cases hbig : 16 ≤ newFd
      · rw [fdDup2Rest_run_outside hslotOf hslot hbig]
        exact .misses hro hold hnew hfrees hslot hbig
      · have hs : newFd =
            ((⟨newFd.toNat, by simp only [maxFds]; omega⟩ : Fin maxFds) : Int) := by
          change newFd = (newFd.toNat : Int)
          omega
        rw [fdDup2Rest_run_store hslotOf hslot hs]
        exact .stores hro hold hnew hfrees hslot hs

theorem fdDup2_course {result : EStateM.Result Stop Machine Int}
    (hresult : (fdDup2 p oldFd newFd).run m = result) :
    Dup2Course p m oldFd newFd result := by
  subst hresult
  by_cases hrange : oldFd < 4 ∨ 16 < oldFd
  · have hrefused : ∃ e : Errno, (fdDup2 p oldFd newFd).run m = .ok e.neg m :=
      fdDup2_run_of_refused p hrange
    obtain ⟨e, hrun⟩ := hrefused
    rw [hrun]
    exact .refused hrange e
  · have hlow : 4 ≤ oldFd := by omega
    have hhigh : oldFd ≤ 16 := by omega
    obtain ⟨ro, hro⟩ := slotOf_of_range hlow (by omega)
    have hold := slotOf_eq_some.mp hro
    have hpassOld : ro.val ≤ 12 := toVirtualFd_le_iff.mp (hold ▸ hhigh)
    rw [fdDup2_eq_of_low p hlow hhigh, EStateM.run_bind]
    cases hslotNew : slotOf newFd with
    | none =>
        rw [fdsRead_run_of_none hslotNew]
        exact .outside hlow hhigh (slotOf_eq_none.mp hslotNew)
    | some rn =>
        have hnew := slotOf_eq_some.mp hslotNew
        rw [fdsRead_run_of_slotOf hslotNew]
        cases hslot : m.fds rn with
        | none => exact fdDup2Rest_course p hpassOld hold hnew (.free hslot)
        | some replaced =>
            simp only [Option.isSome_some, ↓reduceIte]
            by_cases hpass : rn.val ≤ 12
            · rw [EStateM.run_bind, hnew, fdClose_run p hpass hslot, ← hnew]
              by_cases hcloses : closesHandle m.fds rn replaced
              · rw [if_pos hcloses]
                simp only
                by_cases hok : CloseSucceeds p m replaced
                · have hres : ¬ closeResult p m replaced < 0 := by
                    simpa [closeResult_neg_iff] using hok
                  rw [if_neg hres]
                  exact fdDup2Rest_course p hpassOld hold hnew
                    (.closed hpass hslot hcloses hok)
                · rw [if_pos ((closeResult_neg_iff p).mpr hok)]
                  exact .fails hpassOld hold hnew hpass hslot hcloses hok
              · rw [if_neg hcloses]
                exact fdDup2Rest_course p hpassOld hold hnew (.kept hpass hslot hcloses)
            · have htop : 16 < newFd := by
                rw [hnew, ← not_le, toVirtualFd_le_iff]
                exact hpass
              rw [EStateM.run_bind, fdClose, withFd_run_of_high htop]
              exact .top hpassOld hold hnew (not_le.mp hpass) hslot

end Courses

/-- `old_fd` is open in one slot, `new_fd` numbers another or the same one, and the
firmware's `Close` of the handle that only the slot of `new_fd` holds succeeds if
one is needed. -/
structure Redirectable (m : Machine) (oldFd newFd : Int) (ro rn : Fin maxFds)
    (handle : FileHandle) : Prop where
  old : oldFd = toVirtualFd ro
  opened : m.fds ro = some handle
  new : newFd = toVirtualFd rn
  closes : ro = rn ∨ ∀ replaced, m.fds rn = some replaced →
    ¬ m.fds.HeldElsewhere rn replaced → CloseSucceeds p m replaced

/-- `fd_dup2` redirects a redirectable pair and nothing else: `new_fd` is returned
and its slot holds the handle of `old_fd`; every other pair is refused with the
table as before; and the table is indexed inside its bounds. -/
def RedirectsExactly (m : Machine) (oldFd newFd : Int) : Prop :=
  (∀ ro rn handle, Redirectable p m oldFd newFd ro rn handle →
    ∃ m', (fdDup2 p oldFd newFd).run m = .ok newFd m' ∧
      m'.fds = Function.update m.fds rn (some handle)) ∧
  ((¬ ∃ ro rn handle, Redirectable p m oldFd newFd ro rn handle) →
    ∃ (e : Errno) (m' : Machine), (fdDup2 p oldFd newFd).run m = .ok e.neg m' ∧
      m'.fds = m.fds) ∧
  ∀ stop m', (fdDup2 p oldFd newFd).run m = .error stop m' → ¬ IndexFault stop

/-- The pairs that `fd_dup2` refuses before it has closed or stored anything:
`old_fd` is outside the range of its check, or `new_fd` is the open descriptor of
one of the last three slots, or neither descriptor is open. -/
def Dup2Refused (m : Machine) (oldFd newFd : Int) : Prop :=
  oldFd < 4 ∨ 16 < oldFd ∨ (17 ≤ newFd ∧ ∃ handle, m.openHandle newFd = some handle) ∨
    (4 ≤ newFd ∧ newFd ≤ 19 ∧ m.openHandle newFd = none ∧ m.openHandle oldFd = none)

/-- An outcome that fits no redirection: a store or load outside the table, or a
result that is not `new_fd` and either is no errno or comes with a changed table. -/
def Strays (m : Machine) (newFd : Int) (result : EStateM.Result Stop Machine Int) :
    Prop :=
  (∃ stop m', result = .error stop m' ∧ IndexFault stop) ∨
    ∃ v m', result = .ok v m' ∧ v ≠ newFd ∧ (0 ≤ v ∨ m'.fds ≠ m.fds)

section Refused

variable {oldFd newFd : Int} {m : Machine} {ro rn : Fin maxFds}

/-- The refused pairs once both descriptors are known to number slots. -/
theorem dup2Refused_iff_of_slots (hro : ro.val ≤ 12) (hold : oldFd = toVirtualFd ro)
    (hnew : newFd = toVirtualFd rn) :
    Dup2Refused m oldFd newFd ↔
      (12 < rn.val ∧ m.fds rn ≠ none) ∨ (m.fds rn = none ∧ m.fds ro = none) := by
  have hlow := (toVirtualFd_slot_range ro).1
  have hhigh := toVirtualFd_le_iff.mpr hro
  have hrange := toVirtualFd_slot_range rn
  have htop : 17 ≤ toVirtualFd rn ↔ 12 < rn.val := by
    rw [← not_le, ← toVirtualFd_le_iff]
    omega
  rw [Dup2Refused, hold, hnew, Machine.openHandle_toVirtualFd,
    Machine.openHandle_toVirtualFd, htop, ← Option.ne_none_iff_exists']
  constructor
  · rintro (hbad | hbad | htop | ⟨_, _, hnone⟩)
    · omega
    · omega
    · exact Or.inl htop
    · exact Or.inr hnone
  · rintro (htop | hnone)
    · exact Or.inr (Or.inr (Or.inl htop))
    · exact Or.inr (Or.inr (Or.inr ⟨hrange.1, by omega, hnone⟩))

variable {p} in
/-- A refused pair whose slot is freed has both slots empty from the start. -/
theorem Dup2Frees.of_refused {m₁ : Machine} (hfrees : Dup2Frees p m rn m₁)
    (hrefused : (12 < rn.val ∧ m.fds rn ≠ none) ∨ (m.fds rn = none ∧ m.fds ro = none)) :
    m₁ = m ∧ m.fds ro = none := by
  rcases hrefused with ⟨htop, hsome⟩ | ⟨hfree, hnone⟩
  · obtain ⟨replaced, hheld⟩ := Option.ne_none_iff_exists'.mp hsome
    have hpass := (hfrees.close_goes hheld).1
    omega
  · cases hfrees with
    | free => exact ⟨rfl, hnone⟩
    | closed _ hheld =>
        rw [hheld] at hfree
        cases hfree
    | kept _ hheld =>
        rw [hheld] at hfree
        cases hfree

end Refused

theorem fdDup2_run_of_dup2Refused {m : Machine} {oldFd newFd : Int}
    (hrefused : Dup2Refused m oldFd newFd) :
    ∃ e : Errno, (fdDup2 p oldFd newFd).run m = .ok e.neg m := by
  generalize hresult : (fdDup2 p oldFd newFd).run m = result
  cases fdDup2_course p hresult with
  | refused hold e => exact ⟨e, rfl⟩
  | outside hlow hhigh hnew =>
      rcases hrefused with hbad | hbad | ⟨htop, handle, hopen⟩ | ⟨hnew4, hnew19, _⟩
      · omega
      · omega
      · have hrange := Machine.openHandle_range hopen
        omega
      · omega
  | top hro hold hnew htop hslot => exact ⟨.ebadf, rfl⟩
  | fails hro hold hnew hpass hslot hcloses hfails =>
      rw [dup2Refused_iff_of_slots hro hold hnew] at hrefused
      rcases hrefused with ⟨htop, _⟩ | ⟨hnone, _⟩
      · omega
      · rw [hslot] at hnone
        cases hnone
  | lost hro hold hnew hfrees hnone =>
      rw [dup2Refused_iff_of_slots hro hold hnew] at hrefused
      exact ⟨.ebadf, by rw [(hfrees.of_refused hrefused).1]⟩
  | stores hro hold hnew hfrees hslot hs =>
      rw [dup2Refused_iff_of_slots hro hold hnew] at hrefused
      obtain ⟨rfl, hnone⟩ := hfrees.of_refused hrefused
      rw [hslot] at hnone
      cases hnone
  | misses hro hold hnew hfrees hslot hbig =>
      rw [dup2Refused_iff_of_slots hro hold hnew] at hrefused
      obtain ⟨rfl, hnone⟩ := hfrees.of_refused hrefused
      rw [hslot] at hnone
      cases hnone

/-- Every other pair strays: a store goes to the wrong slot or misses the table, or the
slot of `new_fd` is emptied before the pair is refused. -/
theorem fdDup2_strays {m : Machine} {oldFd newFd : Int}
    (hgoes : ¬ Dup2Refused m oldFd newFd) :
    Strays m newFd ((fdDup2 p oldFd newFd).run m) := by
  have hnewPos : ∀ {rn : Fin maxFds}, newFd = toVirtualFd rn → 4 ≤ newFd := by
    intro rn hnew
    rw [hnew]
    exact (toVirtualFd_slot_range rn).1
  generalize hresult : (fdDup2 p oldFd newFd).run m = result
  cases fdDup2_course p hresult with
  | refused hold e =>
      rcases hold with hlow | hhigh
      · exact absurd (Or.inl hlow) hgoes
      · exact absurd (Or.inr (Or.inl hhigh)) hgoes
  | outside hlow hhigh hnew => exact Or.inl ⟨_, _, rfl, _, rfl⟩
  | top hro hold hnew htop hslot =>
      rw [dup2Refused_iff_of_slots hro hold hnew] at hgoes
      exact absurd (Or.inl ⟨htop, by simp [hslot]⟩) hgoes
  | @fails ro rn replaced hro hold hnew hpass hslot hcloses hfails =>
      have hneg := (closeResult_neg_iff p).mpr hfails
      have hpos := hnewPos hnew
      have hchanged : (m.clear rn).fds ≠ m.fds := by
        intro hsame
        have hcleared := congrFun hsame rn
        simp [hslot] at hcleared
      exact Or.inr ⟨_, _, rfl, by omega, Or.inr hchanged⟩
  | @lost ro rn m₁ hro hold hnew hfrees hnone =>
      have hpos := hnewPos hnew
      refine Or.inr ⟨_, _, rfl, ?_, Or.inr ?_⟩
      · simp only [Errno.neg, Errno.code]
        omega
      · intro hsame
        rw [dup2Refused_iff_of_slots hro hold hnew] at hgoes
        have hcleared : m.fds rn = none := by
          rw [← hsame, hfrees.fds, Machine.clear_fds, Function.update_self]
        rw [hsame] at hnone
        exact hgoes (Or.inr ⟨hcleared, hnone⟩)
  | stores hro hold hnew hfrees hslot hs =>
      have hpos := hnewPos hnew
      have hvalue : toVirtualFd newFd = newFd + 4 := rfl
      exact Or.inr ⟨_, _, rfl, by omega, Or.inl (by omega)⟩
  | misses hro hold hnew hfrees hslot hbig => exact Or.inl ⟨_, _, rfl, newFd, rfl⟩

/-- An outcome that strays breaks the redirection law. -/
theorem not_redirectsExactly_of_strays {m : Machine} {oldFd newFd : Int}
    (hstrays : Strays m newFd ((fdDup2 p oldFd newFd).run m)) :
    ¬ RedirectsExactly p m oldFd newFd := by
  rintro ⟨hgood, hbad, hinside⟩
  rcases hstrays with ⟨stop, m', hrun, hfault⟩ | ⟨v, m', hrun, hne, hstray⟩
  · exact hinside stop m' hrun hfault
  · by_cases hcan : ∃ ro rn handle, Redirectable p m oldFd newFd ro rn handle
    · obtain ⟨ro, rn, handle, hcan⟩ := hcan
      obtain ⟨m'', hrun', _⟩ := hgood ro rn handle hcan
      rw [hrun, EStateM.Result.ok.injEq] at hrun'
      exact hne hrun'.1
    · obtain ⟨e, m'', hrun', hsame⟩ := hbad hcan
      rw [hrun, EStateM.Result.ok.injEq] at hrun'
      rcases hstray with hpos | hchanged
      · have hneg := e.neg_range
        rw [← hrun'.1] at hneg
        omega
      · exact hchanged (hrun'.2 ▸ hsame)

/-- `fd_dup2` obeys the redirection law on exactly the pairs that it refuses at once
and that are not to be redirected. -/
theorem redirectsExactly_iff_refused (m : Machine) (oldFd newFd : Int) :
    RedirectsExactly p m oldFd newFd ↔
      Dup2Refused m oldFd newFd ∧
        ¬ ∃ ro rn handle, Redirectable p m oldFd newFd ro rn handle := by
  constructor
  · intro hexact
    have hrefused : Dup2Refused m oldFd newFd := by
      by_contra hgoes
      exact not_redirectsExactly_of_strays p (fdDup2_strays p hgoes) hexact
    refine ⟨hrefused, ?_⟩
    rintro ⟨ro, rn, handle, hcan⟩
    obtain ⟨e, hrun⟩ := fdDup2_run_of_dup2Refused p hrefused
    obtain ⟨m', hrun', _⟩ := hexact.1 ro rn handle hcan
    rw [hrun, EStateM.Result.ok.injEq] at hrun'
    have hneg := e.neg_range
    have hrange := toVirtualFd_slot_range rn
    rw [hrun'.1, hcan.new] at hneg
    omega
  · rintro ⟨hrefused, hcannot⟩
    obtain ⟨e, hrun⟩ := fdDup2_run_of_dup2Refused p hrefused
    refine ⟨?_, ?_, ?_⟩
    · intro ro rn handle hcan
      exact absurd ⟨ro, rn, handle, hcan⟩ hcannot
    · intro _
      exact ⟨e, m, hrun, rfl⟩
    · intro stop m' herror
      rw [hrun] at herror
      cases herror

/-- A run that indexes the table outside its bounds. -/
def IndexesOutside {α : Type} (result : EStateM.Result Stop Machine α) : Prop :=
  ∃ stop m', result = .error stop m' ∧ IndexFault stop

theorem not_indexesOutside_ok {α : Type} (a : α) (m : Machine) :
    ¬ IndexesOutside (.ok a m) := by
  rintro ⟨stop, m', hrun, _⟩
  cases hrun

/-- `fd_dup2` closes what is at `new_fd` and the firmware refuses. -/
def Dup2CloseFails (m : Machine) (newFd : Int) : Prop :=
  ∃ (rn : Fin maxFds) (replaced : FileHandle), newFd = toVirtualFd rn ∧
    m.fds rn = some replaced ∧ closesHandle m.fds rn replaced ∧
      ¬ CloseSucceeds p m replaced

/-- The pairs for which `fd_dup2` keeps to the bounds of the table: `old_fd` fails its
check, or `new_fd` numbers a slot and is below 16 or never stored to. -/
def Dup2InBounds (m : Machine) (oldFd newFd : Int) : Prop :=
  oldFd < 4 ∨ 16 < oldFd ∨ (4 ≤ newFd ∧ newFd ≤ 19 ∧
    (newFd < 16 ∨ m.openHandle oldFd = none ∨ oldFd = newFd ∨
      (17 ≤ newFd ∧ m.openHandle newFd ≠ none) ∨ Dup2CloseFails p m newFd))

section Bounds

variable {oldFd newFd : Int} {m : Machine} {ro rn : Fin maxFds}

/-- The bounds condition once both descriptors are known to number slots. -/
theorem dup2InBounds_iff_of_slots (hro : ro.val ≤ 12) (hold : oldFd = toVirtualFd ro)
    (hnew : newFd = toVirtualFd rn) :
    Dup2InBounds p m oldFd newFd ↔
      (newFd < 16 ∨ m.fds ro = none ∨ ro = rn ∨ (17 ≤ newFd ∧ m.fds rn ≠ none) ∨
        ∃ replaced, m.fds rn = some replaced ∧ closesHandle m.fds rn replaced ∧
          ¬ CloseSucceeds p m replaced) := by
  have hlow := (toVirtualFd_slot_range ro).1
  have hhigh := toVirtualFd_le_iff.mpr hro
  have hrange := toVirtualFd_slot_range rn
  have hopenOld : m.openHandle oldFd = m.fds ro := by
    rw [hold, Machine.openHandle_toVirtualFd]
  have hopenNew : m.openHandle newFd = m.fds rn := by
    rw [hnew, Machine.openHandle_toVirtualFd]
  have hsame : oldFd = newFd ↔ ro = rn := by
    rw [hold, hnew]
    constructor
    · exact toVirtualFd_injective
    · intro heq
      rw [heq]
  have hfails : Dup2CloseFails p m newFd ↔
      ∃ replaced, m.fds rn = some replaced ∧ closesHandle m.fds rn replaced ∧
        ¬ CloseSucceeds p m replaced := by
    constructor
    · rintro ⟨s, replaced, hs, hrest⟩
      have hslots : rn = s := toVirtualFd_injective (hnew.symm.trans hs)
      subst hslots
      exact ⟨replaced, hrest⟩
    · rintro ⟨replaced, hrest⟩
      exact ⟨rn, replaced, hnew, hrest⟩
  rw [Dup2InBounds, hopenOld, hopenNew, hsame, hfails]
  constructor
  · rintro (hbad | hbad | ⟨_, _, hrest⟩)
    · omega
    · omega
    · exact hrest
  · intro hrest
    exact Or.inr (Or.inr ⟨by omega, by omega, hrest⟩)

end Bounds

/-- `fd_dup2` indexes the table outside its bounds on exactly the other pairs. -/
theorem fdDup2_indexesOutside_iff (m : Machine) (oldFd newFd : Int) :
    IndexesOutside ((fdDup2 p oldFd newFd).run m) ↔ ¬ Dup2InBounds p m oldFd newFd := by
  generalize hresult : (fdDup2 p oldFd newFd).run m = result
  cases fdDup2_course p hresult with
  | refused hold e =>
      refine iff_of_false (not_indexesOutside_ok _ _) (not_not.mpr ?_)
      rcases hold with hlow | hhigh
      · exact Or.inl hlow
      · exact Or.inr (Or.inl hhigh)
  | outside hlow hhigh hnew =>
      refine iff_of_true ⟨_, _, rfl, _, rfl⟩ ?_
      rintro (hbad | hbad | ⟨hnew4, hnew19, _⟩) <;> omega
  | top hro hold hnew htop hslot =>
      refine iff_of_false (not_indexesOutside_ok _ _) (not_not.mpr ?_)
      rw [dup2InBounds_iff_of_slots p hro hold hnew]
      have hbig : 17 ≤ newFd := by
        have hhigh := mt toVirtualFd_le_iff.mp (not_le.mpr htop)
        omega
      exact Or.inr (Or.inr (Or.inr (Or.inl ⟨hbig, by simp [hslot]⟩)))
  | fails hro hold hnew hpass hslot hcloses hfails =>
      refine iff_of_false (not_indexesOutside_ok _ _) (not_not.mpr ?_)
      rw [dup2InBounds_iff_of_slots p hro hold hnew]
      exact Or.inr (Or.inr (Or.inr (Or.inr ⟨_, hslot, hcloses, hfails⟩)))
  | @lost ro rn m₁ hro hold hnew hfrees hnone =>
      refine iff_of_false (not_indexesOutside_ok _ _) (not_not.mpr ?_)
      rw [dup2InBounds_iff_of_slots p hro hold hnew]
      rw [hfrees.fds, Machine.clear_fds] at hnone
      by_cases hsame : ro = rn
      · exact Or.inr (Or.inr (Or.inl hsame))
      · rw [Function.update_of_ne hsame] at hnone
        exact Or.inr (Or.inl hnone)
  | @stores ro rn s m₁ handle hro hold hnew hfrees hslot hs =>
      refine iff_of_false (not_indexesOutside_ok _ _) (not_not.mpr ?_)
      rw [dup2InBounds_iff_of_slots p hro hold hnew]
      have hsmall : s.val < 16 := s.isLt
      exact Or.inl (by omega)
  | @misses ro rn m₁ handle hro hold hnew hfrees hslot hbig =>
      refine iff_of_true ⟨_, _, rfl, _, rfl⟩ ?_
      rw [dup2InBounds_iff_of_slots p hro hold hnew]
      obtain ⟨hdistinct, hopen⟩ := hfrees.old_open hslot
      rintro (hsmall | hnone | hsame | ⟨hseventeen, hsome⟩ | ⟨replaced, hheld, hcloses, hfails⟩)
      · omega
      · rw [hopen] at hnone
        cases hnone
      · exact hdistinct hsame
      · obtain ⟨replaced, hheld⟩ := Option.ne_none_iff_exists'.mp hsome
        have hhigh := toVirtualFd_le_iff.mpr (hfrees.close_goes hheld).1
        omega
      · exact hfails ((hfrees.close_goes hheld).2 hcloses)

/-- One file open as descriptor 4, redirected onto descriptor 5, comes back as 9. -/
theorem dup2_returns_nine_for_five :
    ¬ ∀ (p : Platform) (m : Machine) (oldFd newFd : Int32),
      RedirectsExactly p m oldFd.toInt newFd.toInt := by
  intro hall
  have hexact := hall workingFirmware oneOpen 4 5
  refine not_redirectsExactly_of_strays _ (fdDup2_strays _ ?_) hexact
  rintro (hlow | hhigh | ⟨htop, _⟩ | ⟨_, _, _, hclosed⟩)
  · exact absurd hlow (by decide)
  · exact absurd hhigh (by decide)
  · exact absurd htop (by decide)
  · cases hclosed

end UefiLinux
