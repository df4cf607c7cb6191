/-
The open files of the firmware over whole runs: every call takes custody of the
table over the live handles into custody again, as long as no close passes to the
firmware a handle that the first slot still holds.
-/
import UefiLinux.Library.Custody
import UefiLinux.Library.Runs
import UefiLinux.Requests

namespace UefiLinux

open Progress Journal

/-- A move that uses live handles only, whatever custody the table was in, and
leaves the table in custody of the handles live then. -/
def Custodial (m m' : Machine) : Prop :=
  ∃ new, m'.trace = m.trace ++ new ∧
    ∀ c : Custody maxFds FileHandle, c.table = m.fds →
      handles.Disciplined c.live new ∧
        ∃ c' : Custody maxFds FileHandle, c'.table = m'.fds ∧
          c'.live = handles.live c.live new

theorem Custodial.refl (m : Machine) : Custodial m m :=
  ⟨[], by simp, fun c htable => ⟨trivial, c, htable, rfl⟩⟩

theorem Custodial.trans {m m' m'' : Machine} (hfirst : Custodial m m')
    (hsecond : Custodial m' m'') : Custodial m m'' := by
  obtain ⟨new, htrace, hcustody⟩ := hfirst
  obtain ⟨new', htrace', hcustody'⟩ := hsecond
  refine ⟨new ++ new', by rw [htrace', htrace, List.append_assoc], ?_⟩
  intro c htable
  obtain ⟨hdisciplined, c', htable', hlive'⟩ := hcustody c htable
  obtain ⟨hdisciplined', c'', htable'', hlive''⟩ := hcustody' c' htable'
  refine ⟨?_, c'', htable'', ?_⟩
  · rw [Ledger.disciplined_append, ← hlive']
    exact ⟨hdisciplined, hdisciplined'⟩
  · rw [hlive'', hlive', Ledger.live_append]

instance : IsPreorder Machine Custodial where
  refl := Custodial.refl
  trans _ _ _ := Custodial.trans

/-- Calls on a handle that the table holds keep every custody. -/
theorem custodial_of_quiet {owner : Option FileHandle} {m m' : Machine}
    (hquiet : Quiet calls (Event.Attends owner) m m')
    (howner : ∀ handle, owner = some handle → handle ∈ m.fds.held) :
    Custodial m m' := by
  obtain ⟨hfds, new, htrace, hnew⟩ := hquiet
  refine ⟨new, htrace, ?_⟩
  intro c htable
  refine ⟨?_, c, htable.trans hfds.symm, ?_⟩
  · apply Ledger.disciplined_of_neutral
    intro e he
    obtain ⟨hneutral, hused⟩ := hnew e he
    refine ⟨hneutral, fun handle huse => c.backed ?_⟩
    rw [htable]
    exact howner handle (hused handle huse)
  · rw [Ledger.live_of_neutral]
    exact fun e he => (hnew e he).1

/-- A call of `Volume->Open` followed by calls on what it opened. -/
theorem custodial_of_open {m m₁ m' : Machine} {e : Event} (hfds : m₁.fds = m.fds)
    (htrace : m₁.trace = m.trace ++ [e]) (hclosed : e.closed = none)
    (hused : e.call.handle? = none)
    (hquiet : Quiet calls (Event.Attends e.opened) m₁ m') : Custodial m m' := by
  obtain ⟨hfds', new, htrace', hnew⟩ := hquiet
  have hneutral : ∀ e' ∈ new, handles.Neutral e' := fun e' he' => (hnew e' he').1
  have hlive : ∀ live, handles.live live (e :: new) = handles.step live e :=
    fun live => Ledger.live_of_neutral handles hneutral
  refine ⟨e :: new, ?_, ?_⟩
  · change m'.trace = m₁.trace ++ new at htrace'
    rw [htrace', htrace, List.append_assoc]
    rfl
  · intro c htable
    have htable' : c.table = m'.fds := htable.trans (hfds'.trans hfds).symm
    refine ⟨⟨?_, ?_⟩, ?_⟩
    · intro handle huse
      change e.call.handle? = some handle at huse
      rw [hused] at huse
      cases huse
    · apply Ledger.disciplined_of_neutral
      intro e' he'
      refine ⟨hneutral e' he', fun handle huse => ?_⟩
      have hopened : e.opened = some handle := (hnew e' he').2 handle huse
      exact ⟨Or.inr hopened, by change e.closed ≠ some handle; simp [hclosed]⟩
    · rw [hlive]
      cases hopened : e.opened with
      | none =>
          refine ⟨c, htable', ?_⟩
          rw [Ledger.step_of_neutral handles ⟨hopened, hclosed⟩]
      | some handle =>
          refine ⟨c.adopt handle, htable', ?_⟩
          rw [Ledger.step_of_acquired handles hopened hclosed]
          rfl

variable (p : Platform)

theorem fdOpen_custodial (m : Machine) (pathname : UInt64) (flags : UInt32) :
    Custodial m (finalState ((fdOpen p pathname flags).run m)) := by
  have hopened : ∀ {m'}, Quiet calls
      (Event.Attends (openAnswer p m pathname flags).opened)
      (openMachine p m pathname flags) m' → Custodial m m' :=
    custodial_of_open rfl (openMachine_trace p m pathname flags) rfl rfl
  rw [fdOpen_run]
  split
  · exact Custodial.refl m
  · split
    · exact hopened (refl_of _ _)
    · rename_i hok
      rw [openAnswer_opened, if_neg hok] at hopened
      have hinfo := (fdEfiGetFileInfo_attending p
        (openAnswer p m pathname flags).reply.handle).along
        (openMachine p m pathname flags)
      rw [fdEfiGetFileInfo, uefiCallWrapper_finalState] at hinfo
      split
      · exact hopened hinfo
      · have heffects := (openEffects_attending p
          (openAnswer p m pathname flags).reply.handle flags
          (infoAnswer p m pathname flags).reply.info).along
          (infoMachine p m pathname flags)
        rw [openEffects_run] at heffects
        exact hopened (trans_of _ hinfo heffects)

theorem fdStat_custodial (m : Machine) (path buf : UInt64) :
    Custodial m (finalState ((fdStat p path buf).run m)) := by
  have hopened : ∀ {m'}, Quiet calls (Event.Attends (statAnswer p m path).opened)
      (statMachine p m path) m' → Custodial m m' :=
    custodial_of_open rfl rfl rfl rfl
  rw [fdStat_run]
  split
  · exact hopened (refl_of _ _)
  · rename_i hok
    rw [statAnswer_opened, if_neg hok] at hopened
    exact hopened ((fdEfiStat_attending p buf _).along _)

/-- A handler whose own code attends to the handle it takes. -/
theorem withFd_custodial {taken : FileHandle → M Int}
    (htaken : ∀ handle, Attending (some handle) (taken handle)) (fd : Int)
    (m : Machine) : Custodial m (finalState ((withFd fd taken).run m)) := by
  refine withFd_finalState (Custodial.refl m) fun r handle _ hslot => ?_
  apply custodial_of_quiet ((htaken handle).along m)
  intro k hk
  rw [Option.some.injEq] at hk
  exact hk ▸ Slots.held_of_eq_some hslot

section Release

variable {m : Machine} {r : Fin maxFds} {handle : FileHandle}

/-- Emptying one of several slots of a handle. -/
theorem custodial_clear_of_shared (hshared : m.fds.HeldElsewhere r handle) :
    Custodial m (m.clear r) := by
  refine ⟨[], by simp, ?_⟩
  intro c htable
  refine ⟨trivial, c.release r handle, ?_, ?_⟩
  · rw [Custody.release_table, htable]
    rfl
  · exact Custody.release_live_of_shared (htable ▸ hshared)

/-- Emptying the last slot of a handle and passing it to `Close`. -/
theorem custodial_close_of_last (hslot : m.fds r = some handle)
    (hlast : ¬ m.fds.HeldElsewhere r handle) :
    Custodial m (p.after (m.clear r) (.close handle)) := by
  refine ⟨[p.answer (m.clear r) (.close handle)], rfl, ?_⟩
  intro c htable
  have hlive : handle ∈ c.live :=
    c.backed (htable ▸ Slots.held_of_eq_some hslot)
  refine ⟨⟨?_, trivial⟩, c.release r handle, ?_, ?_⟩
  · intro k huse
    have hk : handle = k := by simpa [handles, Call.handle?] using huse
    exact hk ▸ hlive
  · rw [Custody.release_table, htable]
    rfl
  · rw [Custody.release_live_of_last (htable ▸ hlast), Ledger.live_cons, Ledger.live_nil]
    exact (Ledger.step_of_released handles rfl rfl).symm

/-- Storing a handle that some slot holds already. -/
theorem custodial_put (hheld : handle ∈ m.fds.held) : Custodial m (m.put r handle) := by
  refine ⟨[], by simp, ?_⟩
  intro c htable
  refine ⟨trivial, c.store r handle (c.backed (htable ▸ hheld)), ?_, rfl⟩
  rw [Custody.store_table, htable]
  rfl

/-- Clearing a slot and closing its handle if no other slot is found to hold it. -/
theorem custodial_clear (hslot : m.fds r = some handle)
    (hmature : ¬ PrematureClose m.fds r) :
    Custodial m (if closesHandle m.fds r handle then
      p.after (m.clear r) (.close handle) else m.clear r) := by
  have hcloses := closesHandle_iff_of_not_premature hslot hmature
  by_cases hshared : m.fds.HeldElsewhere r handle
  · rw [if_neg (by simpa [hcloses] using hshared)]
    exact custodial_clear_of_shared hshared
  · rw [if_pos (hcloses.mpr hshared)]
    exact custodial_close_of_last p hslot hshared

end Release

section Table

variable {m : Machine}

/-- `fd_close` of this descriptor, if it closes anything, does not close a handle that
the first slot still holds. -/
def MatureClose (m : Machine) (fd : Int) : Prop :=
  ∀ r : Fin maxFds, fd = toVirtualFd r → r.val ≤ 12 → ¬ PrematureClose m.fds r

theorem fdClose_custodial {fd : Int} (hmature : MatureClose m fd) :
    Custodial m (finalState ((fdClose p fd).run m)) := by
  by_cases hrefused : 16 < fd ∨ m.openHandle fd = none
  · obtain ⟨e, _, hrun⟩ := withFd_run_of_refused hrefused (fdCloseTaken p fd)
    rw [fdClose, hrun]
    exact Custodial.refl m
  · obtain ⟨r, handle, rfl, hpass, hslot⟩ := Machine.slot_of_passes hrefused
    have hclear := custodial_clear p hslot (hmature r rfl hpass)
    rw [fdClose_run p hpass hslot]
    split at hclear
    · rename_i hcloses
      rw [if_pos hcloses]
      exact hclear
    · rename_i hcloses
      rw [if_neg hcloses]
      exact hclear

theorem fdDup_custodial (m : Machine) (oldFd : Int) :
    Custodial m (finalState ((fdDup oldFd).run m)) := by
  refine withFd_finalState (Custodial.refl m) fun ro handle _ hslot => ?_
  have hoccupied : ∃ r, m.fds r ≠ none := ⟨ro, by simp [hslot]⟩
  obtain ⟨r, _, hrun⟩ := fdDupTaken_run hoccupied handle
  rw [hrun]
  exact custodial_put (Slots.held_of_eq_some hslot)

/-- Freeing the slot of `new_fd` keeps custody. -/
theorem Dup2Frees.custodial {rn : Fin maxFds} {m₁ : Machine}
    (hfrees : Dup2Frees p m rn m₁) (hmature : rn.val ≤ 12 → ¬ PrematureClose m.fds rn) :
    Custodial m m₁ := by
  cases hfrees with
  | free hslot => exact Custodial.refl m
  | closed hpass hslot hcloses hok =>
      have hclear := custodial_clear p hslot (hmature hpass)
      rw [if_pos hcloses] at hclear
      exact hclear
  | kept hpass hslot hcloses =>
      have hclear := custodial_clear p hslot (hmature hpass)
      rw [if_neg hcloses] at hclear
      exact hclear

theorem fdDup2_custodial {oldFd newFd : Int}
    (hmature : 4 ≤ oldFd → oldFd ≤ 16 → MatureClose m newFd) :
    Custodial m (finalState ((fdDup2 p oldFd newFd).run m)) := by
  have hfreed : ∀ {ro rn : Fin maxFds} {m₁ : Machine}, ro.val ≤ 12 →
      oldFd = toVirtualFd ro → newFd = toVirtualFd rn → Dup2Frees p m rn m₁ →
        Custodial m m₁ := by
    intro ro rn m₁ hro hold hnew hfrees
    have hlow : 4 ≤ oldFd := hold ▸ (toVirtualFd_slot_range ro).1
    have hhigh : oldFd ≤ 16 := hold ▸ toVirtualFd_le_iff.mpr hro
    exact hfrees.custodial p fun hpass => hmature hlow hhigh rn hnew hpass
  generalize hresult : (fdDup2 p oldFd newFd).run m = result
  cases fdDup2_course p hresult with
  | refused hold e => exact Custodial.refl m
  | outside hlow hhigh hnew => exact Custodial.refl m
  | top hro hold hnew htop hslot => exact Custodial.refl m
  | @fails ro rn replaced hro hold hnew hpass hslot hcloses hfails =>
      have hlow : 4 ≤ oldFd := hold ▸ (toVirtualFd_slot_range ro).1
      have hhigh : oldFd ≤ 16 := hold ▸ toVirtualFd_le_iff.mpr hro
      have hclear := custodial_clear p hslot (hmature hlow hhigh rn hnew hpass)
      rw [if_pos hcloses] at hclear
      exact hclear
  | lost hro hold hnew hfrees hnone => exact hfreed hro hold hnew hfrees
  | stores hro hold hnew hfrees hslot hs =>
      exact (hfreed hro hold hnew hfrees).trans
        (custodial_put (Slots.held_of_eq_some hslot))
  | misses hro hold hnew hfrees hslot hbig => exact hfreed hro hold hnew hfrees

end Table

section Requests

variable {m : Machine}

/-- The request closes no handle that the first slot still holds. -/
def Request.Mature (m : Machine) : Request → Prop
  | .fdClose fd => MatureClose m fd
  | .fdDup2 oldFd newFd => 4 ≤ oldFd → oldFd ≤ 16 → MatureClose m newFd
  | _ => True

theorem FdOp.exec_custodial {op : FdOp} {fd : Int} (hconsole : op.console fd = false)
    (fuel : Nat) (hmature : (op.request fd).Mature m) :
    Custodial m (finalState (((op.request fd).exec p fuel).run m)) := by
  rw [FdOp.exec_request_of_not_console p hconsole, asWord_finalState]
  cases op with
  | close => exact fdClose_custodial p hmature
  | fsync => exact withFd_custodial (fdFsyncTaken_attending p) fd m
  | dup => exact fdDup_custodial m fd
  | lseek offset whence =>
      exact withFd_custodial (fdLseekTaken_attending p offset whence) fd m
  | read buf count => exact withFd_custodial (fdReadTaken_attending p buf count) fd m
  | write buf count => exact withFd_custodial (fdWriteTaken_attending p buf count) fd m
  | getdents64 dirp count =>
      exact withFd_custodial (fdGetdents64Taken_attending p dirp count) fd m
  | fstat buf => exact withFd_custodial (fdEfiStat_attending p buf) fd m

/-- Every mature request keeps custody. -/
theorem Request.exec_custodial {r : Request} (fuel : Nat) (hmature : r.Mature m) :
    Custodial m (finalState ((r.exec p fuel).run m)) := by
  cases r.touches p fuel with
  | nothing hattends =>
      apply custodial_of_quiet (hattends.along m)
      intro handle hnone
      cases hnone
  | descriptor op fd hconsole => exact FdOp.exec_custodial p hconsole fuel hmature
  | opens pathname flags =>
      rw [Request.exec, asWord_finalState]
      exact fdOpen_custodial p m pathname flags
  | stats path buf =>
      rw [Request.exec, asWord_finalState]
      exact fdStat_custodial p m path buf
  | redirects oldFd newFd =>
      rw [Request.exec, asWord_finalState]
      exact fdDup2_custodial p hmature

/-- The request keeps to the bounds of the table. -/
def Request.InBounds (m : Machine) : Request → Prop
  | .fdDup2 oldFd newFd => Dup2InBounds p m oldFd newFd
  | _ => True

theorem indexesOutside_asWord_iff {x : M Int} :
    IndexesOutside ((asWord x).run m) ↔ IndexesOutside (x.run m) := by
  simp only [IndexesOutside, asWord_eq_error]

theorem not_indexesOutside_of_avoids {α : Type} {x : M α} (hx : Avoids IndexFault x) :
    ¬ IndexesOutside (x.run m) := by
  rintro ⟨stop, m', hrun, hfault⟩
  exact hx m stop m' hrun hfault

theorem fdOpen_avoids (pathname : UInt64) (flags : UInt32) :
    Avoids IndexFault (fdOpen p pathname flags) := by
  intro m stop m' hrun
  rw [fdOpen_run] at hrun
  split at hrun
  · cases hrun
  · split at hrun
    · cases hrun
    · split at hrun
      · cases hrun
      · cases hrun

theorem fdStat_avoids (path buf : UInt64) : Avoids IndexFault (fdStat p path buf) := by
  intro m stop m' hrun
  rw [fdStat_run] at hrun
  split at hrun
  · cases hrun
  · exact (fdEfiStat_attending p buf _).avoids _ stop m' hrun

/-- Only redirections can index the table outside its bounds. -/
theorem Request.indexesOutside_iff (fuel : Nat) (r : Request) :
    IndexesOutside ((r.exec p fuel).run m) ↔ ¬ r.InBounds p m := by
  cases r.touches p fuel with
  | nothing hattends =>
      have havoids : ¬ IndexesOutside ((r.exec p fuel).run m) :=
        not_indexesOutside_of_avoids hattends.avoids
      cases r with
      | fdDup2 oldFd newFd =>
          rw [Request.exec, indexesOutside_asWord_iff]
          exact fdDup2_indexesOutside_iff p m oldFd newFd
      | _ => simp only [Request.InBounds, not_true_eq_false, havoids]
  | descriptor op fd hconsole =>
      have hin : (op.request fd).InBounds p m := by cases op <;> trivial
      have havoids : ¬ IndexesOutside ((withFd fd (op.taken p fd)).run m) :=
        not_indexesOutside_of_avoids (op.withFd_no_indexFault p fd)
      rw [FdOp.exec_request_of_not_console p hconsole, indexesOutside_asWord_iff]
      simp only [hin, not_true_eq_false, havoids]
  | opens pathname flags =>
      have havoids : ¬ IndexesOutside ((UefiLinux.fdOpen p pathname flags).run m) :=
        not_indexesOutside_of_avoids (fdOpen_avoids p pathname flags)
      rw [Request.exec, indexesOutside_asWord_iff]
      simp only [Request.InBounds, not_true_eq_false, havoids]
  | stats path buf =>
      have havoids : ¬ IndexesOutside ((UefiLinux.fdStat p path buf).run m) :=
        not_indexesOutside_of_avoids (fdStat_avoids p path buf)
      rw [Request.exec, indexesOutside_asWord_iff]
      simp only [Request.InBounds, not_true_eq_false, havoids]
  | redirects oldFd newFd =>
      rw [Request.exec, indexesOutside_asWord_iff]
      exact fdDup2_indexesOutside_iff p m oldFd newFd

end Requests

section Runs

/-- The call closes no handle that the first slot still holds, and keeps to the bounds
of the table. -/
def SysCall.Mature (m : Machine) (c : SysCall) : Prop :=
  ∀ r, dispatch c.no c.args = .ok r → r.Mature m ∧ r.InBounds p m

/-- A returning call that meets the condition. -/
def MatureStep (c : SysCall) (m m' : Machine) : Prop :=
  c.Mature p m ∧ c.Returns p m m'

theorem SysCall.ends_cases {c : SysCall} {m : Machine}
    {result : EStateM.Result Stop Machine UInt64} (hends : c.Ends p m result) :
    (∃ r fuel, dispatch c.no c.args = .ok r ∧ result = (r.exec p fuel).run m) ∨
      ∃ why, dispatch c.no c.args = .error why ∧
        result = .error (.fault why) m := by
  obtain ⟨fuel, hrun⟩ := hends
  rw [syscallEmuX86_64] at hrun
  cases hdispatch : dispatch c.no c.args with
  | ok r =>
      rw [hdispatch] at hrun
      exact Or.inl ⟨r, fuel, rfl, hrun.symm⟩
  | error why =>
      rw [hdispatch] at hrun
      exact Or.inr ⟨why, rfl, hrun.symm⟩

/-- A call that is not dispatched does not touch the table. -/
theorem not_indexesOutside_of_dispatch {c : SysCall} {why : Fault}
    (herror : dispatch c.no c.args = .error why) (m : Machine) :
    ¬ IndexesOutside (.error (.fault why) m : EStateM.Result Stop Machine UInt64) := by
  rintro ⟨stop, m', hstop, index, hindex⟩
  obtain ⟨index', rfl⟩ := dispatch_faultsOnArgs _ _ why herror
  rw [EStateM.Result.error.injEq] at hstop
  rw [← hstop.1] at hindex
  cases hindex

/-- A mature call keeps custody and the bounds of the table, however it ends. -/
theorem SysCall.ends_custodial {c : SysCall} {m : Machine}
    {result : EStateM.Result Stop Machine UInt64} (hmature : c.Mature p m)
    (hends : c.Ends p m result) :
    Custodial m (finalState result) ∧ ¬ IndexesOutside result := by
  rcases c.ends_cases p hends with ⟨r, fuel, hdispatch, rfl⟩ | ⟨why, herror, rfl⟩
  · obtain ⟨hclose, hbounds⟩ := hmature r hdispatch
    refine ⟨r.exec_custodial p fuel hclose, ?_⟩
    rw [Request.indexesOutside_iff]
    exact not_not_intro hbounds
  · exact ⟨Custodial.refl m, not_indexesOutside_of_dispatch herror m⟩

/-- A run of mature calls keeps custody. -/
theorem custodial_of_run {m m' : Machine} {labels : List SysCall}
    (hrun : Run (MatureStep p) m labels m') : Custodial m m' := by
  apply hrun.along
  rintro c s s' ⟨hmature, r, hends⟩
  exact (c.ends_custodial p hmature hends).1

end Runs

/-- A close releases its handle at the last descriptor exactly when it is not a close
of a handle that the first slot still holds; and a run of calls that close no such
handle and keep to the bounds of the table makes firmware calls on live handles only,
and leaves in the table live handles only. -/
theorem shared_handles_close_at_last (p : Platform) (m : Machine) :
    (∀ (r : Fin maxFds) (handle : FileHandle), r.val ≤ 12 → m.fds r = some handle →
      (ReleasesAtLast p m r handle ↔ ¬ PrematureClose m.fds r)) ∧
    ∀ (m' : Machine) (labels : List SysCall) (c : SysCall)
      (result : EStateM.Result Stop Machine UInt64) (live : Set FileHandle),
      m.fds.held ⊆ live → Run (MatureStep p) m labels m' → c.Mature p m' →
        c.Ends p m' result →
          ¬ IndexesOutside result ∧
          ∃ new, (finalState result).trace = m.trace ++ new ∧
            handles.Disciplined live new ∧
            (finalState result).fds.held ⊆ handles.live live new := by
  refine ⟨fun r handle hpass hslot => releasesAtLast_iff p hpass hslot, ?_⟩
  intro m' labels c result live hlive hrun hmature hends
  obtain ⟨hlast, hbounds⟩ := c.ends_custodial p hmature hends
  obtain ⟨new, htrace, hcustody⟩ := (custodial_of_run p hrun).trans hlast
  obtain ⟨hdisciplined, c', htable, hlive'⟩ := hcustody ⟨m.fds, live, hlive⟩ rfl
  refine ⟨hbounds, new, htrace, hdisciplined, ?_⟩
  have hbacked := c'.backed
  rw [htable, hlive'] at hbacked
  exact hbacked

theorem shared_handles_close_at_last_four :
    (ReleasesAtLast workingFirmware oneOpen 0 firstHandle ↔
      ¬ PrematureClose oneOpen.fds 0) ∧
    ∃ new, (finalState ((syscallEmuX86_64 workingFirmware 0 3 [4]).run oneOpen)).trace =
        oneOpen.trace ++ new ∧
      handles.Disciplined oneOpen.fds.held new := by
  have hmature : SysCall.Mature workingFirmware oneOpen ⟨3, [4]⟩ := by
    intro r hdispatch
    have hr : r = .fdClose 4 := by
      injection hdispatch with hr
      exact hr.symm
    subst hr
    refine ⟨?_, trivial⟩
    rintro s hs _ ⟨hne, _⟩
    have hzero : toVirtualFd (0 : Fin maxFds) = toVirtualFd s := hs
    exact hne (toVirtualFd_injective hzero).symm
  obtain ⟨hclose, hruns⟩ := shared_handles_close_at_last workingFirmware oneOpen
  refine ⟨hclose 0 _ (by decide) rfl, ?_⟩
  obtain ⟨_, new, htrace, hdisciplined, _⟩ := hruns oneOpen [] ⟨3, [4]⟩ _
    oneOpen.fds.held subset_rfl (Run.nil _) hmature ⟨0, rfl⟩
  exact ⟨new, htrace, hdisciplined⟩

/-- With one file in the first two slots, closing the second passes it to `Close`. -/
theorem close_of_second_slot_closes_first :
    ¬ ∀ (p : Platform) (m : Machine) (r : Fin maxFds) (handle : FileHandle),
      r.val ≤ 12 → m.fds r = some handle → ReleasesAtLast p m r handle := by
  intro hall
  have hreleases := hall workingFirmware (oneOpen.put 1 firstHandle) 1 firstHandle
    (by decide) rfl
  rw [releasesAtLast_iff _ (by decide) rfl] at hreleases
  exact hreleases ⟨by decide, by decide, by decide⟩

end UefiLinux
