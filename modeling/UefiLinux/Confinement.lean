/-
Confinement of the file handles.  Whatever the table holds to begin with, no system call
adds to it, and each makes its file calls on handles of the table or on those it has
opened itself, which no later call can reach.
-/
import UefiLinux.OpenFiles
import UefiLinux.Sessions

namespace UefiLinux

open Progress Journal

/-- The handles that a call may use: what it has opened stays usable until it ends. -/
def granted : Ledger Event FileHandle where
  acquired := Event.opened
  released := fun _ => none
  used := fun e => e.call.handle?

/-- A move that adds no handle to the table and makes its file calls on handles of the
table or of its own. -/
def Confined (m m' : Machine) : Prop :=
  m'.fds.held ⊆ m.fds.held ∧
    ∃ new, m'.trace = m.trace ++ new ∧ granted.Disciplined m.fds.held new

theorem confined_of_eq {m m' : Machine} (hheld : m'.fds.held ⊆ m.fds.held)
    (htrace : m'.trace = m.trace) : Confined m m' :=
  ⟨hheld, [], by rw [htrace, List.append_nil], trivial⟩

theorem Confined.refl (m : Machine) : Confined m m :=
  confined_of_eq (Set.Subset.refl _) rfl

theorem granted_neutral {e : Event} {owner : Option FileHandle} (he : e.Attends owner) :
    granted.Neutral e :=
  ⟨he.1.1, rfl⟩

/-- Calls on a handle of the table. -/
theorem confined_of_quiet {owner : Option FileHandle} {m m' : Machine}
    (hquiet : Quiet calls (Event.Attends owner) m m')
    (howner : ∀ handle, owner = some handle → handle ∈ m.fds.held) : Confined m m' := by
  obtain ⟨hfds, new, htrace, hnew⟩ := hquiet
  change m'.fds = m.fds at hfds
  refine ⟨by rw [hfds], new, htrace, Ledger.disciplined_of_neutral granted fun e he => ?_⟩
  exact ⟨granted_neutral (hnew e he), fun handle huse => howner handle ((hnew e he).2 handle huse)⟩

/-- A call of `Volume->Open` followed by calls on what it opened. -/
theorem confined_of_open {m m₁ m' : Machine} {e : Event} (hfds : m₁.fds = m.fds)
    (htrace : m₁.trace = m.trace ++ [e]) (hused : e.call.handle? = none)
    (hquiet : Quiet calls (Event.Attends e.opened) m₁ m') : Confined m m' := by
  obtain ⟨hfds', new, htrace', hnew⟩ := hquiet
  change m'.fds = m₁.fds at hfds'
  change m'.trace = m₁.trace ++ new at htrace'
  refine ⟨by rw [hfds', hfds], e :: new, ?_, ?_, ?_⟩
  · rw [htrace', htrace, List.append_assoc]
    rfl
  · intro handle huse
    change e.call.handle? = some handle at huse
    rw [hused] at huse
    cases huse
  · refine Ledger.disciplined_of_neutral granted fun e' he' => ?_
    refine ⟨granted_neutral (hnew e' he'), fun handle huse => ?_⟩
    exact ⟨Or.inr ((hnew e' he').2 handle huse), fun hnever => by cases hnever⟩

variable (p : Platform)

theorem fdOpen_confined (m : Machine) (pathname : UInt64) (flags : UInt32) :
    Confined m (finalState ((fdOpen p pathname flags).run m)) := by
  have hopened : ∀ {m'}, Quiet calls
      (Event.Attends (openAnswer p m pathname flags).opened)
      (openMachine p m pathname flags) m' → Confined m m' :=
    confined_of_open rfl (openMachine_trace p m pathname flags) rfl
  rw [fdOpen_run]
  split
  · exact Confined.refl m
  · split
    · exact hopened (refl_of _ _)
    · rename_i hok
      rw [openAnswer_opened, if_neg hok] at hopened
      have hinfo := (fdEfiGetFileInfo_attending p
        (openAnswer p m pathname flags).reply.handle).along
        (openMachine p m pathname flags)
      rw [fdEfiGetFileInfo, uefiCallWrapper_finalState] at hinfo
      split
      · exact hopened hinfo
      · have heffects := (openEffects_attending p
          (openAnswer p m pathname flags).reply.handle flags
          (infoAnswer p m pathname flags).reply.info).along
          (infoMachine p m pathname flags)
        rw [openEffects_run] at heffects
        exact hopened (trans_of _ hinfo heffects)

theorem fdStat_confined (m : Machine) (path buf : UInt64) :
    Confined m (finalState ((fdStat p path buf).run m)) := by
  have hopened : ∀ {m'}, Quiet calls (Event.Attends (statAnswer p m path).opened)
      (statMachine p m path) m' → Confined m m' :=
    confined_of_open rfl rfl rfl
  rw [fdStat_run]
  split
  · exact hopened (refl_of _ _)
  · rename_i hok
    rw [statAnswer_opened, if_neg hok] at hopened
    exact hopened ((fdEfiStat_attending p buf _).along _)

theorem attending_confined {x : M Int} {m : Machine} {r : Fin maxFds} {handle : FileHandle}
    (hx : Attending (some handle) x) (hslot : m.fds r = some handle) :
    Confined m (finalState (x.run m)) := by
  refine confined_of_quiet (hx.along m) fun k hk => ?_
  rw [Option.some.injEq] at hk
  exact hk ▸ Slots.held_of_eq_some hslot

section Release

variable {m : Machine} {r : Fin maxFds} {handle : FileHandle}

theorem held_clear_subset (m : Machine) (r : Fin maxFds) :
    (m.clear r).fds.held ⊆ m.fds.held :=
  fun _ hk => (Slots.mem_held_clear.mp hk).held

theorem confined_clear (m : Machine) (r : Fin maxFds) : Confined m (m.clear r) :=
  confined_of_eq (held_clear_subset m r) rfl

theorem confined_close (hslot : m.fds r = some handle) :
    Confined m (p.after (m.clear r) (.close handle)) := by
  refine ⟨held_clear_subset m r, [p.answer (m.clear r) (.close handle)], rfl, ?_, trivial⟩
  intro k huse
  have hk : handle = k := by simpa [granted, Call.handle?] using huse
  exact hk ▸ Slots.held_of_eq_some hslot

theorem held_put_subset (hheld : handle ∈ m.fds.held) (r : Fin maxFds) :
    (m.put r handle).fds.held ⊆ m.fds.held := by
  intro k hk
  rcases Slots.mem_held_store.mp hk with rfl | helsewhere
  · exact hheld
  · exact helsewhere.held

/-- A handle of the table stored once more. -/
theorem Confined.put {m₁ : Machine} (hconfined : Confined m m₁) (hheld : handle ∈ m₁.fds.held)
    (r : Fin maxFds) : Confined m (m₁.put r handle) :=
  ⟨(held_put_subset hheld r).trans hconfined.1, hconfined.2⟩

theorem fdCloseTaken_confined (hslot : m.fds r = some handle) :
    Confined m (finalState ((fdCloseTaken p (toVirtualFd r) handle).run m)) := by
  rw [fdCloseTaken_run]
  split
  · exact confined_close p hslot
  · exact confined_clear m r

theorem fdDupTaken_confined (hslot : m.fds r = some handle) :
    Confined m (finalState ((fdDupTaken handle).run m)) := by
  have hoccupied : ∃ r, m.fds r ≠ none := ⟨r, by simp [hslot]⟩
  obtain ⟨s, _, hrun⟩ := fdDupTaken_run hoccupied handle
  rw [hrun]
  exact (Confined.refl m).put (Slots.held_of_eq_some hslot) s

theorem Dup2Frees.confined {rn : Fin maxFds} {m₁ : Machine} (hfrees : Dup2Frees p m rn m₁) :
    Confined m m₁ := by
  cases hfrees with
  | free hslot => exact Confined.refl m
  | closed hpass hslot hcloses hok => exact confined_close p hslot
  | kept hpass hslot hcloses => exact confined_clear m rn

theorem fdDup2_confined (m : Machine) (oldFd newFd : Int) :
    Confined m (finalState ((fdDup2 p oldFd newFd).run m)) := by
  generalize hresult : (fdDup2 p oldFd newFd).run m = result
  cases fdDup2_course p hresult with
  | refused hold e => exact Confined.refl m
  | outside hlow hhigh hnew => exact Confined.refl m
  | top hro hold hnew htop hslot => exact Confined.refl m
  | fails hro hold hnew hpass hslot hcloses hfails => exact confined_close p hslot
  | lost hro hold hnew hfrees hnone => exact hfrees.confined p
  | stores hro hold hnew hfrees hslot hs =>
      exact (hfrees.confined p).put (Slots.held_of_eq_some hslot) _
  | misses hro hold hnew hfrees hslot hbig => exact hfrees.confined p

end Release

section Requests

variable {m : Machine}

theorem FdOp.exec_confined {op : FdOp} {fd : Int} (hconsole : op.console fd = false)
    (fuel : Nat) : Confined m (finalState (((op.request fd).exec p fuel).run m)) := by
  rw [FdOp.exec_request_of_not_console p hconsole, asWord_finalState]
  refine withFd_finalState (Confined.refl m) fun r handle hnumber hslot => ?_
  cases op with
  | close =>
      subst hnumber
      exact fdCloseTaken_confined p hslot
  | dup => exact fdDupTaken_confined hslot
  | fsync => exact attending_confined (fdFsyncTaken_attending p handle) hslot
  | lseek offset whence =>
      exact attending_confined (fdLseekTaken_attending p offset whence handle) hslot
  | read buf count => exact attending_confined (fdReadTaken_attending p buf count handle) hslot
  | write buf count => exact attending_confined (fdWriteTaken_attending p buf count handle) hslot
  | getdents64 dirp count =>
      exact attending_confined (fdGetdents64Taken_attending p dirp count handle) hslot
  | fstat buf => exact attending_confined (fdEfiStat_attending p buf handle) hslot

theorem Request.exec_confined (fuel : Nat) (r : Request) :
    Confined m (finalState ((r.exec p fuel).run m)) := by
  cases r.touches p fuel with
  | nothing hattends =>
      exact confined_of_quiet (hattends.along m) fun handle hnone => by cases hnone
  | descriptor op fd hconsole => exact FdOp.exec_confined p hconsole fuel
  | opens pathname flags =>
      rw [Request.exec, asWord_finalState]
      exact fdOpen_confined p m pathname flags
  | stats path buf =>
      rw [Request.exec, asWord_finalState]
      exact fdStat_confined p m path buf
  | redirects oldFd newFd =>
      rw [Request.exec, asWord_finalState]
      exact fdDup2_confined p m oldFd newFd

end Requests

section Sessions

variable {p : Platform} {m m' : Machine} {acts : List Action} {c : SysCall}
  {result : EStateM.Result Stop Machine UInt64}

theorem SysCall.Ends.confined (hends : c.Ends p m result) : Confined m (finalState result) := by
  rcases c.ends_cases p hends with ⟨r, fuel, _, rfl⟩ | ⟨why, _, rfl⟩
  · exact r.exec_confined p fuel
  · exact Confined.refl m

theorem Action.Does.confined {act : Action} (hdoes : act.Does p m m') : Confined m m' := by
  cases hdoes with
  | store address bytes m => exact confined_of_eq (Set.Subset.refl _) rfl
  | call hends => exact hends.confined

/-- An action that has added no handle to the table, made its file calls on the given
handles or on handles that it has itself opened before, and added these events. -/
structure Action.KeepsWithin (p : Platform) (start : Set FileHandle)
    (cut : Action × List Event) (m m' : Machine) : Prop extends Action.Makes p cut m m' where
  held : m'.fds.held ⊆ m.fds.held
  disciplined : granted.Disciplined start cut.2

theorem Session.confined (hsession : Session p m acts m') :
    m'.fds.held ⊆ m.fds.held ∧ ∃ cuts : List (Action × List Event),
      cuts.map Prod.fst = acts ∧ Run (Action.KeepsWithin p m.fds.held) m cuts m' := by
  induction hsession with
  | nil => exact ⟨Set.Subset.refl _, [], rfl, Run.nil m⟩
  | @snoc s s' acts act _ hlast ih =>
      obtain ⟨hheld, cuts, rfl, hcuts⟩ := ih
      obtain ⟨hheld', part, htrace, hpart⟩ := Action.Does.confined hlast
      refine ⟨hheld'.trans hheld, cuts ++ [(act, part)], List.map_append, hcuts.snoc ?_⟩
      exact ⟨⟨hlast, htrace⟩, hheld', granted.disciplined_mono hheld hpart⟩

/-- Over any session from any table, and however its last call ends: the table never holds
a handle that it did not hold at the start, and the journal falls into parts, one for each
action and one for the last call, such that each action has added its own part and made in
it file calls only on handles held at the start or on handles that it has opened before in
that same part. -/
theorem session_handles_confined (hsession : Session p m acts m') (hends : c.Ends p m' result) :
    (finalState result).fds.held ⊆ m.fds.held ∧
    ∃ (cuts : List (Action × List Event)) (last : List Event), cuts.map Prod.fst = acts ∧
      Run (Action.KeepsWithin p m.fds.held) m cuts m' ∧
      (finalState result).trace = m.trace ++ cuts.flatMap Prod.snd ++ last ∧
      granted.Disciplined m.fds.held last := by
  obtain ⟨hheld, cuts, hacts, hcuts⟩ := hsession.confined
  obtain ⟨hheld', last, htrace, hlast⟩ := hends.confined
  refine ⟨hheld'.trans hheld, cuts, last, hacts, hcuts, ?_, granted.disciplined_mono hheld hlast⟩
  rw [htrace, hcuts.log_eq Machine.trace Prod.snd fun cut s s' hkeeps => hkeeps.trace]

/-- With one file open, a path's status is taken and the file is closed. -/
theorem session_handles_confined_close :
    ∃ m', Session workingFirmware oneOpen ([] ++ [.call ⟨4, [0, 64]⟩ 0]) m' ∧
      (finalState ((syscallEmuX86_64 workingFirmware 0 3 [4]).run m')).fds.held ⊆
        oneOpen.fds.held := by
  obtain ⟨m', hstat⟩ : ∃ m', Session workingFirmware oneOpen
      ([] ++ [.call ⟨4, [0, 64]⟩ 0]) m' :=
    ⟨_, (Run.nil _).snoc (.call (c := ⟨4, [0, 64]⟩) ⟨0, rfl⟩)⟩
  have hclose : SysCall.Ends workingFirmware ⟨3, [4]⟩ m'
      ((syscallEmuX86_64 workingFirmware 0 3 [4]).run m') := ⟨0, rfl⟩
  exact ⟨m', hstat, (session_handles_confined hstat hclose).1⟩

end Sessions

end UefiLinux
