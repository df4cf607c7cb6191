/-
Sessions on files.  A session whose calls transfer data through open descriptors is a
session of a program on files alone: the refinement, and what follows from it for reading
and writing in pieces and for reading back what was written.
-/
import UefiLinux.Transfers

namespace UefiLinux

open Progress Journal

variable {N : Type}

/-- A program on files: it stores to its memory, and its transfers go through the handles
that its descriptors stand for.  A transfer fails only when a call on its handle, among the
events that the action has made, has failed. -/
inductive FileStep (takes : Int → Option FileHandle) (files : Set FileHandle) :
    Action × List Event → Memory × FileStore FileHandle N → Memory × FileStore FileHandle N →
      Prop
  | store {address : UInt64} {bytes : List UInt8} {part : List Event} {mem : Memory}
      {s : FileStore FileHandle N} :
      FileStep takes files (.store address bytes, part) (mem, s) (mem.store address bytes, s)
  | read {c : SysCall} {fd : Int} {buf count : UInt64} {handle : FileHandle}
      {part : List Event} {mem : Memory} {s : FileStore FileHandle N}
      (hreq : dispatch c.no c.args = .ok (.fdRead fd buf count)) (hfile : fd ≠ 0)
      (htakes : takes fd = some handle) (hin : handle ∈ files) :
      FileStep takes files
        (.call c (UInt64.ofNat (s.ahead handle count.toNat).length), part) (mem, s)
        (mem.store buf (s.ahead handle count.toNat), s.afterRead handle count.toNat)
  | write {c : SysCall} {fd : Int} {buf count : UInt64} {handle : FileHandle}
      {part : List Event} {mem : Memory} {s s' : FileStore FileHandle N}
      (hreq : dispatch c.no c.args = .ok (.fdWrite fd buf count))
      (hfile : ¬ (fd = 1 ∨ fd = 2)) (htakes : takes fd = some handle) (hin : handle ∈ files)
      (hwrote : s.Wrote handle (mem.bytes buf count.toNat) s') :
      FileStep takes files (.call c count, part) (mem, s) (mem, s')
  | writeFails {c : SysCall} {fd : Int} {buf count word : UInt64} {handle : FileHandle}
      {part : List Event} {mem : Memory} {s s' : FileStore FileHandle N} {done : Nat}
      (hreq : dispatch c.no c.args = .ok (.fdWrite fd buf count))
      (hfile : ¬ (fd = 1 ∨ fd = 2)) (htakes : takes fd = some handle) (hin : handle ∈ files)
      (hfailed : ∃ e ∈ part, e.call.handle? = some handle ∧ efiError e.reply.status = true)
      (hwrote : s.Wrote handle ((mem.bytes buf count.toNat).take done) s')
      (hword : ErrnoWord word) :
      FileStep takes files (.call c word, part) (mem, s) (mem, s')
  | seek {c : SysCall} {fd offset whence base : Int} {handle : FileHandle}
      {part : List Event} {mem : Memory} {s : FileStore FileHandle N}
      (hreq : dispatch c.no c.args = .ok (.fdLseek fd offset whence))
      (htakes : takes fd = some handle) (hin : handle ∈ files)
      (hbase : fileSeekBase s handle whence = some base) :
      FileStep takes files (.call c (UInt64.ofInt (base + offset)), part) (mem, s)
        (mem, seekTo s handle (UInt64.ofInt (base + offset)))
  | fails {c : SysCall} {r : Request} {fd : Int} {word : UInt64} {handle : FileHandle}
      {part : List Event} {mem mem' : Memory} {s : FileStore FileHandle N}
      (hreq : dispatch c.no c.args = .ok r) (hfile : r.fileFd? = some fd)
      (htakes : takes fd = some handle) (hin : handle ∈ files)
      (hfailed : ∃ e ∈ part, e.call.handle? = some handle ∧ efiError e.reply.status = true)
      (hword : ErrnoWord word) (hmem : ∀ a ∉ r.writes, mem' a = mem a) (target : Nat) :
      FileStep takes files (.call c word, part) (mem, s) (mem', s.moveTo handle target)
  | refused {c : SysCall} {r : Request} {fd : Int} {word : UInt64} {part : List Event}
      {mem : Memory} {s : FileStore FileHandle N} (hreq : dispatch c.no c.args = .ok r)
      (hfile : r.fileFd? = some fd) (htakes : takes fd = none) (hword : ErrnoWord word) :
      FileStep takes files (.call c word, part) (mem, s) (mem, s)
  | lost {c : SysCall} {fd offset whence : Int} {word : UInt64} {part : List Event}
      {mem : Memory} {s : FileStore FileHandle N}
      (hreq : dispatch c.no c.args = .ok (.fdLseek fd offset whence))
      (hwhence : whence ≠ 0 ∧ whence ≠ 1 ∧ whence ≠ 2) :
      FileStep takes files (.call c word, part) (mem, s) (mem, s)
  | looks {c : SysCall} {path buf word : UInt64} {handle : FileHandle} {n : N}
      {part : List Event} {mem mem' : Memory} {s : FileStore FileHandle N}
      (hreq : dispatch c.no c.args = .ok (.fdStat path buf)) (hapart : handle ∉ files)
      (hopened : ∃ e ∈ part, e.opened = some handle)
      (hmem : ∀ a ∉ statRegion buf, mem' a = mem a) :
      FileStep takes files (.call c word, part) (mem, s) (mem', s.openAt handle n)
  | other {c : SysCall} {r : Request} {word : UInt64} {part : List Event} {mem mem' : Memory}
      {s : FileStore FileHandle N} (hreq : dispatch c.no c.args = .ok r)
      (hother : r.Transfers) (hfile : r.fileFd? = none)
      (hmem : ∀ a ∉ r.writes, mem' a = mem a) :
      FileStep takes files (.call c word, part) (mem, s) (mem', s)

section Step

variable {p : Platform} {base : List Event} {files : Set FileHandle}
  {store : List Event → FileStore FileHandle N} {m m' : Machine} {act : Action}

/-- The action neither opens nor closes nor enumerates, and its transfers go through
handles of files. -/
def Action.OnFiles (files : Set FileHandle) (m : Machine) : Action → Prop
  | .store _ _ => True
  | .call c _ => ∀ r, dispatch c.no c.args = .ok r → r.Transfers ∧
      ∀ fd, r.fileFd? = some fd → ∀ handle, m.takes fd = some handle → handle ∈ files

def TransferStep (p : Platform) (files : Set FileHandle) (act : Action) (m m' : Machine) : Prop :=
  act.OnFiles files m ∧ act.Does p m m'

theorem Action.Does.trace (hdoes : act.Does p m m') : m.trace <+: m'.trace := by
  cases hdoes with
  | store address bytes m => exact List.prefix_refl _
  | call hends =>
      obtain ⟨new, htrace, _⟩ := hends.calls
      exact ⟨new, htrace.symm⟩

theorem TransferStep.fds (hstep : TransferStep p files act m m') : m'.fds = m.fds := by
  obtain ⟨hfiles, hdoes⟩ := hstep
  cases hdoes with
  | store address bytes m => rfl
  | @call c word m m' hends =>
      rcases c.ends_cases p hends with ⟨r, fuel, hdispatch, hrun⟩ | ⟨why, _, hrun⟩
      · have hfds := Request.transfers_fds (p := p) (m := m) (hfiles r hdispatch).1 fuel
        rwa [← hrun] at hfds
      · cases hrun

/-- Outside its output a call keeps the memory. -/
theorem SysCall.Ends.mem (hbounded : p.ReadsBounded) {c : SysCall} {r : Request} {word : UInt64}
    (hends : c.Ends p m (.ok word m')) (hdispatch : dispatch c.no c.args = .ok r) :
    ∀ a ∉ r.writes, m'.mem a = m.mem a := by
  have hmem := (hends.keeps hbounded).mem
  simpa only [SysCall.writes, hdispatch, finalState_ok] using hmem

/-- A call on a descriptor that the guard lets pass runs the handler on its handle. -/
theorem SysCall.Ends.taken {c : SysCall} {r : Request} {word : UInt64} {fd : Int}
    {handle : FileHandle} (hends : c.Ends p m (.ok word m'))
    (hdispatch : dispatch c.no c.args = .ok r) (op : FdOp) (hop : r = op.request fd)
    (hconsole : op.console fd = false) (htakes : m.takes fd = some handle) :
    ∃ v, (op.taken p fd handle).run m = .ok v m' ∧ word = UInt64.ofInt v := by
  rcases c.ends_cases p hends with ⟨r', fuel, hdispatch', hrun⟩ | ⟨why, herror, _⟩
  · rw [hdispatch, Except.ok.injEq] at hdispatch'
    subst hdispatch' hop
    rw [FdOp.exec_request_of_not_console p hconsole] at hrun
    obtain ⟨v, hrun', hword⟩ := asWord_eq_ok.mp hrun.symm
    rw [withFd_run_of_takes htakes] at hrun'
    exact ⟨v, hrun', hword⟩
  · rw [hdispatch] at herror
    cases herror

theorem SysCall.Ends.refused {c : SysCall} {r : Request} {word : UInt64} {fd : Int}
    (hends : c.Ends p m (.ok word m')) (hdispatch : dispatch c.no c.args = .ok r)
    (hfile : r.fileFd? = some fd) (htakes : m.takes fd = none) :
    ErrnoWord word ∧ m' = m := by
  obtain ⟨op, rfl, hconsole, _⟩ := Request.fileFd?_eq_some (p := p) hfile
  rcases c.ends_cases p hends with ⟨r', fuel, hdispatch', hrun⟩ | ⟨why, herror, _⟩
  · rw [hdispatch, Except.ok.injEq] at hdispatch'
    subst hdispatch'
    rw [FdOp.exec_request_of_not_console p hconsole] at hrun
    obtain ⟨v, hrun', rfl⟩ := asWord_eq_ok.mp hrun.symm
    obtain ⟨e, hrefused⟩ := withFd_run_of_takes_none htakes (op.taken p fd)
    rw [hrefused, EStateM.Result.ok.injEq] at hrun'
    obtain ⟨rfl, rfl⟩ := hrun'
    exact ⟨errnoWord_of_isErrno e.neg_isErrno, rfl⟩
  · rw [hdispatch] at herror
    cases herror

/-- What has failed on the way is among the events made on it. -/
theorem FailsOn.mem {handle : FileHandle} {part : List Event} (hfails : FailsOn handle m m')
    (htrace : m'.trace = m.trace ++ part) :
    ∃ e ∈ part, e.call.handle? = some handle ∧ efiError e.reply.status = true := by
  obtain ⟨new, hnew, hfailed⟩ := hfails
  rwa [List.append_cancel_left (htrace.symm.trans hnew)]

/-- What a call on an open file does is a step of the program on files. -/
theorem TransferStep.fileStep_of_open (hbounded : p.ReadsBounded)
    (hserves : ServesFiles p base files store) (hbase : base <+: m.trace) {c : SysCall}
    {r : Request} {word : UInt64} {fd : Int} {handle : FileHandle} {part : List Event}
    (hends : c.Ends p m (.ok word m')) (hdispatch : dispatch c.no c.args = .ok r)
    (hfile : r.fileFd? = some fd) (htakes : m.takes fd = some handle) (hin : handle ∈ files)
    (htrace : m'.trace = m.trace ++ part) :
    FileStep m.takes files (.call c word, part) (m.mem, store m.trace)
      (m'.mem, store m'.trace) := by
  have hmem := hends.mem hbounded hdispatch
  cases r with
  | fdRead fd' buf count =>
      rw [Request.fileFd?] at hfile
      split at hfile
      · cases hfile
      rename_i hother
      injection hfile with hsame
      subst hsame
      obtain ⟨v, hrun, rfl⟩ := hends.taken hdispatch (.read buf count) rfl
        (decide_eq_false hother) htakes
      obtain ⟨v', m'', hrun', hanswer⟩ := fdReadTaken_serves hserves hbase hin buf count
      rw [FdOp.taken, hrun', EStateM.Result.ok.injEq] at hrun
      obtain ⟨rfl, rfl⟩ := hrun
      rcases hanswer with ⟨hword, hstored, hstore⟩ | ⟨hword, hfails, target, hstore⟩
      · rw [hword, hstored, hstore]
        exact .read hdispatch hother htakes hin
      · rw [hstore]
        exact .fails hdispatch (if_neg hother) htakes hin (hfails.mem htrace) hword hmem target
  | fdWrite fd' buf count =>
      rw [Request.fileFd?] at hfile
      split at hfile
      · cases hfile
      rename_i hother
      injection hfile with hsame
      subst hsame
      obtain ⟨v, hrun, rfl⟩ := hends.taken hdispatch (.write buf count) rfl
        (decide_eq_false hother) htakes
      obtain ⟨v', m'', hrun', hkept, hanswer⟩ := fdWriteTaken_serves hserves hbase hin buf count
      rw [FdOp.taken, hrun', EStateM.Result.ok.injEq] at hrun
      obtain ⟨rfl, rfl⟩ := hrun
      rcases hanswer with ⟨hword, hwrote⟩ | ⟨hword, hfails, done, hwrote⟩
      · rw [hword, hkept]
        exact .write hdispatch hother htakes hin hwrote
      · rw [hkept]
        exact .writeFails hdispatch hother htakes hin (hfails.mem htrace) hwrote hword
  | fdLseek fd' offset whence =>
      injection hfile with hsame
      subst hsame
      obtain ⟨v, hrun, rfl⟩ := hends.taken hdispatch (.lseek offset whence) rfl rfl htakes
      rw [FdOp.taken] at hrun
      cases hstart : fileSeekBase (store m.trace) handle whence with
      | some start =>
          obtain ⟨v', m'', hrun', hkept, hanswer⟩ :=
            fdLseekTaken_seeks hserves hbase hin offset hstart
          rw [hrun', EStateM.Result.ok.injEq] at hrun
          obtain ⟨rfl, rfl⟩ := hrun
          rcases hanswer with ⟨hword, hstore⟩ | ⟨hword, hfails, place, hstore⟩
          · rw [hword, hstore, hkept]
            exact .seek hdispatch htakes hin hstart
          · rw [hstore]
            exact .fails hdispatch rfl htakes hin (hfails.mem htrace) hword hmem place
      | none =>
          have hwhence := fileSeekBase_eq_none hstart
          rw [fdLseekTaken_run_of_unknown hwhence, EStateM.Result.ok.injEq] at hrun
          obtain ⟨_, rfl⟩ := hrun
          exact .lost hdispatch hwhence
  | _ => cases hfile

/-- What a call on no file does is a step of the program on files. -/
theorem TransferStep.fileStep_of_other (hbounded : p.ReadsBounded)
    (hserves : ServesFiles p base files store) (hopens : OpensApart p base files store)
    (hbase : base <+: m.trace) {c : SysCall} {r : Request} {word : UInt64} {part : List Event}
    (hends : c.Ends p m (.ok word m')) (hdispatch : dispatch c.no c.args = .ok r)
    (htransfers : r.Transfers) (hfile : r.fileFd? = none)
    (htrace : m'.trace = m.trace ++ part) :
    FileStep m.takes files (.call c word, part) (m.mem, store m.trace)
      (m'.mem, store m'.trace) := by
  have hmem := hends.mem hbounded hdispatch
  by_cases hstat : ∃ path buf, r = .fdStat path buf
  · obtain ⟨path, buf, rfl⟩ := hstat
    obtain ⟨new, hnew, hstore⟩ := fdStat_store hserves hopens hbase path buf
    have hfinal : finalState ((fdStat p path buf).run m) = m' := by
      obtain ⟨fuel, hrun⟩ := hends
      simp only [syscallEmuX86_64, hdispatch, Request.exec] at hrun
      obtain ⟨v, hrun', _⟩ := asWord_eq_ok.mp hrun
      rw [hrun']
      rfl
    rw [hfinal] at hnew
    obtain rfl := List.append_cancel_left (htrace.symm.trans hnew)
    rw [htrace]
    rcases hstore with hsame | ⟨handle, n, hapart, hopened, hstore⟩
    · rw [hsame]
      exact .other hdispatch htransfers hfile hmem
    · rw [hstore]
      exact .looks hdispatch hapart hopened hmem
  · obtain ⟨new, hnew, hcalls⟩ := hends.calls
    rw [SysCall.calls, hdispatch] at hcalls
    rw [finalState_ok] at hnew
    rw [hnew, hserves.keeps_all hbase fun e he => Request.calls_keepFiles htransfers
      (fun path buf hsame => hstat ⟨path, buf, hsame⟩) hfile (hcalls e he)]
    exact .other hdispatch htransfers hfile hmem

/-- What an action of a session does is a step of the program on files. -/
theorem TransferStep.fileStep (hbounded : p.ReadsBounded)
    (hserves : ServesFiles p base files store) (hopens : OpensApart p base files store)
    (hbase : base <+: m.trace) (hstep : TransferStep p files act m m') :
    ∃ part, m'.trace = m.trace ++ part ∧
      FileStep m.takes files (act, part) (m.mem, store m.trace) (m'.mem, store m'.trace) := by
  obtain ⟨hfiles, hdoes⟩ := hstep
  obtain ⟨part, htrace⟩ := hdoes.trace
  refine ⟨part, htrace.symm, ?_⟩
  cases hdoes with
  | store address bytes m => exact .store
  | @call c word m m' hends =>
      rcases c.ends_cases p hends with ⟨r, fuel, hdispatch, _⟩ | ⟨why, _, hrun⟩
      · obtain ⟨htransfers, hhandles⟩ := hfiles r hdispatch
        cases hfile : r.fileFd? with
        | none =>
            exact TransferStep.fileStep_of_other hbounded hserves hopens hbase hends hdispatch
              htransfers hfile htrace.symm
        | some fd =>
            cases htakes : m.takes fd with
            | none =>
                obtain ⟨hword, rfl⟩ := hends.refused hdispatch hfile htakes
                exact .refused hdispatch hfile htakes hword
            | some handle =>
                exact TransferStep.fileStep_of_open hbounded hserves hbase hends hdispatch hfile
                  htakes (hhandles fd hfile handle htakes) htrace.symm
      · cases hrun

theorem takes_of_fds (hfds : m'.fds = m.fds) : m'.takes = m.takes := by
  funext fd
  rw [Machine.takes, Machine.takes, Machine.openHandle, Machine.openHandle, hfds]

/-- On firmware that keeps files, every session that transfers through the descriptors of
its table is, action by action and with the same words returned, a session of a program
on the files alone, in which a transfer fails only when firmware has failed a call that
the action has made. -/
theorem session_refines_files {acts : List Action} (hbounded : p.ReadsBounded)
    (hserves : ServesFiles p m.trace files store) (hopens : OpensApart p m.trace files store)
    (hsession : Run (TransferStep p files) m acts m') :
    ∃ cuts : List (Action × List Event), cuts.map Prod.fst = acts ∧
      Run (Action.Makes p) m cuts m' ∧
      Run (FileStep m.takes files) (m.mem, store m.trace) cuts (m'.mem, store m'.trace) := by
  have hsimulated : m.trace <+: m'.trace ∧ m'.fds = m.fds ∧
      ∃ cuts : List (Action × List Event), cuts.map Prod.fst = acts ∧
        Run (Action.Makes p) m cuts m' ∧
        Run (FileStep m.takes files) (m.mem, store m.trace) cuts (m'.mem, store m'.trace) := by
    induction hsession with
    | nil => exact ⟨List.prefix_refl _, rfl, [], rfl, Run.nil _, Run.nil _⟩
    | @snoc s s' acts act _ hlast ih =>
        obtain ⟨hgrown, hfds, cuts, rfl, hmakes, hfiles⟩ := ih
        obtain ⟨part, htrace, hfile⟩ := hlast.fileStep hbounded hserves hopens hgrown
        rw [takes_of_fds hfds] at hfile
        exact ⟨hgrown.trans hlast.2.trace, hlast.fds.trans hfds, cuts ++ [(act, part)],
          List.map_append, hmakes.snoc ⟨hlast.2, htrace⟩, hfiles.snoc hfile⟩
  exact hsimulated.2.2

end Step

section Server

variable {p : Platform} {files : Set FileHandle} {m m' : Machine} {c : SysCall} {r : Request}
  {word : UInt64} {fd : Int} {handle : FileHandle}

/-- A call through an open descriptor of a file is a step of a session on files. -/
theorem transferStep_of_ends (hends : c.Ends p m (.ok word m'))
    (hdispatch : dispatch c.no c.args = .ok r) (hfile : r.fileFd? = some fd)
    (htakes : m.takes fd = some handle) (hin : handle ∈ files) :
    TransferStep p files (.call c word) m m' := by
  refine ⟨fun r' hdispatch' => ?_, .call hends⟩
  rw [hdispatch, Except.ok.injEq] at hdispatch'
  subst hdispatch'
  refine ⟨?_, fun fd' hfile' handle' htakes' => ?_⟩
  · cases r <;> trivial
  · rw [hfile, Option.some.injEq] at hfile'
    subst hfile'
    rw [htakes, Option.some.injEq] at htakes'
    exact htakes' ▸ hin

theorem transferStep_store (address : UInt64) (bytes : List UInt8) :
    TransferStep p files (.store address bytes) m
      { m with mem := m.mem.store address bytes } :=
  ⟨trivial, .store address bytes m⟩

theorem transferStep_of_none (hends : c.Ends p m (.ok word m'))
    (hdispatch : dispatch c.no c.args = .ok r) (htransfers : r.Transfers)
    (hfile : r.fileFd? = none) : TransferStep p files (.call c word) m m' := by
  refine ⟨fun r' hdispatch' => ?_, .call hends⟩
  rw [hdispatch, Except.ok.injEq] at hdispatch'
  subst hdispatch'
  refine ⟨htransfers, fun fd hfile' => ?_⟩
  rw [hfile] at hfile'
  cases hfile'

/-- Every handle on a file of its own, the first of them with three bytes in it. -/
def threeBytes : FileStore FileHandle FileHandle where
  file := id
  contents := fun handle => if handle = firstHandle then [97, 98, 99] else []
  position := fun _ => 0

def secondHandle : FileHandle := ⟨2, by decide⟩

/-- A machine with two files open, as descriptors 4 and 5. -/
def twoOpen : Machine := oneOpen.put 1 secondHandle

/-- A path is looked up, which opens the first handle anew, and three bytes of the
program's are written through the second. -/
theorem session_refines_files_write :
    ∃ m', Run (TransferStep (fileServer threeBytes) {secondHandle}) twoOpen
        ([] ++ [.store 100 [104, 105, 33]] ++ [.call ⟨4, [0, 300]⟩ 0] ++
          [.call ⟨1, [5, 100, 3]⟩ 3]) m' ∧
      ∃ cuts : List (Action × List Event), cuts.map Prod.fst =
          [] ++ [.store 100 [104, 105, 33]] ++ [.call ⟨4, [0, 300]⟩ 0] ++
            [.call ⟨1, [5, 100, 3]⟩ 3] ∧
        Run (Action.Makes (fileServer threeBytes)) twoOpen cuts m' ∧
        Run (FileStep twoOpen.takes {secondHandle}) (twoOpen.mem, threeBytes) cuts
          (m'.mem, m'.trace.foldl fileAfter threeBytes) := by
  obtain ⟨m', hrun⟩ : ∃ m', Run (TransferStep (fileServer threeBytes) {secondHandle}) twoOpen
      ([] ++ [.store 100 [104, 105, 33]] ++ [.call ⟨4, [0, 300]⟩ 0] ++
        [.call ⟨1, [5, 100, 3]⟩ 3]) m' :=
    ⟨_, (((Run.nil _).snoc (transferStep_store 100 [104, 105, 33])).snoc
      (transferStep_of_none (c := ⟨4, [0, 300]⟩) ⟨0, rfl⟩ rfl trivial rfl)).snoc
        (transferStep_of_ends (c := ⟨1, [5, 100, 3]⟩) ⟨0, rfl⟩ rfl rfl rfl
          (Set.mem_singleton _))⟩
  have hapart : firstHandle ∉ ({secondHandle} : Set FileHandle) := by
    intro hin
    cases hin
  exact ⟨m', hrun, session_refines_files (fileServer_readsBounded _)
    (fileServer_serves threeBytes _ _) (fileServer_opensApart threeBytes _ hapart) hrun⟩

end Server

section Inversion

variable {takes : Int → Option FileHandle} {files : Set FileHandle} {c : SysCall} {word : UInt64}
  {part : List Event} {handle : FileHandle} {mem : Memory} {s : FileStore FileHandle N}
  {view : Memory × FileStore FileHandle N}

/-- A read that does not fail. -/
theorem FileStep.read_inv {fd : Int} {buf count : UInt64}
    (hstep : FileStep takes files (.call c word, part) (mem, s) view)
    (hreq : dispatch c.no c.args = .ok (.fdRead fd buf count)) (hfile : fd ≠ 0)
    (htakes : takes fd = some handle) (hok : ¬ ErrnoWord word) :
    word = UInt64.ofNat (s.ahead handle count.toNat).length ∧
      view = (mem.store buf (s.ahead handle count.toNat), s.afterRead handle count.toNat) := by
  cases hstep with
  | read hreq' hfile' htakes' hin =>
      rw [hreq, Except.ok.injEq, Request.fdRead.injEq] at hreq'
      obtain ⟨rfl, rfl, rfl⟩ := hreq'
      rw [htakes, Option.some.injEq] at htakes'
      subst htakes'
      exact ⟨rfl, rfl⟩
  | fails hreq' hfile' htakes' hin hfailed hword hmem target => exact absurd hword hok
  | writeFails hreq' hfile' htakes' hin hfailed hwrote hword => exact absurd hword hok
  | refused hreq' hfile' htakes' hword => exact absurd hword hok
  | other hreq' hother hfile' hmem =>
      rw [hreq, Except.ok.injEq] at hreq'
      rw [← hreq', Request.fileFd?, if_neg hfile] at hfile'
      cases hfile'
  | write hreq' hfile' htakes' hin hwrote | seek hreq' htakes' hin hbase | lost hreq' hwhence
  | looks hreq' hapart hopened hmem =>
      rw [hreq] at hreq'
      cases hreq'

/-- A write that does not fail. -/
theorem FileStep.write_inv {fd : Int} {buf count : UInt64}
    (hstep : FileStep takes files (.call c word, part) (mem, s) view)
    (hreq : dispatch c.no c.args = .ok (.fdWrite fd buf count)) (hfile : ¬ (fd = 1 ∨ fd = 2))
    (htakes : takes fd = some handle) (hok : ¬ ErrnoWord word) :
    handle ∈ files ∧ word = count ∧ s.Wrote handle (mem.bytes buf count.toNat) view.2 := by
  cases hstep with
  | write hreq' hfile' htakes' hin hwrote =>
      rw [hreq, Except.ok.injEq, Request.fdWrite.injEq] at hreq'
      obtain ⟨rfl, rfl, rfl⟩ := hreq'
      rw [htakes, Option.some.injEq] at htakes'
      subst htakes'
      exact ⟨hin, rfl, hwrote⟩
  | fails hreq' hfile' htakes' hin hfailed hword hmem target => exact absurd hword hok
  | writeFails hreq' hfile' htakes' hin hfailed hwrote hword => exact absurd hword hok
  | refused hreq' hfile' htakes' hword => exact absurd hword hok
  | other hreq' hother hfile' hmem =>
      rw [hreq, Except.ok.injEq] at hreq'
      rw [← hreq', Request.fileFd?, if_neg hfile] at hfile'
      cases hfile'
  | read hreq' hfile' htakes' hin | seek hreq' htakes' hin hbase | lost hreq' hwhence
  | looks hreq' hapart hopened hmem =>
      rw [hreq] at hreq'
      cases hreq'

/-- A seek from the start that does not fail. -/
theorem FileStep.seek_inv {fd offset : Int}
    (hstep : FileStep takes files (.call c word, part) (mem, s) view)
    (hreq : dispatch c.no c.args = .ok (.fdLseek fd offset 0)) (htakes : takes fd = some handle)
    (hok : ¬ ErrnoWord word) :
    handle ∈ files ∧ view = (mem, seekTo s handle (UInt64.ofInt offset)) := by
  cases hstep with
  | seek hreq' htakes' hin hbase =>
      rw [hreq, Except.ok.injEq, Request.fdLseek.injEq] at hreq'
      obtain ⟨rfl, rfl, rfl⟩ := hreq'
      rw [htakes, Option.some.injEq] at htakes'
      rw [fileSeekBase, if_pos rfl, Option.some.injEq] at hbase
      subst htakes' hbase
      rw [Int.zero_add]
      exact ⟨hin, rfl⟩
  | fails hreq' hfile' htakes' hin hfailed hword hmem target => exact absurd hword hok
  | writeFails hreq' hfile' htakes' hin hfailed hwrote hword => exact absurd hword hok
  | refused hreq' hfile' htakes' hword => exact absurd hword hok
  | lost hreq' hwhence =>
      rw [hreq, Except.ok.injEq, Request.fdLseek.injEq] at hreq'
      exact absurd hreq'.2.2.symm hwhence.1
  | other hreq' hother hfile' hmem =>
      rw [hreq, Except.ok.injEq] at hreq'
      rw [← hreq'] at hfile'
      cases hfile'
  | read hreq' hfile' htakes' hin | write hreq' hfile' htakes' hin hwrote
  | looks hreq' hapart hopened hmem =>
      rw [hreq] at hreq'
      cases hreq'

/-- A write to the file, through whatever descriptor and handle. -/
def Action.WritesTo (takes : Int → Option FileHandle) (file : FileHandle → N) (n : N) :
    Action → Prop
  | .store _ _ => False
  | .call c _ => ∃ fd buf count handle,
      dispatch c.no c.args = .ok (.fdWrite fd buf count) ∧ ¬ (fd = 1 ∨ fd = 2) ∧
        takes fd = some handle ∧ file handle = n

/-- The handles of open files go on naming them. -/
theorem FileStep.file {cut : Action × List Event} {view view' : Memory × FileStore FileHandle N}
    (hstep : FileStep takes files cut view view') :
    ∀ h ∈ files, view'.2.file h = view.2.file h := by
  intro h hin
  cases hstep with
  | write hreq hfile htakes hin' hwrote => exact congrFun hwrote.file h
  | writeFails hreq hfile htakes hin' hfailed hwrote hword => exact congrFun hwrote.file h
  | looks hreq hapart hopened hmem =>
      refine FileStore.openAt_file_of_ne _ ?_ _
      rintro rfl
      exact hapart hin
  | _ => rfl

/-- All but writes to a file leave what is in it. -/
theorem FileStep.contents {cut : Action × List Event} {n : N}
    {view view' : Memory × FileStore FileHandle N} {file : FileHandle → N}
    (hstep : FileStep takes files cut view view') (hfile : ∀ h ∈ files, view.2.file h = file h)
    (hkept : ¬ cut.1.WritesTo takes file n) : view'.2.contents n = view.2.contents n := by
  have hother : ∀ {c : SysCall} {fd : Int} {buf count : UInt64} {h : FileHandle},
      dispatch c.no c.args = .ok (.fdWrite fd buf count) → ¬ (fd = 1 ∨ fd = 2) →
        takes fd = some h → h ∈ files → (∀ word, cut.1 = .call c word → n ≠ view.2.file h) := by
    rintro c fd buf count h hreq hfd htakes hin word hcut rfl
    rw [hcut] at hkept
    exact hkept ⟨fd, buf, count, h, hreq, hfd, htakes, (hfile h hin).symm⟩
  cases hstep with
  | write hreq hfd htakes hin hwrote =>
      exact hwrote.others n (hother hreq hfd htakes hin _ rfl)
  | writeFails hreq hfd htakes hin hfailed hwrote hword =>
      exact hwrote.others n (hother hreq hfd htakes hin _ rfl)
  | _ => rfl

theorem fileRun_contents {cuts : List (Action × List Event)}
    {view view' : Memory × FileStore FileHandle N}
    (hrun : Run (FileStep takes files) view cuts view') :
    (∀ h ∈ files, view'.2.file h = view.2.file h) ∧
      ∀ n, (∀ cut ∈ cuts, ¬ cut.1.WritesTo takes view.2.file n) →
        view'.2.contents n = view.2.contents n := by
  induction hrun with
  | nil => exact ⟨fun _ _ => rfl, fun _ _ => rfl⟩
  | @snoc v v' cuts cut _ hlast ih =>
      obtain ⟨hfile, hcontents⟩ := ih
      refine ⟨fun h hin => (hlast.file h hin).trans (hfile h hin), fun n hkept => ?_⟩
      rw [hlast.contents hfile (hkept cut (by simp)),
        hcontents n fun cut' hcut => hkept cut' (List.mem_append_left _ hcut)]

end Inversion

section ReadBack

variable {p : Platform} {files : Set FileHandle}
  {store : List Event → FileStore FileHandle N} {m m' : Machine} {handle handle' : FileHandle}

/-- What was written through one descriptor is read back through any descriptor of the same
file, when none of the three calls returns an errno and nothing that happens between opens,
closes or renumbers a descriptor, enumerates a directory or writes to that file. -/
theorem written_is_read_back {write seek read : SysCall} {between : List Action}
    {fd fd' : Int} {buf buf' count w₁ w₂ w₃ : UInt64} (hbounded : p.ReadsBounded)
    (hserves : ServesFiles p m.trace files store) (hopens : OpensApart p m.trace files store)
    (hsession : Run (TransferStep p files) m
      ([.call write w₁] ++ between ++ [.call seek w₂] ++ [.call read w₃]) m')
    (hwrite : dispatch write.no write.args = .ok (.fdWrite fd buf count))
    (hfd : ¬ (fd = 1 ∨ fd = 2)) (htakes : m.takes fd = some handle)
    (hseek : dispatch seek.no seek.args =
      .ok (.fdLseek fd' ((store m.trace).position handle) 0))
    (hread : dispatch read.no read.args = .ok (.fdRead fd' buf' count)) (hfd' : fd' ≠ 0)
    (htakes' : m.takes fd' = some handle')
    (hsame : (store m.trace).file handle' = (store m.trace).file handle)
    (hok : ¬ ErrnoWord w₁ ∧ ¬ ErrnoWord w₂ ∧ ¬ ErrnoWord w₃)
    (hbetween : ∀ act ∈ between, ¬ act.WritesTo m.takes (store m.trace).file
      ((store m.trace).file handle)) :
    w₃ = count ∧ m'.mem.bytes buf' count.toNat = m.mem.bytes buf count.toNat := by
  obtain ⟨cuts, hacts, _, hfiles⟩ := session_refines_files hbounded hserves hopens hsession
  have hsmall := dispatch_offset_lt hseek
  generalize store m.trace = s at hfiles hseek hsame hsmall hbetween
  generalize hlast : (m'.mem, store m'.trace) = last at hfiles
  -- the cuts of the four pieces of the session, and the states between them
  obtain ⟨cuts₃, reads, rfl, hcuts₃, hreads⟩ := List.map_eq_append_iff.mp hacts
  obtain ⟨cuts₂, seeks, rfl, hcuts₂, hseeks⟩ := List.map_eq_append_iff.mp hcuts₃
  obtain ⟨writes, rest, rfl, hwrites, rfl⟩ := List.map_eq_append_iff.mp hcuts₂
  obtain ⟨⟨_, readPart⟩, rfl, rfl⟩ := List.map_eq_singleton_iff.mp hreads
  obtain ⟨⟨_, seekPart⟩, rfl, rfl⟩ := List.map_eq_singleton_iff.mp hseeks
  obtain ⟨⟨_, writePart⟩, rfl, rfl⟩ := List.map_eq_singleton_iff.mp hwrites
  obtain ⟨view₃, hrun₃, hreads⟩ := hfiles.split
  obtain ⟨view₂, hrun₂, hseeks⟩ := hrun₃.split
  obtain ⟨view₁, hwrites, hrun₁⟩ := hrun₂.split
  obtain ⟨hin, _, hwrote⟩ := hwrites.single.write_inv hwrite hfd htakes hok.1
  obtain ⟨hin', rfl⟩ := hseeks.single.seek_inv hseek htakes' hok.2.1
  obtain ⟨hword, hview⟩ := hreads.single.read_inv hread hfd' htakes' hok.2.2
  -- the file of the handle holds at the end what the write left in it
  obtain ⟨hfile, hcontents⟩ := fileRun_contents hrun₁
  rw [hwrote.file] at hfile hcontents
  have hbytes : view₂.2.bytes handle' = view₁.2.bytes handle' := by
    rw [FileStore.bytes, FileStore.bytes, hfile handle' hin', hwrote.file, hsame]
    exact hcontents _ fun cut hcut => hbetween cut.1 (List.mem_map_of_mem hcut)
  have hplace : seekTo view₂.2 handle' (UInt64.ofInt (s.position handle)) =
      view₂.2.moveTo handle' (s.position handle) := by
    have hnat := Words.toNat_ofInt_natCast (show s.position handle < 2 ^ 64 by omega)
    have hnotEnd : UInt64.ofInt (s.position handle) ≠ seekToEnd := by
      intro hend
      rw [hend] at hnat
      change 2 ^ 64 - 1 = s.position handle at hnat
      omega
    rw [seekTo, if_neg hnotEnd, hnat]
  have hdata : (seekTo view₂.2 handle' (UInt64.ofInt (s.position handle))).ahead handle'
      count.toNat = m.mem.bytes buf count.toNat := by
    have hback := hwrote.readBack hsame
    rw [FileStore.ahead_moveTo, Memory.bytes_length] at hback
    rw [hplace, FileStore.ahead_moveTo, hbytes, hback]
  rw [hdata] at hword hview
  subst hlast
  rw [Prod.mk.injEq] at hview
  rw [Memory.bytes_length, UInt64.ofNat_toNat] at hword
  rw [hview.1]
  exact ⟨hword, Memory.bytes_store_of_length (Memory.bytes_length _ _ _)⟩

/-- Two files are open, and three letters lie in memory. -/
def lettersReady : Machine := { twoOpen with mem := twoOpen.mem.store 100 [104, 105, 33] }

/-- Three letters are written, a path is looked up, the buffer is overwritten, and the
letters are read back. -/
theorem written_is_read_back_letters :
    ∃ m', Run (TransferStep (fileServer threeBytes) {secondHandle}) lettersReady
        ([.call ⟨1, [5, 100, 3]⟩ 3] ++ [.call ⟨4, [0, 300]⟩ 0, .store 100 [0, 0, 0]] ++
          [.call ⟨8, [5, 0, 0]⟩ 0] ++ [.call ⟨0, [5, 200, 3]⟩ 3]) m' ∧
      m'.mem.bytes 200 3 = [104, 105, 33] := by
  obtain ⟨m', hrun⟩ : ∃ m', Run (TransferStep (fileServer threeBytes) {secondHandle}) lettersReady
      ([] ++ [.call ⟨1, [5, 100, 3]⟩ 3] ++ [.call ⟨4, [0, 300]⟩ 0] ++ [.store 100 [0, 0, 0]] ++
        [.call ⟨8, [5, 0, 0]⟩ 0] ++ [.call ⟨0, [5, 200, 3]⟩ 3]) m' :=
    ⟨_, (((((Run.nil _).snoc (transferStep_of_ends (c := ⟨1, [5, 100, 3]⟩) ⟨0, rfl⟩ rfl rfl rfl
        (Set.mem_singleton _))).snoc
      (transferStep_of_none (c := ⟨4, [0, 300]⟩) ⟨0, rfl⟩ rfl trivial rfl)).snoc
        (transferStep_store 100 [0, 0, 0])).snoc
          (transferStep_of_ends (c := ⟨8, [5, 0, 0]⟩) ⟨0, rfl⟩ rfl rfl rfl
            (Set.mem_singleton _))).snoc
            (transferStep_of_ends (c := ⟨0, [5, 200, 3]⟩) ⟨0, rfl⟩ rfl rfl rfl
              (Set.mem_singleton _))⟩
  have hapart : firstHandle ∉ ({secondHandle} : Set FileHandle) := by
    intro hin
    cases hin
  have htakes : lettersReady.takes 5 = some secondHandle := rfl
  refine ⟨m', hrun, (written_is_read_back (fileServer_readsBounded _)
    (fileServer_serves threeBytes _ _) (fileServer_opensApart threeBytes _ hapart) hrun rfl
    (by decide) htakes rfl rfl (by decide) htakes rfl (by decide) fun act hact => ?_).2⟩
  rcases List.mem_pair.mp hact with rfl | rfl
  · rintro ⟨fd, buf, count, handle, hdispatch, _⟩
    cases hdispatch
  · exact not_false

end ReadBack

section Copy

variable {p : Platform} {files : Set FileHandle}
  {store : List Event → FileStore FileHandle N} {m m' m'' : Machine}
  {handle handle' : FileHandle} {fd fd' : Int}

/-- One pass of a copy: what a read has given is written on. -/
inductive CopyPass (p : Platform) (fd fd' : Int) (k : UInt64) (m m'' : Machine) : Prop
  | intro (read write : SysCall) {buf count : UInt64} {m' : Machine}
      (hread : dispatch read.no read.args = .ok (.fdRead fd buf count))
      (hwrite : dispatch write.no write.args = .ok (.fdWrite fd' buf k))
      (hgives : read.Ends p m (.ok k m')) (htakes : write.Ends p m' (.ok k m''))
      (hok : ¬ ErrnoWord k) : CopyPass p fd fd' k m m''

/-- Two descriptors open on different files. -/
structure CopyFrom (files : Set FileHandle) (m : Machine) (s : FileStore FileHandle N)
    (fd fd' : Int) (handle handle' : FileHandle) : Prop where
  source : fd ≠ 0 ∧ m.takes fd = some handle ∧ handle ∈ files
  target : ¬ (fd' = 1 ∨ fd' = 2) ∧ m.takes fd' = some handle' ∧ handle' ∈ files
  apart : s.file handle ≠ s.file handle'

/-- So many bytes of the source have been copied, and the source has moved on. -/
def Copied (s s' : FileStore FileHandle N) (handle handle' : FileHandle) (count : Nat) : Prop :=
  ∃ t, s.Wrote handle' (s.ahead handle count) t ∧
    (s.ahead handle count).length = count ∧
    s' = t.moveTo handle (s.position handle + count)

theorem Copied.start (s : FileStore FileHandle N) (handle handle' : FileHandle) :
    Copied s s handle handle' 0 := by
  refine ⟨s, ?_, ?_, ?_⟩
  · rw [FileStore.ahead, List.take_zero]
    exact .refl s handle'
  · rw [FileStore.ahead, List.take_zero, List.length_nil]
  · rw [Nat.add_zero, FileStore.moveTo_self]

/-- What is ahead of the source is not touched by the copy. -/
theorem Copied.ahead {s s' : FileStore FileHandle N} {done : Nat}
    (happart : s.file handle ≠ s.file handle') (hcopied : Copied s s' handle handle' done)
    (count : Nat) :
    s'.ahead handle count = ((s.bytes handle).drop (s.position handle + done)).take count := by
  obtain ⟨t, hwrote, _, rfl⟩ := hcopied
  have hbytes : t.bytes handle = s.bytes handle := by
    rw [FileStore.bytes, FileStore.bytes, hwrote.file, hwrote.others _ happart]
  rw [FileStore.ahead_moveTo, hbytes]

/-- A read of the source and a write of what it gave copy so many bytes more. -/
theorem Copied.pass {s s' s'' : FileStore FileHandle N} {done count : Nat}
    (happart : s.file handle ≠ s.file handle') (hcopied : Copied s s' handle handle' done)
    (hwrote : (s'.afterRead handle count).Wrote handle' (s'.ahead handle count) s'') :
    Copied s s'' handle handle' (done + (s'.ahead handle count).length) := by
  have hahead := hcopied.ahead happart count
  obtain ⟨t, hfirst, hlength, rfl⟩ := hcopied
  have hne : handle ≠ handle' := fun hsame => happart (by rw [hsame])
  generalize hdata : (t.moveTo handle (s.position handle + done)).ahead handle count = data
    at hwrote hahead ⊢
  rw [FileStore.afterRead, hdata, FileStore.moveTo_position, FileStore.moveTo_moveTo] at hwrote
  obtain ⟨t', hsecond, rfl⟩ := hwrote.of_moveTo hne
  have hall : s.ahead handle (done + data.length) = s.ahead handle done ++ data := by
    have hdata' : ((s.bytes handle).drop (s.position handle + done)).take data.length = data := by
      rw [hahead, List.length_take, ← List.take_eq_take_min]
    rw [FileStore.ahead, List.take_add, List.drop_drop, hdata']
    rfl
  refine ⟨t', ?_, ?_, ?_⟩
  · rw [hall]
    exact hfirst.append hsecond
  · rw [hall, List.length_append, hlength]
  · rw [Nat.add_assoc]

/-- Where a copy stands: the table is as it was, and so many bytes are copied. -/
structure CopyAt (store : List Event → FileStore FileHandle N) (m : Machine)
    (handle handle' : FileHandle) (done : Nat) (m' : Machine) : Prop where
  grown : m.trace <+: m'.trace
  fds : m'.fds = m.fds
  copied : Copied (store m.trace) (store m'.trace) handle handle' done

/-- What a read through the source descriptor gives in a machine of the copy. -/
theorem CopyAt.read {done : Nat} {c : SysCall} {buf count word : UInt64}
    (hbounded : p.ReadsBounded) (hserves : ServesFiles p m.trace files store)
    (hfrom : CopyFrom files m (store m.trace) fd fd' handle handle')
    (hat : CopyAt store m handle handle' done m')
    (hread : dispatch c.no c.args = .ok (.fdRead fd buf count))
    (hends : c.Ends p m' (.ok word m'')) (hok : ¬ ErrnoWord word) :
    word = UInt64.ofNat ((store m'.trace).ahead handle count.toNat).length ∧
      m''.mem = m'.mem.store buf ((store m'.trace).ahead handle count.toNat) ∧
      store m''.trace = (store m'.trace).afterRead handle count.toNat ∧
      m''.fds = m.fds ∧ m.trace <+: m''.trace := by
  obtain ⟨hfd, htakes, hin⟩ := hfrom.source
  rw [← takes_of_fds hat.fds] at htakes
  have hstep := transferStep_of_ends hends hread (if_neg hfd) htakes hin
  obtain ⟨part, htrace⟩ := hstep.2.trace
  have hfile := TransferStep.fileStep_of_open hbounded hserves hat.grown hends hread (if_neg hfd)
    htakes hin htrace.symm
  obtain ⟨hword, hview⟩ := hfile.read_inv hread hfd htakes hok
  rw [Prod.mk.injEq] at hview
  exact ⟨hword, hview.1, hview.2, hstep.fds.trans hat.fds, hat.grown.trans hstep.2.trace⟩

theorem CopyAt.pass {done : Nat} {k : UInt64} (hbounded : p.ReadsBounded)
    (hserves : ServesFiles p m.trace files store)
    (hfrom : CopyFrom files m (store m.trace) fd fd' handle handle')
    (hat : CopyAt store m handle handle' done m')
    (hpass : CopyPass p fd fd' k m' m'') :
    CopyAt store m handle handle' (done + k.toNat) m'' := by
  obtain ⟨read, write, hread, hwrite, hgives, htakes, hok⟩ := hpass
  rename_i buf count m₁
  obtain ⟨hword, hmem, hstore, hfds, hgrown⟩ := hat.read hbounded hserves hfrom hread hgives hok
  obtain ⟨hfd', htakes', hin'⟩ := hfrom.target
  rw [← takes_of_fds hfds] at htakes'
  have hstep := transferStep_of_ends htakes hwrite (if_neg hfd') htakes' hin'
  obtain ⟨part, htrace⟩ := hstep.2.trace
  have hfile := TransferStep.fileStep_of_open hbounded hserves hgrown htakes hwrite (if_neg hfd')
    htakes' hin' htrace.symm
  obtain ⟨_, _, hwrote⟩ := hfile.write_inv hwrite hfd' htakes' hok
  have hlength : ((store m'.trace).ahead handle count.toNat).length = k.toNat := by
    have hfits : ((store m'.trace).ahead handle count.toNat).length ≤ count.toNat :=
      List.length_take_le _ _
    have hbound := count.toNat_lt
    rw [hword, UInt64.toNat_ofNat', Nat.mod_eq_of_lt (by omega)]
  rw [hmem, Memory.bytes_store_of_length hlength, hstore] at hwrote
  refine ⟨hgrown.trans hstep.2.trace, hstep.fds.trans hfds, ?_⟩
  rw [← hlength]
  exact hat.copied.pass hfrom.apart hwrote

theorem CopyAt.loop {ks : List UInt64} (hbounded : p.ReadsBounded)
    (hserves : ServesFiles p m.trace files store)
    (hfrom : CopyFrom files m (store m.trace) fd fd' handle handle')
    (hloop : Run (CopyPass p fd fd') m ks m') :
    CopyAt store m handle handle' (ks.map UInt64.toNat).sum m' := by
  induction hloop with
  | nil => exact ⟨List.prefix_refl _, rfl, Copied.start _ _ _⟩
  | snoc _ hlast ih =>
      rw [List.map_append, List.sum_append, List.map_singleton, List.sum_singleton]
      exact ih.pass hbounded hserves hfrom hlast

/-- The loop that reads from one descriptor and writes what it got to another, until a read
gives nothing, has copied the rest of the one file over the other from its position on,
and both have moved on to the end of the copy. -/
theorem copy_loop_copies_rest {ks : List UInt64} {last : SysCall} {buf count : UInt64}
    (hbounded : p.ReadsBounded) (hserves : ServesFiles p m.trace files store)
    (hfrom : CopyFrom files m (store m.trace) fd fd' handle handle')
    (hloop : Run (CopyPass p fd fd') m ks m')
    (hread : dispatch last.no last.args = .ok (.fdRead fd buf count)) (hcount : count ≠ 0)
    (hends : last.Ends p m' (.ok 0 m'')) :
    ∃ t, (store m.trace).Wrote handle'
        (((store m.trace).bytes handle).drop ((store m.trace).position handle)) t ∧
      (ks.map UInt64.toNat).sum =
        (((store m.trace).bytes handle).drop ((store m.trace).position handle)).length ∧
      store m''.trace = t.moveTo handle ((store m.trace).position handle +
        (ks.map UInt64.toNat).sum) := by
  have hat := CopyAt.loop hbounded hserves hfrom hloop
  obtain ⟨hword, _, hstore, _, _⟩ := hat.read hbounded hserves hfrom hread hends (by decide)
  have hnothing : (store m'.trace).ahead handle count.toNat = [] := by
    have hfits : ((store m'.trace).ahead handle count.toNat).length ≤ count.toNat :=
      List.length_take_le _ _
    have hbound := count.toNat_lt
    have hzero := congrArg UInt64.toNat hword
    rw [UInt64.toNat_ofNat', Nat.mod_eq_of_lt (by omega)] at hzero
    exact List.eq_nil_of_length_eq_zero hzero.symm
  have hpositive : 0 < count.toNat :=
    Nat.pos_of_ne_zero fun hzero => hcount (UInt64.toNat.inj hzero)
  have hrest := hat.copied.ahead hfrom.apart count.toNat
  obtain ⟨t, hwrote, hlength, hmoved⟩ := hat.copied
  rw [hnothing] at hrest
  rw [FileStore.afterRead, hnothing, List.length_nil, Nat.add_zero, FileStore.moveTo_self,
    hmoved] at hstore
  have hend : ((store m.trace).bytes handle).drop ((store m.trace).position handle +
      (ks.map UInt64.toNat).sum) = [] := by
    rcases List.take_eq_nil_iff.mp hrest.symm with hzero | hnil
    · exact absurd hzero (Nat.ne_of_gt hpositive)
    · exact hnil
  have hall : (store m.trace).ahead handle (ks.map UInt64.toNat).sum =
      ((store m.trace).bytes handle).drop ((store m.trace).position handle) := by
    rw [← List.drop_drop, List.drop_eq_nil_iff] at hend
    exact List.take_of_length_le hend
  rw [hall] at hwrote hlength
  exact ⟨t, hwrote, hlength.symm, hstore⟩

/-- The three bytes of the one file are copied to the other, two and one at a time. -/
theorem copy_loop_copies_rest_three :
    ∃ m' m'', Run (CopyPass (fileServer threeBytes) 4 5) twoOpen ([] ++ [2] ++ [1]) m' ∧
      SysCall.Ends (fileServer threeBytes) ⟨0, [4, 200, 2]⟩ m' (.ok 0 m'') ∧
      ∃ t, threeBytes.Wrote secondHandle [97, 98, 99] t ∧
        m''.trace.foldl fileAfter threeBytes = t.moveTo firstHandle 3 := by
  obtain ⟨m', m'', hloop, hends⟩ : ∃ m' m'',
      Run (CopyPass (fileServer threeBytes) 4 5) twoOpen ([] ++ [2] ++ [1]) m' ∧
        SysCall.Ends (fileServer threeBytes) ⟨0, [4, 200, 2]⟩ m' (.ok 0 m'') :=
    ⟨_, _, ((Run.nil _).snoc (.intro ⟨0, [4, 200, 2]⟩ ⟨1, [5, 200, 2]⟩
      rfl rfl ⟨0, rfl⟩ ⟨0, rfl⟩ (by decide))).snoc
        (.intro ⟨0, [4, 200, 2]⟩ ⟨1, [5, 200, 1]⟩ rfl rfl ⟨0, rfl⟩ ⟨0, rfl⟩ (by decide)),
      ⟨0, rfl⟩⟩
  have hfrom : CopyFrom Set.univ twoOpen threeBytes 4 5 firstHandle secondHandle :=
    ⟨⟨by decide, rfl, Set.mem_univ _⟩, ⟨by decide, rfl, Set.mem_univ _⟩, by decide⟩
  obtain ⟨t, hwrote, _, hstore⟩ := copy_loop_copies_rest (fileServer_readsBounded _)
    (fileServer_serves threeBytes _ _) hfrom hloop rfl (by decide) hends
  exact ⟨m', m'', hloop, hends, t, hwrote, hstore⟩

end Copy

end UefiLinux
