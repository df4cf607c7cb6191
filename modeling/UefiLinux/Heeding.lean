/-
Handlers that answer for their firmware calls: a call whose failure they do not drop makes
them end with a negated errno.
-/
import UefiLinux.Enumeration
import UefiLinux.Requests

namespace UefiLinux

open Progress Journal

/-- The results that the libc wrappers take for a negated errno. -/
def IsErrno (v : Int) : Prop := -4095 ≤ v ∧ v ≤ -1

instance (v : Int) : Decidable (IsErrno v) := inferInstanceAs (Decidable (_ ∧ _))

theorem Errno.neg_isErrno (e : Errno) : IsErrno e.neg := by
  have hrange := e.neg_range
  exact ⟨by omega, hrange.2⟩

theorem failure_isErrno (status : EfiStatus) : IsErrno (failure status) :=
  (efiStatusToErrno status).neg_isErrno

/-- The file, time, stall, pool and output calls. -/
def Call.reportable : Call → Bool
  | .waitForEvent | .readKeyStroke | .exit _ | .resetSystem .. => false
  | _ => true

/-- A file, time, stall, pool or output call that returned an error. -/
def Event.Fails (e : Event) : Prop :=
  e.call.reportable = true ∧ efiError e.reply.status = true

/-- The journal with no table beside it. -/
def journal : View Machine Event PUnit where
  log := Machine.trace
  core := fun _ => ⟨⟩

/-- A failing call whose status is not among the dropped ones. -/
def Event.Counts (drops : Call → Bool) (e : Event) : Prop :=
  e.Fails ∧ drops e.call = false

/-- A program none of whose calls counts as a failure. -/
def Unfailing {α : Type} (drops : Call → Bool) (x : M α) : Prop :=
  Along (Quiet journal fun e => ¬ e.Counts drops) x

/-- A grant of everything but the calls whose failure would count. -/
def quietGrant (drops : Call → Bool) : Grant where
  calls := { call | call.reportable = false ∨ drops call = true }
  writes := Set.univ
  reads := Set.univ
  table := True

/-- A program that answers a failure that counts with an errno. -/
def Heeding (drops : Call → Bool) (x : M Int) : Prop :=
  Answers Machine.trace (Event.Counts drops) IsErrno x

section Rules

variable {α β : Type} {drops : Call → Bool}

/-- A change of anything but the journal. -/
theorem Unfailing.modify {f : Machine → Machine} (htrace : ∀ m, (f m).trace = m.trace) :
    Unfailing drops (modify f : M PUnit) :=
  Along.modify fun m => quiet_of_eq rfl (htrace m)

theorem Unfailing.pure (a : α) : Unfailing drops (pure a : M α) :=
  Along.pure a

theorem Unfailing.ite {c : Prop} [Decidable c] {x y : M α} (hx : Unfailing drops x)
    (hy : Unfailing drops y) : Unfailing drops (if c then x else y) :=
  Along.ite hx hy

theorem Unfailing.bind {x : M α} {f : α → M β} (hx : Unfailing drops x)
    (hf : ∀ a, Unfailing drops (f a)) : Unfailing drops (x >>= f) :=
  Along.bind hx hf

variable {p : Platform}

theorem Granted.unfailing {x : M α} (hx : Granted p (quietGrant drops) x) :
    Unfailing drops x := by
  intro m
  obtain ⟨new, htrace, hnew⟩ := (hx.keeps m).calls
  refine ⟨rfl, new, htrace, ?_⟩
  rintro e he ⟨⟨hreportable, _⟩, hkept⟩
  rcases hnew e he with hnot | hdropped
  · exact absurd (hreportable.symm.trans hnot) (by decide)
  · exact absurd (hkept.symm.trans hdropped) (by decide)

theorem storeBytes_unfailing (address : UInt64) (bytes : List UInt8) :
    Unfailing drops (storeBytes address bytes) :=
  Unfailing.modify fun _ => rfl

theorem bstrToWstr_unfailing (input : UInt64) : Unfailing drops (bstrToWstr input) := by
  intro m
  rw [bstrToWstr_run]
  exact quiet_of_eq rfl rfl

theorem fdsSlot_unfailing (index : Int) : Unfailing drops (fdsSlot index) := by
  unfold fdsSlot
  split
  · exact Along.pure _
  · exact Along.throw _

theorem fdsRead_unfailing (index : Int) : Unfailing drops (fdsRead index) :=
  (fdsSlot_unfailing index).bind fun _ => Along.bind Along.get fun _ => Along.pure _

theorem fdsWrite_unfailing (index : Int) (value : Option FileHandle) :
    Unfailing drops (fdsWrite index value) :=
  (fdsSlot_unfailing index).bind fun _ => Unfailing.modify fun _ => rfl

variable (p)

/-- A call hands its own failure over as the status of its reply. -/
theorem uefiCallWrapper_answers (call : Call) :
    Answers Machine.trace (Event.Counts drops)
      (fun reply => efiError reply.status = true) (uefiCallWrapper p call) := by
  intro m reply m' hrun
  obtain ⟨hreply, hm⟩ := uefiCallWrapper_eq_ok p hrun
  refine ⟨[p.answer m call], by rw [hm, Platform.after_trace], ?_⟩
  rintro ⟨e, he, ⟨⟨_, herror⟩, _⟩⟩
  rw [List.mem_singleton.mp he] at herror
  rw [hreply]
  exact herror

theorem Granted.heeding {x : M Int} (hx : Granted p (quietGrant drops) x) : Heeding drops x :=
  Answers.of_quiet hx.unfailing

theorem Heeding.pure (v : Int) : Heeding drops (pure v : M Int) :=
  Answers.pure v

theorem Heeding.ite {c : Prop} [Decidable c] {x y : M Int} (hx : Heeding drops x)
    (hy : Heeding drops y) : Heeding drops (if c then x else y) :=
  Answers.ite hx hy

theorem Heeding.after {x : M α} {f : α → M Int} (hx : Unfailing drops x)
    (hf : ∀ a, Heeding drops (f a)) : Heeding drops (x >>= f) :=
  Answers.after hx hf

/-- A call whose failure the rest of the handler turns into an errno. -/
theorem Heeding.call {call : Call} {f : Reply → M Int} (hf : ∀ r, Heeding drops (f r))
    (herror : ∀ r, efiError r.status = true → Yields IsErrno (f r)) :
    Heeding drops (uefiCallWrapper p call >>= f) :=
  (uefiCallWrapper_answers p call).bind hf herror

/-- A call whose status is checked at once. -/
theorem Heeding.checked {call : Call} {f : Reply → M Int}
    (hf : ∀ r, Heeding drops (f r)) :
    Heeding drops (uefiCallWrapper p call >>= fun r =>
      if efiError r.status = true then Pure.pure (failure r.status) else f r) := by
  apply Heeding.call
  · intro r
    exact (Heeding.pure _).ite (hf r)
  · intro r herror
    rw [if_pos herror]
    exact Yields.pure (failure_isErrno r.status)

/-- The guard makes no call. -/
theorem Heeding.withOpenFd {fd : Int} {taken : FileHandle → M Int}
    (htaken : ∀ handle, Heeding drops (taken handle)) :
    Heeding drops (withOpenFd fd taken) := by
  unfold UefiLinux.withOpenFd
  apply (Heeding.pure _).ite
  apply Heeding.after (fdsRead_unfailing _)
  intro slot
  cases slot with
  | none => exact Heeding.pure _
  | some handle => exact htaken handle

theorem Heeding.withFd {fd : Int} {taken : FileHandle → M Int}
    (htaken : ∀ handle, Heeding drops (taken handle)) :
    Heeding drops (withFd fd taken) := by
  unfold UefiLinux.withFd
  exact (Heeding.pure _).ite (Heeding.withOpenFd htaken)

end Rules

section Handlers

variable (p : Platform) {drops : Call → Bool}

theorem fdReadTaken_heeding (buf count : UInt64) (handle : FileHandle) :
    Heeding drops (fdReadTaken p buf count handle) := by
  unfold fdReadTaken
  apply Heeding.call
  · intro read
    exact (Heeding.after (storeBytes_unfailing _ _)
      fun _ => (Heeding.pure _).ite (Heeding.pure _))
  · intro read herror
    apply Yields.bind
    intro _
    rw [if_pos herror]
    exact Yields.pure (failure_isErrno read.status)

theorem consoleWritePass_unfailing (buf count : UInt64) (cursor : StrCursor) :
    Unfailing drops (consoleWritePass buf count cursor) :=
  (Unfailing.pure _).ite (Along.bind Along.get fun _ => Unfailing.pure _)

theorem fdWriteConsole_heeding (fuel : Nat) (size buf count : UInt64) :
    Heeding drops (fdWriteConsole p fuel size buf count) := by
  unfold fdWriteConsole
  apply Heeding.after (Along.loop (consoleWritePass_unfailing buf count) fuel _)
  intro cursor
  split
  · exact Answers.throw _
  · exact Heeding.checked p fun _ => Heeding.pure _

theorem fdWriteTaken_heeding (buf count : UInt64) (handle : FileHandle) :
    Heeding drops (fdWriteTaken p buf count handle) :=
  Heeding.after Along.get fun _ => Heeding.checked p fun _ => Heeding.pure _

theorem fdWrite_heeding (fuel : Nat) (fd : Int) (buf count : UInt64) :
    Heeding drops (fdWrite p fuel fd buf count) := by
  unfold fdWrite fdWriteSized
  exact (Heeding.pure _).ite ((fdWriteConsole_heeding p fuel _ buf count).ite
    (Heeding.withOpenFd fun handle => fdWriteTaken_heeding p buf count handle))

theorem fdClose_heeding (fd : Int) : Heeding drops (fdClose p fd) := by
  apply Heeding.withFd
  intro handle
  unfold fdCloseTaken
  apply Heeding.after (fdsWrite_unfailing _ _)
  intro _
  apply Heeding.after Along.get
  intro m
  exact (Heeding.checked p fun _ => Heeding.pure _).ite (Heeding.pure _)

theorem fdFsync_heeding (fd : Int) : Heeding drops (fdFsync p fd) :=
  Heeding.withFd fun _ => Heeding.checked p fun _ => Heeding.pure _

theorem fdDup_heeding (oldFd : Int) : Heeding drops (fdDup oldFd) := by
  apply Heeding.withFd
  intro handle
  unfold fdDupTaken
  apply Heeding.after Along.get
  intro m
  exact (Heeding.pure _).ite
    (Heeding.after (fdsWrite_unfailing _ _) fun _ => Heeding.pure _)

theorem fdDup2Rest_heeding (oldFd newFd : Int) :
    Heeding drops (fdDup2Rest oldFd newFd) := by
  unfold fdDup2Rest
  apply Heeding.after (fdsRead_unfailing _)
  intro slot
  cases slot with
  | none => exact Heeding.pure _
  | some handle =>
      exact (Heeding.pure _).ite
        (Heeding.after (fdsWrite_unfailing _ _) fun _ => Heeding.pure _)

/-- A failing close inside `fd_dup2` is passed on, since every errno is negative. -/
theorem fdDup2_heeding (oldFd newFd : Int) : Heeding drops (fdDup2 p oldFd newFd) := by
  unfold fdDup2
  apply (Heeding.pure _).ite
  apply (Heeding.pure _).ite
  apply Heeding.after (fdsRead_unfailing _)
  intro slot
  apply Heeding.ite
  · apply Answers.bind (fdClose_heeding p newFd)
    · intro res
      exact (Heeding.pure _).ite (fdDup2Rest_heeding oldFd newFd)
    · intro res herrno
      have hneg : res < 0 := by
        have hhigh := herrno.2
        omega
      rw [if_pos hneg]
      exact Yields.pure herrno
  · exact fdDup2Rest_heeding oldFd newFd

theorem seekResult_isErrno {status : EfiStatus} (herror : efiError status = true)
    (offset64 : UInt64) : IsErrno (seekResult status offset64) := by
  rw [seekResult, if_pos herror]
  exact failure_isErrno status

theorem seekCurrent_heeding (handle : FileHandle) (offset : Int) :
    Heeding drops (seekCurrent p handle offset) := by
  apply Heeding.checked
  intro got
  exact Heeding.call p (fun _ => Heeding.pure _)
    fun _ herror => Yields.pure (seekResult_isErrno herror _)

theorem fdLseek_heeding (fd offset whence : Int) :
    Heeding drops (fdLseek p fd offset whence) := by
  apply Heeding.withFd
  intro handle
  unfold fdLseekTaken
  apply Heeding.ite
  · exact Heeding.call p (fun _ => Heeding.pure _)
      fun _ herror => Yields.pure (seekResult_isErrno herror _)
  · apply Heeding.ite
    · exact Heeding.checked p fun _ => seekCurrent_heeding p handle offset
    · exact (seekCurrent_heeding p handle offset).ite
        (Heeding.after Along.get fun _ => Heeding.pure _)

theorem storeDirent_unfailing (dire : UInt64) (name : List UInt8) :
    Unfailing drops (storeDirent dire name) := by
  intro m
  rw [storeDirent_run]
  exact quiet_of_eq rfl rfl

theorem direntLoop_heeding (handle : FileHandle) (dire : UInt64) (left : Nat)
    (fres : UInt64) : Heeding drops (direntLoop p handle dire left fres) := by
  induction left generalizing fres with
  | zero => exact Heeding.pure _
  | succ left ih =>
      apply Heeding.checked
      intro read
      split
      · exact Answers.throw _
      · exact Heeding.after (storeDirent_unfailing _ _) fun _ => ih _

theorem fdGetdents64_heeding (fd : Int) (dirp : UInt64) (count : Int) :
    Heeding drops (fdGetdents64 p fd dirp count) :=
  Heeding.withFd fun handle => direntLoop_heeding p handle _ _ _

theorem fdEfiStat_heeding (buf : UInt64) (handle : FileHandle) :
    Heeding drops (fdEfiStat p buf handle) := by
  apply Heeding.after (Granted.unfailing (storeStatHeader_granted (Set.subset_univ _)))
  intro _
  apply Heeding.checked
  intro got
  exact Heeding.after
    (Granted.unfailing (storeStatInfo_granted (p := p) (Set.subset_univ _) got.info))
    fun _ => Heeding.pure _

theorem fdStat_heeding (path buf : UInt64) : Heeding drops (fdStat p path buf) := by
  apply Heeding.after (bstrToWstr_unfailing path)
  intro widePath
  exact Heeding.checked p fun opened => fdEfiStat_heeding p buf opened.handle

theorem timeSleep_heeding (duration : UInt64) : Heeding drops (timeSleep p duration) :=
  Heeding.after Along.get fun _ => Heeding.checked p fun _ => Heeding.pure _

theorem fdSelect_heeding (nfds : Int) (readfds writefds exceptfds timeout : UInt64) :
    Heeding drops (fdSelect p nfds readfds writefds exceptfds timeout) :=
  (Heeding.pure _).ite (timeSleep_heeding p timeout)

theorem memMunmap_heeding (addr length : UInt64) :
    Heeding drops (memMunmap p addr length) :=
  Heeding.checked p fun _ => Heeding.pure _

end Handlers

/-- A result word that reads as a negated errno. -/
def ErrnoWord (word : UInt64) : Prop := IsErrno (longArg word)

instance (word : UInt64) : Decidable (ErrnoWord word) :=
  inferInstanceAs (Decidable (IsErrno _))

theorem errnoWord_ofInt_iff {v : Int} (hlow : -2 ^ 63 ≤ v) (hhigh : v < 2 ^ 63) :
    ErrnoWord (UInt64.ofInt v) ↔ IsErrno v := by
  rw [ErrnoWord, longArg_ofInt hlow hhigh]

theorem errnoWord_of_isErrno {v : Int} (herrno : IsErrno v) :
    ErrnoWord (UInt64.ofInt v) := by
  obtain ⟨hlow, hhigh⟩ := herrno
  exact (errnoWord_ofInt_iff (by omega) (by omega)).mpr ⟨hlow, hhigh⟩

/-- A handler that answers for entries with results in `bad` does so as a word. -/
theorem answers_asWord {fails : Event → Prop} {bad : Int → Prop}
    {badWord : UInt64 → Prop} {x : M Int} (hx : Answers Machine.trace fails bad x)
    (hword : ∀ v, bad v → badWord (UInt64.ofInt v)) :
    Answers Machine.trace fails badWord (asWord x) := by
  intro m word m' hrun
  obtain ⟨v, hv, rfl⟩ := asWord_eq_ok.mp hrun
  obtain ⟨new, hlog, hbad⟩ := hx m v m' hv
  exact ⟨new, hlog, fun hfails => hword v (hbad hfails)⟩

theorem Heeding.asWord {drops : Call → Bool} {x : M Int} (hx : Heeding drops x) :
    Answers Machine.trace (Event.Counts drops) ErrnoWord (asWord x) :=
  answers_asWord hx fun _ => errnoWord_of_isErrno

/-- The calls whose status the handler of a request does not look at. -/
def Request.drops (r : Request) (call : Call) : Bool :=
  match r, call with
  | .fdRead fd _ _, .stall _ => decide (fd = 0)
  | .fdRead fd _ _, .outputString _ => decide (fd = 0)
  | .fdOpen .., .setPosition .. => true
  | .fdOpen .., .setInfo .. => true
  | .timeGettimeofday _, .getTime => true
  | .powerReboot .., .outputString _ => true
  | _, _ => false

section Dropping

variable (p : Platform)

theorem fdRead_heeding (fuel : Nat) (fd : Int) (buf count : UInt64) :
    Heeding (Request.fdRead fd buf count).drops (fdRead p fuel fd buf count) := by
  unfold fdRead
  apply (Heeding.pure _).ite
  by_cases hconsole : fd = 0
  · subst hconsole
    rw [if_pos rfl]
    apply Granted.heeding (p := p)
    refine fdReadConsole_granted ?_ ?_ ?_ ?_ (Set.subset_univ _) fuel
    · exact Or.inr rfl
    · exact Or.inl rfl
    · exact Or.inl rfl
    · exact fun _ => Or.inr rfl
  · rw [if_neg hconsole]
    exact Heeding.withOpenFd fun handle => fdReadTaken_heeding p buf count handle

theorem openEffects_unfailing (pathname : UInt64) (flags : UInt32) (handle : FileHandle)
    (info : EfiFileInfo) : Unfailing (Request.fdOpen pathname flags).drops
      (openEffects p handle flags info) := by
  apply Granted.unfailing (p := p)
  refine openEffects_granted ?_ ?_ info
  · exact fun _ => Or.inr rfl
  · exact fun _ _ _ => Or.inr rfl

theorem fdOpen_heeding (pathname : UInt64) (flags : UInt32) :
    Heeding (Request.fdOpen pathname flags).drops (fdOpen p pathname flags) := by
  unfold fdOpen
  apply Heeding.after Along.get
  intro m
  apply (Heeding.pure _).ite
  apply Heeding.after (bstrToWstr_unfailing pathname)
  intro path
  apply Heeding.checked
  intro opened
  apply Heeding.checked
  intro got
  exact Heeding.after (openEffects_unfailing p pathname flags opened.handle got.info)
    fun _ => Heeding.pure _

theorem timeGettimeofday_heeding (tv : UInt64) :
    Heeding (Request.timeGettimeofday tv).drops (timeGettimeofday p tv) := by
  apply Granted.heeding (p := p)
  exact timeGettimeofday_granted (Or.inr rfl) (Set.subset_univ _)

variable {magic1 magic2 cmd : UInt32} {arg : UInt64}

theorem announce_unfailing (text : List UInt16) :
    Unfailing (Request.powerReboot magic1 magic2 cmd arg).drops (announce p text) := by
  apply Granted.unfailing (p := p)
  exact announce_granted (Or.inr rfl)

theorem resetAndReturn_heeding {drops : Call → Bool} (kind : ResetType) (size : UInt64)
    (text : String) : Heeding drops (resetAndReturn p kind size text) := by
  apply Granted.heeding (p := p)
  exact resetAndReturn_granted (Or.inl rfl)

theorem powerReboot_heeding :
    Heeding (Request.powerReboot magic1 magic2 cmd arg).drops
      (powerReboot p magic1 magic2 cmd arg) := by
  unfold powerReboot
  apply (Heeding.pure _).ite
  apply (Heeding.pure _).ite
  apply Heeding.ite
  · exact Heeding.after (announce_unfailing p _) fun _ => Answers.throw _
  · apply (Heeding.pure _).ite
    apply (Heeding.pure _).ite
    apply Heeding.ite
    · exact Heeding.after (announce_unfailing p _) fun _ => resetAndReturn_heeding p _ _ _
    · apply Heeding.ite
      · exact Heeding.after (announce_unfailing p _)
          fun _ => resetAndReturn_heeding p _ _ _
      · apply Heeding.ite
        · apply Heeding.after (announce_unfailing p _)
          intro _
          apply Heeding.after (bstrToWstr_unfailing arg)
          intro command
          apply Heeding.after (announce_unfailing p command)
          intro _
          exact Heeding.after (announce_unfailing p _)
            fun _ => resetAndReturn_heeding p _ _ _
        · exact Heeding.pure _

theorem procKill_heeding {drops : Call → Bool} (pid sig : Int) :
    Heeding drops (procKill p pid sig) := by
  apply Granted.heeding (p := p)
  exact procKill_granted fun _ _ => Or.inl rfl

theorem memMmap_heeding {drops : Call → Bool} (addr length : UInt64)
    (prot flags fd offset : Int) :
    Answers Machine.trace (Event.Counts drops) ErrnoWord
      (memMmap p addr length prot flags fd offset) := by
  unfold memMmap
  apply (Answers.pure _).ite
  apply (uefiCallWrapper_answers p _).bind
  · intro allocated
    exact (Answers.pure _).ite (Answers.pure _)
  · intro allocated herror
    rw [if_pos herror]
    exact Yields.pure (errnoWord_of_isErrno (failure_isErrno allocated.status))

/-- Every request answers a failure that its handler does not drop with an errno. -/
theorem Request.exec_heeding (fuel : Nat) (r : Request) :
    Answers Machine.trace (Event.Counts r.drops) ErrnoWord (r.exec p fuel) := by
  cases r with
  | fdRead fd buf count => exact (fdRead_heeding p fuel fd buf count).asWord
  | fdWrite fd buf count => exact (fdWrite_heeding p fuel fd buf count).asWord
  | fdOpen pathname flags => exact (fdOpen_heeding p pathname flags).asWord
  | fdClose fd => exact (fdClose_heeding p fd).asWord
  | fdStat path buf => exact (fdStat_heeding p path buf).asWord
  | fdFstat fd buf =>
      exact (Heeding.withFd fun handle => fdEfiStat_heeding p buf handle).asWord
  | fdLseek fd offset whence => exact (fdLseek_heeding p fd offset whence).asWord
  | memMmap addr length prot flags fd offset =>
      exact memMmap_heeding p addr length prot flags fd offset
  | memMunmap addr length => exact (memMunmap_heeding p addr length).asWord
  | fdSelect nfds readfds writefds exceptfds timeout =>
      exact (fdSelect_heeding p nfds readfds writefds exceptfds timeout).asWord
  | fdDup oldFd => exact (fdDup_heeding oldFd).asWord
  | fdDup2 oldFd newFd => exact (fdDup2_heeding p oldFd newFd).asWord
  | procExit status =>
      have hexit : Unfailing (Request.procExit status).drops
          (UefiLinux.procExit p status) := by
        apply Granted.unfailing (p := p)
        exact procExit_granted (Or.inl rfl)
      exact Answers.after hexit fun _ => Answers.pure _
  | fdFsync fd => exact (fdFsync_heeding p fd).asWord
  | procKill pid sig => exact (procKill_heeding p pid sig).asWord
  | timeGettimeofday tv => exact (timeGettimeofday_heeding p tv).asWord
  | powerReboot magic1 magic2 cmd arg => exact (powerReboot_heeding p).asWord
  | fdGetdents64 fd dirp count => exact (fdGetdents64_heeding p fd dirp count).asWord
  | constant value => exact Answers.pure _
  | notPermitted => exact Answers.pure _
  | notImplemented => exact Answers.pure _

end Dropping

end UefiLinux
