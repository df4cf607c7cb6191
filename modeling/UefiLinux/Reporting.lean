/-
Which failures reach the caller.  A failing firmware call is reported when the
result of the system call is a negated errno; most handlers look at every status
they are given, four drop some, and two turn a request down without an errno.
-/
import UefiLinux.Heeding

namespace UefiLinux

open Progress Journal

/-- What a libc wrapper makes of a result word: the value it returns, and the errno
if it sets one. -/
structure LibcReturn where
  value : Int
  errno : Option Int
deriving DecidableEq, Repr

/-- The end of a wrapper that returns an integer, given the result as that type. -/
def libcChecked (ret : Int) : LibcReturn :=
  if ret < 0 then ⟨-1, some (-ret)⟩ else ⟨ret, none⟩

/-- The wrappers with `int ret`. -/
def libcInt (word : UInt64) : LibcReturn := libcChecked (intArg word)

/-- The wrappers with `ssize_t ret` or `off_t ret`. -/
def libcLong (word : UInt64) : LibcReturn := libcChecked (longArg word)

/-- The end of `mmap`; `MAP_FAILED` is the pointer -1. -/
def libcPointer (word : UInt64) : LibcReturn :=
  if UInt64.ofInt (-4095) ≤ word then ⟨-1, some (-longArg word)⟩ else ⟨longArg word, none⟩

theorem longArg_eq_toNat_bmod (word : UInt64) :
    longArg word = Int.bmod word.toNat (2 ^ 64) :=
  BitVec.toInt_eq_toNat_bmod word.toBitVec

theorem intArg_eq_toNat_bmod (word : UInt64) :
    intArg word = Int.bmod word.toNat (2 ^ 32) := by
  change (word.toBitVec.setWidth 32).toInt = _
  rw [BitVec.toInt_setWidth]
  rfl

/-- Every kind of wrapper turns an errno word into -1 and sets errno. -/
theorem ErrnoWord.libc {word : UInt64} (herrno : ErrnoWord word) :
    libcInt word = ⟨-1, some (-longArg word)⟩ ∧
      libcLong word = ⟨-1, some (-longArg word)⟩ ∧
      libcPointer word = ⟨-1, some (-longArg word)⟩ := by
  obtain ⟨hlow, hhigh⟩ := herrno
  have hlong := longArg_eq_toNat_bmod word
  have hbound := word.toNat_lt
  rw [Int.bmod_def] at hlong
  have hnat : (word.toNat : Int) = 2 ^ 64 + longArg word := by omega
  have hint : intArg word = longArg word := by
    rw [intArg_eq_toNat_bmod, Int.bmod_def]
    omega
  have hpointer : UInt64.ofInt (-4095) ≤ word := by
    rw [UInt64.le_iff_toNat_le]
    change 2 ^ 64 - 4095 ≤ word.toNat
    omega
  refine ⟨?_, ?_, ?_⟩
  · rw [libcInt, hint, libcChecked, if_pos (by omega)]
  · rw [libcLong, libcChecked, if_pos (by omega)]
  · rw [libcPointer, if_pos hpointer]

/-- The guard of the descriptor handlers does not let the descriptor pass. -/
def Machine.Refuses (m : Machine) (fd : Int) : Prop :=
  16 < fd ∨ m.openHandle fd = none

/-- The three directions `fd_lseek` knows. -/
def KnownWhence (whence : Int) : Prop := whence = 0 ∨ whence = 1 ∨ whence = 2

/-- The commands that `power_reboot` carries out. -/
def rebootCommands : List UInt32 :=
  [linuxRebootCmdHalt, linuxRebootCmdPowerOff, linuxRebootCmdRestart,
    linuxRebootCmdRestart2]

/-- A request that its handler does not carry out: it is unsupported or invalid in
the machine it is made in. -/
def Request.TurnedDown (p : Platform) (m : Machine) : Request → Prop
  | .fdRead fd _ _ => fd ≠ 0 ∧ m.Refuses fd
  | .fdWrite fd _ _ => ¬ (fd = 1 ∨ fd = 2) ∧ m.Refuses fd
  | .fdOpen pathname flags =>
      (∀ r, m.fds r = none) ∨
        (efiError (openAnswer p m pathname flags).reply.status = false ∧
          efiError (infoAnswer p m pathname flags).reply.status = false ∧
          ¬ KindMatches flags (infoAnswer p m pathname flags).reply.info)
  | .fdClose fd => m.Refuses fd
  | .fdFstat fd _ => m.Refuses fd
  | .fdLseek fd _ whence => m.Refuses fd ∨ ¬ KnownWhence whence
  | .memMmap _ _ _ _ fd _ => 0 < fd
  | .fdSelect nfds readfds writefds exceptfds _ =>
      nfds ≠ 0 ∨ readfds ≠ 0 ∨ writefds ≠ 0 ∨ exceptfds ≠ 0
  | .fdDup oldFd => m.Refuses oldFd
  | .fdDup2 oldFd newFd =>
      -- a descriptor put onto itself is closed first and then refused
      Dup2Refused m oldFd newFd ∨ m.openHandle oldFd = none ∨ oldFd = newFd
  | .fdFsync fd => m.Refuses fd
  | .procKill pid sig => pid ≠ emuPid ∨ 30 ≤ sig
  | .powerReboot magic1 magic2 cmd _ =>
      rebootMagicValid magic1 magic2 = false ∨ cmd ∉ rebootCommands
  | .fdGetdents64 fd _ _ => m.Refuses fd
  | .notPermitted => True
  | .notImplemented => True
  | .fdStat _ _ => False
  | .memMunmap _ _ => False
  | .procExit _ => False
  | .timeGettimeofday _ => False
  | .constant _ => False

/-- A request that is turned down without an errno: a `select` on descriptors, and an
`lseek` in an unknown direction that finds no errno on the stack. -/
def Request.Misreports (p : Platform) (m : Machine) : Request → Prop
  | .fdSelect nfds readfds writefds exceptfds _ =>
      nfds ≠ 0 ∨ readfds ≠ 0 ∨ writefds ≠ 0 ∨ exceptfds ≠ 0
  | .fdLseek fd _ whence =>
      ¬ m.Refuses fd ∧ ¬ KnownWhence whence ∧
        efiError (p.residue m.trace).status = false ∧
        ¬ IsErrno (p.residue m.trace).offset64.toInt64.toInt
  | _ => False

/-- Nothing but a dropped call keeps the request from success: for an `open`, the
object is of the kind asked for. -/
def Request.GoesThrough (p : Platform) (m : Machine) : Request → Prop
  | .fdOpen pathname flags =>
      KindMatches flags (infoAnswer p m pathname flags).reply.info
  | _ => True

/-- A failure stays hidden: the request is turned down without an errno, or it goes
through although one of its new calls failed whose status is dropped. -/
def Request.Hides (p : Platform) (m : Machine) (new : List Event) (r : Request) :
    Prop :=
  r.Misreports p m ∨
    r.GoesThrough p m ∧ ∃ e ∈ new, e.Fails ∧ r.drops e.call = true

/-- If a new call failed or the request was turned down, the result is an errno. -/
def Request.Reports (p : Platform) (m : Machine) (new : List Event) (word : UInt64)
    (r : Request) : Prop :=
  ((∃ e ∈ new, e.Fails) ∨ r.TurnedDown p m) → ErrnoWord word

section TurnedDown

variable (p : Platform) {fuel : Nat} {m m' : Machine} {word : UInt64}

/-- A handler that ends with an errno. -/
theorem errnoWord_of_run {x : M Int}
    (hx : ∃ (e : Errno) (m₁ : Machine), x.run m = .ok e.neg m₁)
    (hrun : (asWord x).run m = .ok word m') : ErrnoWord word := by
  obtain ⟨e, m₁, he⟩ := hx
  obtain ⟨v, hv, rfl⟩ := asWord_eq_ok.mp hrun
  rw [he, EStateM.Result.ok.injEq] at hv
  rw [← hv.1]
  exact errnoWord_of_isErrno e.neg_isErrno

theorem withFd_errno {fd : Int} (hrefuses : m.Refuses fd) (taken : FileHandle → M Int) :
    ∃ (e : Errno) (m₁ : Machine), (withFd fd taken).run m = .ok e.neg m₁ := by
  obtain ⟨e, _, hrun⟩ := withFd_run_of_refused hrefuses taken
  exact ⟨e, m, hrun⟩

theorem FdOp.refused_errno {op : FdOp} {fd : Int} (hconsole : op.console fd = false)
    (hrefuses : m.Refuses fd)
    (hrun : ((op.request fd).exec p fuel).run m = .ok word m') : ErrnoWord word := by
  rw [FdOp.exec_request_of_not_console p hconsole] at hrun
  exact errnoWord_of_run (withFd_errno hrefuses _) hrun

theorem fdOpen_errno {pathname : UInt64} {flags : UInt32}
    (hdown : (Request.fdOpen pathname flags).TurnedDown p m) :
    ∃ (e : Errno) (m₁ : Machine), (fdOpen p pathname flags).run m = .ok e.neg m₁ := by
  rcases hdown with hempty | ⟨hopen, hinfo, hkind⟩
  · exact ⟨.emfile, m, fdOpen_run_of_empty p hempty⟩
  · rw [fdOpen_run]
    by_cases hnone : fdRealFindFree m.fds < 0
    · exact ⟨.emfile, m, if_pos hnone⟩
    · obtain ⟨e, hresult⟩ := openResult_of_mismatch flags hkind (fdRealFindFree m.fds)
      refine ⟨e, effectMachine p m pathname flags, ?_⟩
      rw [if_neg hnone, if_neg (by simp [hopen]), if_neg (by simp [hinfo]), hresult]

/-- In an unknown direction the result is what the stack held. -/
theorem fdLseek_run_of_unknown {fd offset whence : Int} (hpasses : ¬ m.Refuses fd)
    (hwhence : ¬ KnownWhence whence) :
    (fdLseek p fd offset whence).run m =
      .ok (seekResult (p.residue m.trace).status (p.residue m.trace).offset64) m := by
  obtain ⟨r, handle, rfl, hpass, hslot⟩ := Machine.slot_of_passes hpasses
  simp only [KnownWhence, not_or] at hwhence
  rw [fdLseek, withFd_run_of_slot hpass hslot, fdLseekTaken, if_neg hwhence.1,
    if_neg hwhence.2.2, if_neg hwhence.2.1]
  rfl

theorem closeResult_isErrno {handle : FileHandle} (hfails : ¬ CloseSucceeds p m handle) :
    IsErrno (closeResult p m handle) := by
  have herror : efiError (p.answer m (.close handle)).reply.status = true := by
    simpa [CloseSucceeds] using hfails
  rw [closeResult, if_pos herror]
  exact failure_isErrno _

/-- Once the slot of `new_fd` is free, an `old_fd` that is not open, or was the same, is
found empty. -/
theorem Dup2Frees.old_none {oldFd newFd : Int} {ro rn : Fin maxFds} {m₁ : Machine}
    (hfrees : Dup2Frees p m rn m₁) (hro : ro.val ≤ 12) (hold : oldFd = toVirtualFd ro)
    (hnew : newFd = toVirtualFd rn) (hdown : (Request.fdDup2 oldFd newFd).TurnedDown p m) :
    m₁.fds ro = none := by
  cases hslot : m₁.fds ro with
  | none => rfl
  | some handle =>
      obtain ⟨hdistinct, hopen⟩ := hfrees.old_open hslot
      rcases hdown with hrefused | hclosed | hequal
      · rw [dup2Refused_iff_of_slots hro hold hnew] at hrefused
        have hnone := (hfrees.of_refused hrefused).2
        rw [hopen] at hnone
        cases hnone
      · rw [hold, Machine.openHandle_toVirtualFd, hopen] at hclosed
        cases hclosed
      · have hsame := toVirtualFd_injective (hold.symm.trans (hequal.trans hnew))
        exact absurd hsame hdistinct

theorem fdDup2_errno {oldFd newFd : Int}
    (hdown : (Request.fdDup2 oldFd newFd).TurnedDown p m) {v : Int}
    (hrun : (fdDup2 p oldFd newFd).run m = .ok v m') : IsErrno v := by
  cases fdDup2_course p hrun with
  | refused hold e => exact e.neg_isErrno
  | top hro hold hnew htop hslot => exact Errno.ebadf.neg_isErrno
  | fails hro hold hnew hpass hslot hcloses hfails => exact closeResult_isErrno p hfails
  | lost hro hold hnew hfrees hnone => exact Errno.ebadf.neg_isErrno
  | stores hro hold hnew hfrees hslot hs =>
      rw [hfrees.old_none p hro hold hnew hdown] at hslot
      cases hslot

theorem powerReboot_run_of_refused {magic1 magic2 cmd : UInt32} {arg : UInt64}
    (hdown : (Request.powerReboot magic1 magic2 cmd arg).TurnedDown p m) :
    (powerReboot p magic1 magic2 cmd arg).run m = .ok Errno.einval.neg m := by
  unfold powerReboot
  by_cases hmagic : rebootMagicValid magic1 magic2 = true
  · have hcmd : cmd ∉ rebootCommands := hdown.resolve_left (by simp [hmagic])
    simp only [rebootCommands, List.mem_cons, List.not_mem_nil, or_false, not_or] at hcmd
    rw [if_neg (not_not.mpr hmagic), if_neg hcmd.1, if_neg hcmd.2.1, if_neg hcmd.2.2.1,
      if_neg hcmd.2.2.2, ite_self, ite_self, ite_self]
    rfl
  · rw [if_pos hmagic]
    rfl

theorem procKill_errno {pid sig : Int}
    (hdown : (Request.procKill pid sig).TurnedDown p m) :
    ∃ (e : Errno) (m₁ : Machine), (procKill p pid sig).run m = .ok e.neg m₁ := by
  unfold procKill
  by_cases hinit : pid = emuPid - 1
  · rw [if_pos hinit]
    exact ⟨.eperm, m, rfl⟩
  · by_cases hother : pid ≠ emuPid
    · rw [if_neg hinit, if_pos hother]
      exact ⟨.esrch, m, rfl⟩
    · have hsig : sig ≥ 30 := hdown.resolve_left hother
      rw [if_neg hinit, if_neg hother, if_pos hsig]
      exact ⟨.einval, m, rfl⟩

/-- A request that ends with an errno as its word. -/
theorem Request.errnoWord_of_exec {r : Request} {e : Errno}
    (hexec : (r.exec p fuel).run m = .ok (UInt64.ofInt e.neg) m)
    (hrun : (r.exec p fuel).run m = .ok word m') : ErrnoWord word := by
  rw [hexec, EStateM.Result.ok.injEq] at hrun
  rw [← hrun.1]
  exact errnoWord_of_isErrno e.neg_isErrno

/-- In an unknown direction only what the stack held can keep `lseek` from an errno. -/
theorem fdLseek_isErrno_of_unknown {fd offset whence v : Int} (hpasses : ¬ m.Refuses fd)
    (hunknown : ¬ KnownWhence whence)
    (hreports : ¬ (Request.fdLseek fd offset whence).Misreports p m)
    (hrun : (fdLseek p fd offset whence).run m = .ok v m') : IsErrno v := by
  rw [fdLseek_run_of_unknown p hpasses hunknown, EStateM.Result.ok.injEq] at hrun
  rw [← hrun.1]
  by_cases herror : efiError (p.residue m.trace).status = true
  · exact seekResult_isErrno herror _
  · rw [seekResult, if_neg herror]
    by_contra hno
    exact hreports ⟨hpasses, hunknown, by simpa using herror, hno⟩

theorem memMmap_run_of_file {addr length : UInt64} {prot flags fd offset : Int}
    (hfile : 0 < fd) : (memMmap p addr length prot flags fd offset).run m =
      .ok (UInt64.ofInt Errno.enotsup.neg) m := by
  rw [memMmap, if_pos hfile]
  rfl

/-- A request that is turned down ends with an errno, the misreporting ones apart. -/
theorem Request.errnoWord_of_turnedDown {r : Request} (hdown : r.TurnedDown p m)
    (hreports : ¬ r.Misreports p m) (hrun : (r.exec p fuel).run m = .ok word m') :
    ErrnoWord word := by
  cases r with
  | fdRead fd buf count =>
      have hconsole : (FdOp.read buf count).console fd = false := by
        simpa [FdOp.console] using hdown.1
      exact FdOp.refused_errno p hconsole hdown.2 hrun
  | fdWrite fd buf count =>
      have hconsole : (FdOp.write buf count).console fd = false := by
        simpa [FdOp.console] using hdown.1
      exact FdOp.refused_errno p hconsole hdown.2 hrun
  | fdOpen pathname flags => exact errnoWord_of_run (fdOpen_errno p hdown) hrun
  | fdClose fd => exact errnoWord_of_run (withFd_errno hdown _) hrun
  | fdStat path buf => exact hdown.elim
  | fdFstat fd buf => exact errnoWord_of_run (withFd_errno hdown _) hrun
  | fdLseek fd offset whence =>
      by_cases hrefuses : m.Refuses fd
      · exact errnoWord_of_run (withFd_errno hrefuses _) hrun
      · have hunknown := hdown.resolve_left hrefuses
        obtain ⟨v, hv, rfl⟩ := asWord_eq_ok.mp hrun
        exact errnoWord_of_isErrno (fdLseek_isErrno_of_unknown p hrefuses hunknown hreports hv)
  | memMmap addr length prot flags fd offset =>
      have hexec : ((Request.memMmap addr length prot flags fd offset).exec p fuel).run m =
          .ok (UInt64.ofInt Errno.enotsup.neg) m := by
        rw [Request.exec, memMmap_run_of_file p hdown]
      exact Request.errnoWord_of_exec p hexec hrun
  | memMunmap addr length => exact hdown.elim
  | fdSelect nfds readfds writefds exceptfds timeout => exact absurd hdown hreports
  | fdDup oldFd => exact errnoWord_of_run (withFd_errno hdown _) hrun
  | fdDup2 oldFd newFd =>
      obtain ⟨v, hv, rfl⟩ := asWord_eq_ok.mp hrun
      exact errnoWord_of_isErrno (fdDup2_errno p hdown hv)
  | procExit status => exact hdown.elim
  | fdFsync fd => exact errnoWord_of_run (withFd_errno hdown _) hrun
  | procKill pid sig => exact errnoWord_of_run (procKill_errno p hdown) hrun
  | timeGettimeofday tv => exact hdown.elim
  | powerReboot magic1 magic2 cmd arg =>
      exact errnoWord_of_run ⟨.einval, m, powerReboot_run_of_refused p hdown⟩ hrun
  | fdGetdents64 fd dirp count => exact errnoWord_of_run (withFd_errno hdown _) hrun
  | constant value => exact hdown.elim
  | notPermitted =>
      have hexec : (Request.notPermitted.exec p fuel).run m =
          .ok (UInt64.ofInt Errno.eperm.neg) m := rfl
      exact Request.errnoWord_of_exec p hexec hrun
  | notImplemented =>
      have hexec : (Request.notImplemented.exec p fuel).run m =
          .ok (UInt64.ofInt Errno.enosys.neg) m := rfl
      exact Request.errnoWord_of_exec p hexec hrun

/-- A word that was not a negated errno before its conversion is none after. -/
theorem not_errnoWord_of_run {x : M Int} {v : Int} (hlow : -2 ^ 63 ≤ v)
    (hhigh : v < 2 ^ 63) (hno : ¬ IsErrno v)
    (hx : x.run m = .ok v m) (hrun : (asWord x).run m = .ok word m') :
    ¬ ErrnoWord word := by
  obtain ⟨v', hv, rfl⟩ := asWord_eq_ok.mp hrun
  rw [hx, EStateM.Result.ok.injEq] at hv
  rw [← hv.1, errnoWord_ofInt_iff hlow hhigh]
  exact hno

theorem longArg_range (word : UInt64) :
    -2 ^ 63 ≤ word.toInt64.toInt ∧ word.toInt64.toInt < 2 ^ 63 := by
  have hlow := BitVec.le_toInt word.toBitVec
  have hhigh := BitVec.toInt_lt (x := word.toBitVec)
  exact ⟨hlow, hhigh⟩

/-- A misreporting request was turned down, and its result is no errno. -/
theorem Request.not_errnoWord_of_misreports {r : Request} (hmis : r.Misreports p m)
    (hrun : (r.exec p fuel).run m = .ok word m') :
    r.TurnedDown p m ∧ ¬ ErrnoWord word := by
  cases r with
  | fdSelect nfds readfds writefds exceptfds timeout =>
      have hselects : nfds ≠ 0 ∨ readfds ≠ 0 ∨ writefds ≠ 0 ∨ exceptfds ≠ 0 := hmis
      have hselect : (UefiLinux.fdSelect p nfds readfds writefds exceptfds timeout).run m =
          .ok 95 m := by
        rw [UefiLinux.fdSelect, if_pos hselects]
        rfl
      exact ⟨hmis, not_errnoWord_of_run (by decide) (by decide) (by decide) hselect hrun⟩
  | fdLseek fd offset whence =>
      obtain ⟨hpasses, hunknown, hok, hno⟩ := hmis
      have hrange := longArg_range (p.residue m.trace).offset64
      refine ⟨Or.inr hunknown, not_errnoWord_of_run hrange.1 hrange.2 hno ?_ hrun⟩
      rw [fdLseek_run_of_unknown p hpasses hunknown, seekResult, if_neg (by simp [hok])]
  | _ => exact hmis.elim

end TurnedDown

section Dropped

variable (p : Platform) {fuel : Nat} {m m' : Machine} {word : UInt64} {new : List Event}

/-- The dropped calls are those of four handlers. -/
theorem Request.drops_cases {r : Request} {call : Call} (hdrops : r.drops call = true) :
    (∃ buf count, r = .fdRead 0 buf count) ∨ (∃ pathname flags, r = .fdOpen pathname flags) ∨
      (∃ tv, r = .timeGettimeofday tv) ∨
      ∃ magic1 magic2 cmd arg, r = .powerReboot magic1 magic2 cmd arg := by
  unfold Request.drops at hdrops
  split at hdrops
  · rename_i fd buf count _
    rw [of_decide_eq_true hdrops]
    exact Or.inl ⟨buf, count, rfl⟩
  · rename_i fd buf count _
    rw [of_decide_eq_true hdrops]
    exact Or.inl ⟨buf, count, rfl⟩
  · exact Or.inr (Or.inl ⟨_, _, rfl⟩)
  · exact Or.inr (Or.inl ⟨_, _, rfl⟩)
  · exact Or.inr (Or.inr (Or.inl ⟨_, rfl⟩))
  · exact Or.inr (Or.inr (Or.inr ⟨_, _, _, _, rfl⟩))
  · cases hdrops

/-- The results that are no errno as a word. -/
def Plain (v : Int) : Prop := 0 ≤ v ∧ v < 2 ^ 63

instance (v : Int) : Decidable (Plain v) := inferInstanceAs (Decidable (_ ∧ _))

theorem Plain.not_errnoWord {v : Int} (hplain : Plain v) :
    ¬ ErrnoWord (UInt64.ofInt v) := by
  obtain ⟨hlow, hhigh⟩ := hplain
  rw [errnoWord_ofInt_iff (by omega) hhigh]
  intro herrno
  have hneg := herrno.2
  omega

theorem fdRead_console_yields (fuel : Nat) (buf count : UInt64) :
    Yields Plain (fdRead p fuel 0 buf count) := by
  have hguard : ¬ (0 : Int) > maxFds := by decide
  rw [fdRead, if_neg hguard, if_pos rfl, fdReadConsole]
  apply Yields.bind
  intro it
  have hbound := (it + 1).toNat_lt
  exact Yields.pure ⟨by omega, by omega⟩

theorem timeGettimeofday_yields (tv : UInt64) : Yields Plain (timeGettimeofday p tv) := by
  apply Yields.bind
  intro now
  apply Yields.bind
  intro _
  apply Yields.bind
  intro _
  exact Yields.pure (by decide)

theorem answers_of_attending {owner : Option FileHandle} {x : M Int}
    (hx : Attending owner x) (hplain : Yields Plain x) :
    Answers Machine.trace (fun _ => True) Plain x :=
  Answers.of_yields hx.along hplain

theorem resetAndReturn_yields (kind : ResetType) (size : UInt64) (text : String) :
    Yields Plain (resetAndReturn p kind size text) :=
  Yields.bind fun _ => Yields.pure (by decide)

/-- A reset that made a call gives zero if it comes back. -/
theorem powerReboot_answers (magic1 magic2 cmd : UInt32) (arg : UInt64) :
    Answers Machine.trace (fun _ => True) Plain
      (powerReboot p magic1 magic2 cmd arg) := by
  have hreset : ∀ (text : List UInt16) (kind : ResetType) (size : UInt64) (reason : String),
      Answers Machine.trace (fun _ => True) Plain
        (announce p text >>= fun _ => resetAndReturn p kind size reason) := by
    intro text kind size reason
    exact answers_of_attending
      ((announce_attending p text).bind fun _ => resetAndReturn_attending p kind size reason)
      (Yields.bind fun _ => resetAndReturn_yields p kind size reason)
  unfold powerReboot
  apply (Answers.pure _).ite
  apply (Answers.pure _).ite
  apply Answers.ite
  · apply answers_of_attending
    · exact (announce_attending p _).bind fun _ => Attending.throw (by rintro ⟨index, ⟨⟩⟩)
    · exact Yields.bind fun _ => Yields.throw _
  · apply (Answers.pure _).ite
    apply (Answers.pure _).ite
    apply Answers.ite (hreset _ _ _ _)
    apply Answers.ite (hreset _ _ _ _)
    apply Answers.ite
    · apply answers_of_attending
      · apply (announce_attending p _).bind
        intro _
        apply (bstrToWstr_attending arg).bind
        intro command
        apply (announce_attending p command).bind
        intro _
        exact (announce_attending p _).bind fun _ => resetAndReturn_attending p _ _ _
      · apply Yields.bind
        intro _
        apply Yields.bind
        intro command
        apply Yields.bind
        intro _
        exact Yields.bind fun _ => resetAndReturn_yields p _ _ _
    · exact Answers.pure _

/-- An `open` that makes a call whose status it drops ends with its result. -/
theorem fdOpen_eq_of_dropped {pathname : UInt64} {flags : UInt32} {v : Int}
    (hrun : (fdOpen p pathname flags).run m = .ok v m') (hlog : m'.trace = m.trace ++ new)
    {e : Event} (he : e ∈ new)
    (hdrops : (Request.fdOpen pathname flags).drops e.call = true) :
    ∃ r : Fin maxFds, v = openResult r flags (infoAnswer p m pathname flags).reply.info := by
  rw [fdOpen_run] at hrun
  split at hrun
  · rw [EStateM.Result.ok.injEq] at hrun
    rw [← hrun.2, List.self_eq_append_right] at hlog
    rw [hlog] at he
    exact absurd he List.not_mem_nil
  · rename_i hfound
    split at hrun
    · rw [EStateM.Result.ok.injEq] at hrun
      rw [← hrun.2, openMachine_trace, List.append_cancel_left_eq] at hlog
      rw [← hlog, List.mem_singleton] at he
      rw [he] at hdrops
      cases hdrops
    · split at hrun
      · rw [EStateM.Result.ok.injEq] at hrun
        rw [← hrun.2, infoMachine_trace, List.append_cancel_left_eq] at hlog
        rw [← hlog] at he
        simp only [List.mem_cons, List.not_mem_nil, or_false] at he
        rcases he with rfl | rfl
        · cases hdrops
        · cases hdrops
      · rw [EStateM.Result.ok.injEq] at hrun
        by_cases hoccupied : ∃ r, m.fds r ≠ none
        · obtain ⟨r, hfind, _⟩ := fdRealFindFree_of_occupied hoccupied
          exact ⟨r, by rw [← hrun.1, hfind]⟩
        · simp only [not_exists, not_not] at hoccupied
          rw [fdRealFindFree_of_empty hoccupied] at hfound
          exact absurd (by decide) hfound

/-- A request with a new call whose status is dropped ends with an errno exactly when
something else keeps it from going through. -/
theorem Request.errnoWord_iff_of_dropped {r : Request}
    (hrun : (r.exec p fuel).run m = .ok word m') (hlog : m'.trace = m.trace ++ new)
    {e : Event} (he : e ∈ new) (hdrops : r.drops e.call = true) :
    ErrnoWord word ↔ ¬ r.GoesThrough p m := by
  have hplain : ∀ x : M Int, Answers Machine.trace (fun _ => True) Plain x →
      (asWord x).run m = .ok word m' → ¬ ErrnoWord word := by
    intro x hx hword
    obtain ⟨v, hv, rfl⟩ := asWord_eq_ok.mp hword
    exact (hx.of_log hv hlog he trivial).not_errnoWord
  rcases Request.drops_cases hdrops with ⟨buf, count, rfl⟩ | ⟨pathname, flags, rfl⟩ |
    ⟨tv, rfl⟩ | ⟨magic1, magic2, cmd, arg, rfl⟩
  · have hno := hplain _ (answers_of_attending (fdRead_zero_attending p fuel buf count)
      (fdRead_console_yields p fuel buf count)) hrun
    exact iff_of_false hno (not_not.mpr trivial)
  · obtain ⟨v, hv, rfl⟩ := asWord_eq_ok.mp hrun
    obtain ⟨s, rfl⟩ := fdOpen_eq_of_dropped p hv hlog he hdrops
    by_cases hkind : KindMatches flags (infoAnswer p m pathname flags).reply.info
    · have hrange := toVirtualFd_slot_range s
      have hno : Plain (toVirtualFd s) := ⟨by omega, by omega⟩
      rw [openResult_of_matches flags hkind]
      exact iff_of_false hno.not_errnoWord (not_not.mpr hkind)
    · obtain ⟨e, hresult⟩ := openResult_of_mismatch flags hkind (s : Int)
      rw [hresult]
      exact iff_of_true (errnoWord_of_isErrno e.neg_isErrno) hkind
  · have hno := hplain _ (answers_of_attending (timeGettimeofday_attending p tv)
      (timeGettimeofday_yields p tv)) hrun
    exact iff_of_false hno (not_not.mpr trivial)
  · have hno := hplain _ (powerReboot_answers p magic1 magic2 cmd arg) hrun
    exact iff_of_false hno (not_not.mpr trivial)

end Dropped

/-- The failures of a call that returns are reported to the caller exactly when none
stays hidden, and what is reported is what the libc wrappers take for an errno. -/
theorem failures_reported_iff_not_hidden (p : Platform) (fuel : Nat) {no : UInt64}
    {args : List UInt64} {m m' : Machine} {word : UInt64}
    (hrun : (syscallEmuX86_64 p fuel no args).run m = .ok word m') :
    (∃ r new, dispatch no args = .ok r ∧ m'.trace = m.trace ++ new ∧
      (r.Reports p m new word ↔ ¬ r.Hides p m new)) ∧
    (ErrnoWord word →
      libcInt word = ⟨-1, some (-longArg word)⟩ ∧
        libcLong word = ⟨-1, some (-longArg word)⟩ ∧
        libcPointer word = ⟨-1, some (-longArg word)⟩) := by
  refine ⟨?_, ErrnoWord.libc⟩
  cases hdispatch : dispatch no args with
  | error why =>
      rw [syscallEmuX86_64, hdispatch] at hrun
      cases hrun
  | ok r =>
      rw [syscallEmuX86_64, hdispatch] at hrun
      obtain ⟨new, hlog, hheeds⟩ := r.exec_heeding p fuel m word m' hrun
      refine ⟨r, new, rfl, hlog, ?_⟩
      constructor
      · intro hreports hhides
        rcases hhides with hmis | ⟨hgoes, e, he, hfails, hdrops⟩
        · obtain ⟨hdown, hno⟩ := r.not_errnoWord_of_misreports p hmis hrun
          exact hno (hreports (Or.inr hdown))
        · have herrno := hreports (Or.inl ⟨e, he, hfails⟩)
          exact (r.errnoWord_iff_of_dropped p hrun hlog he hdrops).mp herrno hgoes
      · intro hhides hfailure
        obtain ⟨hmis, hdropped⟩ := not_or.mp hhides
        rcases hfailure with ⟨e, he, hfails⟩ | hdown
        · cases hdrops : r.drops e.call with
          | false => exact hheeds ⟨e, he, hfails, hdrops⟩
          | true =>
              apply (r.errnoWord_iff_of_dropped p hrun hlog he hdrops).mpr
              intro hgoes
              exact hdropped ⟨hgoes, e, he, hfails, hdrops⟩
        · exact r.errnoWord_of_turnedDown p hdown hmis hrun

/-- Reading the clock on firmware that fails every call. -/
theorem failures_reported_iff_not_hidden_clock :
    (∃ r new, dispatch 96 [0] = .ok r ∧
      ((finalState ((syscallEmuX86_64 failingFirmware 0 96 [0]).run
        Machine.blank)).trace = Machine.blank.trace ++ new) ∧
      (r.Reports failingFirmware Machine.blank new 0 ↔
        ¬ r.Hides failingFirmware Machine.blank new)) ∧
    (ErrnoWord 0 →
      libcInt 0 = ⟨-1, some (-longArg 0)⟩ ∧ libcLong 0 = ⟨-1, some (-longArg 0)⟩ ∧
        libcPointer 0 = ⟨-1, some (-longArg 0)⟩) :=
  failures_reported_iff_not_hidden failingFirmware 0 rfl

/-- Waiting for a descriptor is refused with the errno itself, a count of 95. -/
theorem select_returns_ninety_five :
    ¬ ∀ (p : Platform) (fuel : Nat) (no : UInt64) (args : List UInt64) (m m' : Machine)
      (word : UInt64) (r : Request) (new : List Event),
      (syscallEmuX86_64 p fuel no args).run m = .ok word m' →
        dispatch no args = .ok r → m'.trace = m.trace ++ new →
          r.Reports p m new word := by
  intro hall
  have hreports := hall workingFirmware 0 23 [1, 0, 0, 0, 0] Machine.blank Machine.blank
    95 (.fdSelect 1 0 0 0 0) [] rfl rfl rfl
  have hdown : (Request.fdSelect 1 0 0 0 0).TurnedDown workingFirmware Machine.blank :=
    Or.inl (by decide)
  exact absurd (hreports (Or.inr hdown)) (by decide)

end UefiLinux
