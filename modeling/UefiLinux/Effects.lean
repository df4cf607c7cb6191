/-
What the handlers do to the table and to the open files: each of the handlers that
neither open nor close keeps the table, and makes firmware calls on no handle but
the one it was given.
-/
import UefiLinux.Dispatch
import UefiLinux.Granting
import UefiLinux.Guards

namespace UefiLinux

open Progress Journal

/-- The handle a successful `Volume->Open` returned. -/
def Event.opened (e : Event) : Option FileHandle :=
  match e.call with
  | .volumeOpen .. => if efiError e.reply.status then none else some e.reply.handle
  | _ => none

/-- The handle passed to `Close`. -/
def Event.closed (e : Event) : Option FileHandle :=
  match e.call with
  | .close handle => some handle
  | _ => none

theorem Event.closed_eq_some {e : Event} {handle : FileHandle} :
    e.closed = some handle ↔ e.call = .close handle := by
  unfold Event.closed
  cases e.call <;> simp

/-- The ledger of firmware file handles. -/
def handles : Ledger Event FileHandle where
  acquired := Event.opened
  released := Event.closed
  used := fun e => e.call.handle?

/-- A firmware call that opens and closes nothing, and is made on the given handle
if it is made on one. -/
def Event.Attends (owner : Option FileHandle) (e : Event) : Prop :=
  handles.Neutral e ∧ ∀ handle, handles.used e = some handle → owner = some handle

/-- A program that keeps the table, indexes it inside its bounds, and opens and
closes nothing. -/
def Attending {α : Type} (owner : Option FileHandle) (x : M α) : Prop :=
  Within (Quiet calls (Event.Attends owner)) IndexFault x

section Rules

variable {α β : Type} {owner : Option FileHandle}

theorem Attending.pure (a : α) : Attending owner (pure a : M α) :=
  Within.pure a

theorem Attending.throw {stop : Stop} (hstop : ¬ IndexFault stop) :
    Attending owner (throw stop : M α) :=
  Within.throw hstop

theorem Attending.bind {x : M α} {f : α → M β} (hx : Attending owner x)
    (hf : ∀ a, Attending owner (f a)) : Attending owner (x >>= f) :=
  Within.bind hx hf

theorem Attending.ite {c : Prop} [Decidable c] {x y : M α} (hx : Attending owner x)
    (hy : Attending owner y) : Attending owner (if c then x else y) :=
  Within.ite hx hy

/-- A change of anything but the table and the journal. -/
theorem Attending.modify {f : Machine → Machine} (hfds : ∀ m, (f m).fds = m.fds)
    (htrace : ∀ m, (f m).trace = m.trace) : Attending owner (modify f : M PUnit) :=
  Within.modify fun m => quiet_of_eq (hfds m) (htrace m)

theorem storeBytes_attending (address : UInt64) (bytes : List UInt8) :
    Attending owner (storeBytes address bytes) :=
  Attending.modify (fun _ => rfl) fun _ => rfl

theorem bstrToWstr_attending (input : UInt64) : Attending owner (bstrToWstr input) := by
  constructor
  · intro m
    rw [bstrToWstr_run]
    exact quiet_of_eq rfl rfl
  · intro m stop m' hrun
    rw [bstrToWstr_run] at hrun
    cases hrun

variable (p : Platform)

/-- A firmware call of a kind that opens and closes nothing. -/
theorem uefiCallWrapper_attending {call : Call}
    (hcall : ∀ reply, Event.Attends owner ⟨call, reply⟩) :
    Attending owner (uefiCallWrapper p call) := by
  constructor
  · intro m
    rw [uefiCallWrapper_finalState]
    refine ⟨rfl, [p.answer m call], rfl, ?_⟩
    intro e he
    rw [List.mem_singleton.mp he]
    exact hcall _
  · intro m stop m' hrun
    rintro ⟨index, hindex⟩
    rw [uefiCallWrapper_eq_error p hrun] at hindex
    cases hindex

/-- A call on the handle itself, other than `Close`. -/
theorem attends_of_handle {call : Call} {handle : FileHandle}
    (hhandle : call.handle? = some handle) (hclose : call ≠ .close handle)
    (reply : Reply) : Event.Attends (some handle) ⟨call, reply⟩ := by
  cases call <;>
    simp_all [Event.Attends, Ledger.Neutral, handles, Event.opened, Event.closed,
      Call.handle?]

/-- A call on no handle, other than `Volume->Open`. -/
theorem attends_of_none {call : Call} (hhandle : call.handle? = none)
    (hopen : ∀ path mode attributes, call ≠ .volumeOpen path mode attributes)
    (reply : Reply) : Event.Attends owner ⟨call, reply⟩ := by
  cases call <;>
    simp_all [Event.Attends, Ledger.Neutral, handles, Event.opened, Event.closed,
      Call.handle?]

/-- Calls that open and close nothing, any memory, and no part in the table. -/
def Grant.attending (owner : Option FileHandle) : Grant :=
  ⟨{ c | ∀ reply, Event.Attends owner ⟨c, reply⟩ }, Set.univ, Set.univ, False⟩

theorem Grant.Basic.ends_attending {x : M α} (hx : (Grant.attending owner).Basic p x) :
    Attending owner x := by
  cases hx with
  | call hcall => exact uefiCallWrapper_attending p hcall
  | store hwrites => exact storeBytes_attending _ _
  | rebind htable slot value => exact htable.elim

/-- What a program is granted already keeps it away from the table. -/
theorem Granted.attending {x : M α} (hx : Granted p (Grant.attending owner) x) :
    Attending owner x := by
  have hends : Ends (Quiet calls (Event.Attends owner))
      (fun stop m m' => Quiet calls (Event.Attends owner) m m' ∧ ¬ IndexFault stop) x := by
    refine Composed.ends ?_ ?_ ?_ hx
    · exact fun hfirst hrest => ⟨trans_of _ hfirst hrest.1, hrest.2⟩
    · intro β y hbasic
      have hattends := Grant.Basic.ends_attending p hbasic
      refine ⟨fun s a s' hrun => hattends.along.ok hrun, fun s stop s' hrun => ⟨?_, ?_⟩⟩
      · have hfinal := hattends.along s
        rwa [hrun] at hfinal
      · exact hattends.avoids s stop s' hrun
    · exact fun s hstops => ⟨refl_of _ s, hstops.2⟩
  refine ⟨fun m => ?_, fun m stop m' hrun => (hends.2 m stop m' hrun).2⟩
  cases hrun : x.run m with
  | ok a m' => exact hends.1 m a m' hrun
  | error stop m' => exact (hends.2 m stop m' hrun).1

/-- A call of the file protocol other than `Close`. -/
theorem onHandle_mem {call : Call} {handle : FileHandle}
    (hhandle : call.handle? = some handle) (hclose : call ≠ .close handle) :
    call ∈ (Grant.attending (some handle)).calls :=
  attends_of_handle hhandle hclose

/-- A call outside the file protocol. -/
theorem onNone_mem {call : Call} (hhandle : call.handle? = none)
    (hopen : ∀ path mode attributes, call ≠ .volumeOpen path mode attributes) :
    call ∈ (Grant.attending owner).calls :=
  attends_of_none hhandle hopen

end Rules

section Handlers

variable (p : Platform)

theorem fdEfiGetFileInfo_attending (handle : FileHandle) :
    Attending (some handle) (fdEfiGetFileInfo p handle) :=
  (fdEfiGetFileInfo_granted (onHandle_mem rfl (by simp))).attending

theorem openEffects_attending (handle : FileHandle) (flags : UInt32)
    (info : EfiFileInfo) :
    Attending (some handle) (openEffects p handle flags info) :=
  (openEffects_granted (fun _ => onHandle_mem rfl (by simp))
    (fun _ _ _ => onHandle_mem rfl (by simp)) info).attending

theorem fdFsyncTaken_attending (handle : FileHandle) :
    Attending (some handle) (fdFsyncTaken p handle) :=
  (fdFsyncTaken_granted (onHandle_mem rfl (by simp))).attending

theorem fdLseekTaken_attending (offset whence : Int) (handle : FileHandle) :
    Attending (some handle) (fdLseekTaken p offset whence handle) :=
  (fdLseekTaken_granted (onHandle_mem rfl (by simp)) (fun _ => onHandle_mem rfl (by simp))
    offset whence).attending

theorem fdReadConsole_attending (fuel : Nat) (buf count : UInt64) :
    Attending none (fdReadConsole p fuel buf count) :=
  (fdReadConsole_granted (onNone_mem rfl (by simp)) (onNone_mem rfl (by simp))
    (onNone_mem rfl (by simp)) (fun _ => onNone_mem rfl (by simp)) (Set.subset_univ _)
    fuel).attending

theorem fdReadTaken_attending (buf count : UInt64) (handle : FileHandle) :
    Attending (some handle) (fdReadTaken p buf count handle) :=
  (fdReadTaken_granted (fun _ => Set.subset_univ _) (onHandle_mem rfl (by simp))).attending

theorem fdWriteConsole_attending (fuel : Nat) (size buf count : UInt64) :
    Attending none (fdWriteConsole p fuel size buf count) :=
  (fdWriteConsole_granted (fun _ => onNone_mem rfl (by simp)) (Set.subset_univ _) fuel
    size).attending

theorem fdWriteTaken_attending (buf count : UInt64) (handle : FileHandle) :
    Attending (some handle) (fdWriteTaken p buf count handle) :=
  (fdWriteTaken_granted (fun _ => onHandle_mem rfl (by simp)) (Set.subset_univ _)).attending

theorem fdGetdents64Taken_attending (dirp : UInt64) (count : Int)
    (handle : FileHandle) :
    Attending (some handle) (fdGetdents64Taken p dirp count handle) :=
  (direntLoop_granted (onHandle_mem rfl (by simp)) (Set.subset_univ _) (Set.subset_univ _)
    _ _).attending

theorem fdEfiStat_attending (buf : UInt64) (handle : FileHandle) :
    Attending (some handle) (fdEfiStat p buf handle) :=
  (fdEfiStat_granted (Set.subset_univ _) (onHandle_mem rfl (by simp))).attending

theorem timeGettimeofday_attending (tv : UInt64) :
    Attending none (timeGettimeofday p tv) :=
  (timeGettimeofday_granted (onNone_mem rfl (by simp)) (Set.subset_univ _)).attending

theorem fdSelect_attending (nfds : Int)
    (readfds writefds exceptfds timeout : UInt64) :
    Attending none (fdSelect p nfds readfds writefds exceptfds timeout) :=
  (fdSelect_granted (fun _ _ => onNone_mem rfl (by simp)) (Set.subset_univ _)).attending

theorem memMmap_attending (addr length : UInt64) (prot flags fd offset : Int) :
    Attending none (memMmap p addr length prot flags fd offset) :=
  (memMmap_granted (fun _ => onNone_mem rfl (by simp)) addr prot flags offset).attending

theorem memMunmap_attending (addr length : UInt64) :
    Attending none (memMunmap p addr length) :=
  (memMunmap_granted (onNone_mem rfl (by simp)) length).attending

theorem procExit_attending (status : Int) : Attending none (procExit p status) :=
  (procExit_granted (onNone_mem rfl (by simp))).attending

theorem procKill_attending (pid sig : Int) : Attending none (procKill p pid sig) :=
  (procKill_granted fun _ _ => onNone_mem rfl (by simp)).attending

theorem announce_attending (text : List UInt16) : Attending none (announce p text) :=
  (announce_granted (onNone_mem rfl (by simp))).attending

theorem resetAndReturn_attending (kind : ResetType) (size : UInt64) (text : String) :
    Attending none (resetAndReturn p kind size text) :=
  (resetAndReturn_granted (onNone_mem rfl (by simp))).attending

theorem powerReboot_attending (magic1 magic2 cmd : UInt32) (arg : UInt64) :
    Attending none (powerReboot p magic1 magic2 cmd arg) := by
  have hrefused : Attending none (pure Errno.einval.neg : M Int) := Attending.pure _
  unfold powerReboot
  apply hrefused.ite
  apply hrefused.ite
  apply Attending.ite
  · apply (announce_attending p _).bind
    intro _
    apply Attending.throw
    rintro ⟨index, hindex⟩
    cases hindex
  · apply hrefused.ite
    apply hrefused.ite
    apply Attending.ite
    · apply (announce_attending p _).bind
      intro _
      exact resetAndReturn_attending p _ _ _
    · apply Attending.ite
      · apply (announce_attending p _).bind
        intro _
        exact resetAndReturn_attending p _ _ _
      · apply Attending.ite
        · apply (announce_attending p _).bind
          intro _
          apply (bstrToWstr_attending arg).bind
          intro command
          apply (announce_attending p command).bind
          intro _
          apply (announce_attending p _).bind
          intro _
          exact resetAndReturn_attending p _ _ _
        · exact hrefused

end Handlers

end UefiLinux
