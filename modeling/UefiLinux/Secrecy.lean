/-
What a session tells.  Neither the results nor the firmware calls depend on memory that no
call's footprint lets it read, on what an earlier path has left in the static buffer, or on
what the stack holds, as long as no call reads a local that it has not written.
-/
import UefiLinux.Sessions

namespace UefiLinux

open Progress Journal

/-- The same firmware over another stack. -/
def Platform.withResidue (p : Platform) (residue : List Event → Residue) : Platform :=
  { p with residue := residue }

/-- A request whose handler reads no local before it has written it.  The others are the
`open` that gets to `SetInfo`, which is given the address of a parameter, the `lseek` in an
unknown direction, and `getdents64`, whose records keep what a short read leaves. -/
def Request.ReadsWritten : Request → Prop
  | .fdOpen _ flags => hasFlag flags oAppend = true ∨ openMode flags &&& efiFileModeWrite = 0
  | .fdLseek _ _ whence => whence = 0 ∨ whence = 1 ∨ whence = 2
  | .fdGetdents64 .. => False
  | _ => True

section Requests

variable {p : Platform} {residue : List Event → Residue}

theorem uefiCallWrapper_withResidue (call : Call) :
    uefiCallWrapper (p.withResidue residue) call = uefiCallWrapper p call := rfl

theorem openEffects_withResidue {flags : UInt32}
    (hflags : hasFlag flags oAppend = true ∨ openMode flags &&& efiFileModeWrite = 0)
    (handle : FileHandle) (info : EfiFileInfo) :
    openEffects (p.withResidue residue) handle flags info = openEffects p handle flags info := by
  by_cases happend : hasFlag flags oAppend = true
  · rw [openEffects, openEffects, if_pos happend, if_pos happend, uefiCallWrapper_withResidue]
  · have hread : ¬ openMode flags &&& efiFileModeWrite ≠ 0 :=
      not_not.mpr (hflags.resolve_left happend)
    rw [openEffects, openEffects, if_neg happend, if_neg hread, if_neg happend, if_neg hread]

theorem fdLseekTaken_withResidue {whence : Int} (hwhence : whence = 0 ∨ whence = 1 ∨ whence = 2)
    (offset : Int) (handle : FileHandle) :
    fdLseekTaken (p.withResidue residue) offset whence handle =
      fdLseekTaken p offset whence handle := by
  rcases hwhence with rfl | rfl | rfl
  all_goals
    simp only [fdLseekTaken, seekCurrent, uefiCallWrapper_withResidue, Int.reduceEq, ↓reduceIte]

/-- What the stack holds does not matter to a handler that writes its locals first. -/
theorem Request.exec_withResidue {r : Request} (hwritten : r.ReadsWritten) (fuel : Nat) :
    r.exec (p.withResidue residue) fuel = r.exec p fuel := by
  cases r with
  | fdOpen pathname flags =>
      simp only [Request.exec, UefiLinux.fdOpen, fdEfiGetFileInfo, uefiCallWrapper_withResidue,
        openEffects_withResidue hwritten]
  | fdLseek fd offset whence =>
      have htaken : fdLseekTaken (p.withResidue residue) offset whence =
          fdLseekTaken p offset whence := funext (fdLseekTaken_withResidue hwritten offset)
      simp only [Request.exec, UefiLinux.fdLseek, htaken]
  | fdGetdents64 fd dirp count => exact hwritten.elim
  | _ => rfl

end Requests

/-- The same volume and the same replies, over any stack.  A read of a key that fails
leaves the key unwritten, so there the replies may differ. -/
structure Platform.SameFirmware (p p' : Platform) : Prop where
  volume : p'.volume = p.volume
  reply : ∀ log call, (call = .readKeyStroke → efiError (p.reply log call).status = false) →
    p'.reply log call = p.reply log call

/-- Every read of a key succeeds. -/
def Platform.GivesKeys (p : Platform) : Prop :=
  ∀ log, efiError (p.reply log .readKeyStroke).status = false

theorem Platform.SameFirmware.eq_withResidue {p p' : Platform} (hsame : p.SameFirmware p')
    (hkeys : p.GivesKeys) : p' = p.withResidue p'.residue := by
  have hreply : p'.reply = p.reply := by
    funext log call
    refine hsame.reply log call ?_
    rintro rfl
    exact hkeys log
  cases p'
  simp only [Platform.withResidue, Platform.mk.injEq, and_true]
  exact ⟨hsame.volume, hreply⟩

/-- Every request that the call can be dispatched to writes its locals first. -/
def SysCall.ReadsWritten (c : SysCall) : Prop :=
  ∀ r, dispatch c.no c.args = .ok r → r.ReadsWritten

def Action.ReadsWritten : Action → Prop
  | .store _ _ => True
  | .call c _ => c.ReadsWritten

/-- An action whose course depends on the visible memory and on written locals only. -/
structure Action.Sees (p : Platform) (visible : Set UInt64) (act : Action) (m m' : Machine) :
    Prop where
  reads : act.reads m ⊆ visible
  written : act.ReadsWritten
  does : act.Does p m m'

section Sessions

variable {p p' : Platform} {m m' t : Machine} {acts : List Action} {c : SysCall}
  {visible : Set UInt64} {result : EStateM.Result Stop Machine UInt64}

/-- The same call on the same firmware ends alike over any stack. -/
theorem SysCall.Ends.overStack (hends : c.Ends p m result) (hwritten : c.ReadsWritten)
    (hsame : p.SameFirmware p') (hkeys : p.GivesKeys) : c.Ends p' m result := by
  obtain ⟨fuel, rfl⟩ := hends
  refine ⟨fuel, ?_⟩
  rw [hsame.eq_withResidue hkeys, syscallEmuX86_64, syscallEmuX86_64]
  cases hdispatch : dispatch c.no c.args with
  | ok r => simp only [Request.exec_withResidue (hwritten r hdispatch)]
  | error why => rfl

/-- From a machine alike on what it reads, a call ends in the same way. -/
theorem SysCall.Ends.matches (hends : c.Ends p m result) (hreads : c.reads m ⊆ visible)
    (halike : m.AlikeOn visible t) :
    ∃ result', c.Ends p t result' ∧ Matches (Machine.AlikeOn visible) result result' := by
  obtain ⟨fuel, rfl⟩ := hends
  have hgranted : GrantedFrom p ⟨Set.univ, Set.univ, visible, True⟩ m
      (syscallEmuX86_64 p fuel c.no c.args) :=
    SysCall.grantedFrom trivial (Or.inr rfl) fuel (Set.subset_univ _) (Set.subset_univ _) hreads
  exact ⟨_, ⟨fuel, rfl⟩, hgranted.matches halike⟩

theorem Action.Sees.follows {act : Action} (hsees : act.Sees p visible m m')
    (hsame : p.SameFirmware p') (hkeys : p.GivesKeys) (halike : m.AlikeOn visible t) :
    ∃ t', act.Does p' t t' ∧ m'.AlikeOn visible t' := by
  obtain ⟨hreads, hwritten, hdoes⟩ := hsees
  cases hdoes with
  | store address bytes m => exact ⟨_, .store address bytes t, halike.store address bytes⟩
  | call hends =>
      obtain ⟨result, hends', hmatches⟩ := hends.matches hreads halike
      obtain ⟨t', rfl, halike'⟩ := hmatches.follows
      exact ⟨t', .call (hends'.overStack hwritten hsame hkeys), halike'⟩

/-- On firmware whose reads of keys succeed, two machines that agree on the table, the
journal and the memory that the session's calls read cannot be told apart, whatever else
memory, the static buffer and the stack hold in each, by calls that read no local before
they have written it: the same session is possible from both, with the same words returned
and the same firmware calls, and its last call ends in the same way. -/
theorem session_hides_memory (hsame : p.SameFirmware p') (hkeys : p.GivesKeys)
    (hsession : Run (Action.Sees p visible) m acts m') (hreads : c.reads m' ⊆ visible)
    (hwritten : c.ReadsWritten) (hends : c.Ends p m' result) (halike : m.AlikeOn visible t) :
    ∃ t' result', Session p' t acts t' ∧ c.Ends p' t' result' ∧
      Matches (Machine.AlikeOn visible) result result' := by
  obtain ⟨t', hsession', halike'⟩ := hsession.simulate
    (fun act s s' u halike hsees => hsees.follows hsame hkeys halike) halike
  obtain ⟨result', hends', hmatches⟩ := hends.matches hreads halike'
  exact ⟨t', result', hsession', hends'.overStack hwritten hsame hkeys, hmatches⟩

/-- Stack contents other than zeros. -/
def fullStack : List Event → Residue :=
  fun _ => ⟨efiAborted, 7, { EfiFileInfo.zero with fileSize := 7 }⟩

/-- Printing four bytes after reading the clock, with and without a byte at 5, over an
empty stack and over a full one. -/
theorem session_hides_memory_print :
    ∃ m' result t' result',
      Run (Action.Sees workingFirmware (region 300 4)) Machine.blank
        ([] ++ [.call ⟨96, [200]⟩ 0]) m' ∧
      SysCall.Ends workingFirmware ⟨1, [1, 300, 4]⟩ m' result ∧
      Session (workingFirmware.withResidue fullStack)
        { Machine.blank with mem := Machine.blank.mem.store 5 [7] }
        ([] ++ [.call ⟨96, [200]⟩ 0]) t' ∧
      SysCall.Ends (workingFirmware.withResidue fullStack) ⟨1, [1, 300, 4]⟩ t' result' ∧
      Matches (Machine.AlikeOn (region 300 4)) result result' := by
  have hwrites : ∀ {c : SysCall} {r : Request}, dispatch c.no c.args = .ok r →
      r.ReadsWritten → c.ReadsWritten := by
    intro c r hdispatch hwritten r' hdispatch'
    rw [hdispatch, Except.ok.injEq] at hdispatch'
    exact hdispatch' ▸ hwritten
  have hclocked : (Action.call ⟨96, [200]⟩ 0).ReadsWritten :=
    hwrites (c := ⟨96, [200]⟩) (r := .timeGettimeofday 200) rfl trivial
  have hprinted : SysCall.ReadsWritten ⟨1, [1, 300, 4]⟩ :=
    hwrites (c := ⟨1, [1, 300, 4]⟩) (r := .fdWrite 1 300 4) rfl trivial
  obtain ⟨s, hclock⟩ : ∃ s, Run (Action.Sees workingFirmware (region 300 4)) Machine.blank
      ([] ++ [.call ⟨96, [200]⟩ 0]) s :=
    ⟨_, (Run.nil _).snoc ⟨Set.empty_subset _, hclocked, .call (c := ⟨96, [200]⟩) ⟨0, rfl⟩⟩⟩
  have hprint : SysCall.Ends workingFirmware ⟨1, [1, 300, 4]⟩ s
      ((syscallEmuX86_64 workingFirmware 5 1 [1, 300, 4]).run s) := ⟨5, rfl⟩
  have halike : Machine.blank.AlikeOn (region 300 4)
      { Machine.blank with mem := Machine.blank.mem.store 5 [7] } := by
    refine ⟨rfl, rfl, fun a ha => ?_⟩
    have hother : a ∉ region 5 1 := by
      rw [mem_region] at ha ⊢
      have hsub := UInt64.toNat_sub a 300
      have hsub' := UInt64.toNat_sub a 5
      change _ = (2 ^ 64 - 300 + _) % _ at hsub
      change _ = (2 ^ 64 - 5 + _) % _ at hsub'
      have := a.toNat_lt
      omega
    refine (Memory.store_apply_of_outside ?_).symm
    rintro i hi rfl
    exact hother ⟨i, hi, rfl⟩
  have hsame : workingFirmware.SameFirmware (workingFirmware.withResidue fullStack) :=
    ⟨rfl, fun _ _ _ => rfl⟩
  have hkeys : workingFirmware.GivesKeys := fun _ =>
    (by decide : efiError efiSuccess = false)
  obtain ⟨t', result', hsession, hends, hmatches⟩ := session_hides_memory hsame hkeys hclock
    (Set.Subset.refl _) hprinted hprint halike
  exact ⟨s, _, t', result', hclock, hprint, hsession, hends, hmatches⟩

end Sessions

end UefiLinux
