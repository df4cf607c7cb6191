/-
The footprint of every system call: which firmware calls it can make, where in memory it
can store, and which memory its course can depend on.  A path is read no further than
the NUL, or the limit, at which its conversion ends.
-/
import UefiLinux.Granting
import UefiLinux.PathNames
import UefiLinux.Redirecting

namespace UefiLinux

open Progress Journal Patches

section Paths

/-- The bytes that a conversion looks at, the one it ends on included. -/
def Machine.stringCells (m : Machine) (input : UInt64) : Set UInt64 :=
  region input (copied (fun i => m.mem (input + UInt64.ofNat i)) wideLimit 0 + 1)

theorem copied_le (input : Nat → UInt8) (left it : Nat) : copied input left it ≤ left := by
  induction left generalizing it with
  | zero => exact Nat.le_refl 0
  | succ left ih =>
      rw [copied]
      split
      · exact Nat.zero_le _
      · exact Nat.succ_le_succ (ih (it + 1))

theorem copied_ne_zero {input : Nat → UInt8} {left it i : Nat}
    (hi : i < copied input left it) : input (it + i) ≠ 0 := by
  induction left generalizing it i with
  | zero => cases hi
  | succ left ih =>
      rw [copied] at hi
      split at hi
      · cases hi
      · rename_i hgo
        cases i with
        | zero => exact hgo
        | succ i =>
            have hrest := ih (Nat.lt_of_succ_lt_succ hi)
            rwa [Nat.add_right_comm] at hrest

/-- Strings that agree up to the end of the first are copied alike. -/
theorem copied_congr {input input' : Nat → UInt8} {left it : Nat}
    (hsame : ∀ i ≤ copied input left it, input (it + i) = input' (it + i)) :
    copied input' left it = copied input left it := by
  induction left generalizing it with
  | zero => rfl
  | succ left ih =>
      have hfirst : input it = input' it := hsame 0 (Nat.zero_le _)
      rw [copied] at hsame
      rw [copied, copied, ← hfirst]
      split
      · rfl
      · rename_i hgo
        rw [if_neg hgo] at hsame
        rw [ih]
        intro i hi
        have hnext := hsame (i + 1) (Nat.succ_le_succ hi)
        rwa [← Nat.add_assoc, Nat.add_right_comm] at hnext

/-- The units that a conversion puts before the NUL it ends with. -/
def copiedUnits (input : Nat → UInt8) : List UInt16 :=
  (List.range (copied input wideLimit 0)).map fun i => (input i).toUInt16

theorem zero_not_mem_copiedUnits (input : Nat → UInt8) : 0 ∉ copiedUnits input := by
  rw [copiedUnits, List.mem_map]
  rintro ⟨i, hi, hzero⟩
  have hnonzero := copied_ne_zero (List.mem_range.mp hi)
  have hnat := congrArg UInt16.toNat hzero
  rw [UInt8.toNat_toUInt16] at hnat
  rw [Nat.zero_add] at hnonzero
  exact hnonzero (UInt8.toNat_inj.mp hnat)

/-- After a conversion the buffer holds the bytes copied, one a unit, and a NUL. -/
theorem convert_copiedUnits (m : Machine) (input : UInt64) :
    ∃ rest, fresUnits (m.convert input).fres =
      copiedUnits (fun i => m.mem (input + UInt64.ofNat i)) ++ 0 :: rest := by
  have hle : copied (fun i => m.mem (input + UInt64.ofNat i)) wideLimit 0 ≤ 510 :=
    copied_le _ wideLimit 0
  have hlength := fresUnits_length (m.convert input).fres
  generalize hcopied : copied (fun i => m.mem (input + UInt64.ofNat i)) wideLimit 0 = n at hle
  have hbelow : n < (fresUnits (m.convert input).fres).length := by omega
  have htake : (fresUnits (m.convert input).fres).take n =
      copiedUnits fun i => m.mem (input + UInt64.ofNat i) := by
    rw [copiedUnits, hcopied]
    apply List.ext_getElem
    · simp only [List.length_take, hlength, List.length_map, List.length_range]
      omega
    · intro i hi hi'
      have hbound : i < n := by simpa using hi'
      obtain ⟨hbyte, hhigh⟩ := mem_bstrStores (fun i => m.mem (input + UInt64.ofNat i))
        (hcopied ▸ hbound)
      rw [Nat.zero_add] at hbyte hhigh
      rw [List.getElem_take, convert_unit (by omega) _ hbyte hhigh]
      simp
  have hend : (fresUnits (m.convert input).fres)[n] = 0 := by
    obtain ⟨hbyte, hhigh⟩ :=
      end_mem_bstrStores (fun i => m.mem (input + UInt64.ofNat i)) wideLimit 0
    rw [Nat.zero_add, hcopied] at hbyte hhigh
    exact convert_unit (by omega) hbelow hbyte hhigh
  refine ⟨(fresUnits (m.convert input).fres).drop (n + 1), ?_⟩
  rw [← htake, ← hend, ← List.drop_eq_getElem_cons hbelow, List.take_append_drop]

theorem widePath_eq_copiedUnits (m : Machine) (input : UInt64) :
    m.widePath input = copiedUnits fun i => m.mem (input + UInt64.ofNat i) := by
  obtain ⟨rest, hunits⟩ := convert_copiedUnits m input
  rw [Machine.widePath, wideUnits_eq, hunits, List.takeWhile_append_of_pos]
  · simp
  · intro unit hunit
    rw [decide_eq_true_eq]
    exact fun hzero => zero_not_mem_copiedUnits _ (hzero ▸ hunit)

/-- A path is converted alike in machines that agree on the string. -/
theorem widePath_congr {m t : Machine} {input : UInt64}
    (halike : m.AlikeOn (m.stringCells input) t) : m.widePath input = t.widePath input := by
  have hsame : ∀ i ≤ copied (fun i => m.mem (input + UInt64.ofNat i)) wideLimit 0,
      m.mem (input + UInt64.ofNat i) = t.mem (input + UInt64.ofNat i) :=
    fun i hi => halike.mem _ ⟨i, Nat.lt_succ_of_le hi, rfl⟩
  have hcopied : copied (fun i => t.mem (input + UInt64.ofNat i)) wideLimit 0 =
      copied (fun i => m.mem (input + UInt64.ofNat i)) wideLimit 0 := by
    apply copied_congr
    intro i hi
    rw [Nat.zero_add]
    exact hsame i hi
  rw [widePath_eq_copiedUnits, widePath_eq_copiedUnits, copiedUnits, copiedUnits, hcopied]
  apply List.map_congr_left
  intro i hi
  rw [hsame i (Nat.le_of_lt (List.mem_range.mp hi))]

end Paths

section From

variable {p : Platform} {g : Grant} {m : Machine} {α : Type}

/-- From the machine, and from every machine like it, the program runs as one granted
program does, up to what the static buffer holds. -/
def GrantedFrom (p : Platform) (g : Grant) (m : Machine) (x : M α) : Prop :=
  ∃ y : M α, Granted p g y ∧ ∀ t, m.AlikeOn g.reads t → ∃ fres, x.run t = y.run (t.withFres fres)

theorem GrantedFrom.of_run {x y : M α} (hy : Granted p g y)
    (hrun : ∀ t, m.AlikeOn g.reads t → x.run t = y.run t) : GrantedFrom p g m x :=
  ⟨y, hy, fun t halike => ⟨t.fres, hrun t halike⟩⟩

theorem Granted.fromMachine {x : M α} (hx : Granted p g x) : GrantedFrom p g m x :=
  .of_run hx fun _ _ => rfl

theorem GrantedFrom.keeps {x : M α} (hx : GrantedFrom p g m x) :
    g.Keeps m (finalState (x.run m)) := by
  obtain ⟨y, hy, hsame⟩ := hx
  obtain ⟨fres, hrun⟩ := hsame m (Machine.AlikeOn.refl _ m)
  rw [hrun]
  have hstart : g.Keeps m (m.withFres fres) := .of_eq rfl rfl
  exact trans_of g.Keeps hstart (hy.keeps _)

theorem GrantedFrom.matches {x : M α} (hx : GrantedFrom p g m x) {t : Machine}
    (halike : m.AlikeOn g.reads t) :
    Matches (Machine.AlikeOn g.reads) (x.run m) (x.run t) := by
  obtain ⟨y, hy, hsame⟩ := hx
  obtain ⟨fres, hrun⟩ := hsame m (Machine.AlikeOn.refl _ m)
  obtain ⟨fres', hrun'⟩ := hsame t halike
  rw [hrun, hrun']
  apply hy.blind
  exact ((m.withFres_alikeOn g.reads fres).symm.trans halike).trans
    (t.withFres_alikeOn g.reads fres')

/-- A conversion, and what is done with the path it gives. -/
theorem GrantedFrom.convert {input : UInt64} {f : List UInt16 → M α}
    (hreads : m.stringCells input ⊆ g.reads) (hf : ∀ path, Granted p g (f path)) :
    GrantedFrom p g m (bstrToWstr input >>= f) := by
  refine ⟨f (m.widePath input), hf _, fun t halike => ⟨(t.convert input).fres, ?_⟩⟩
  rw [run_bind_of_ok (bstrToWstr_run input t), widePath_congr (halike.mono hreads)]
  rfl

theorem Granted.asWord {x : M Int} (hx : Granted p g x) : Granted p g (asWord x) := by
  rw [UefiLinux.asWord, map_eq_pure_bind]
  exact Composed.andThen hx fun v => .pure _

theorem asWord_run_congr {x y : M Int} {s t : Machine} (hrun : x.run s = y.run t) :
    (UefiLinux.asWord x).run s = (UefiLinux.asWord y).run t := by
  rw [asWord_run, asWord_run, hrun]

theorem GrantedFrom.asWord {x : M Int} (hx : GrantedFrom p g m x) :
    GrantedFrom p g m (asWord x) := by
  obtain ⟨y, hy, hsame⟩ := hx
  refine ⟨UefiLinux.asWord y, hy.asWord, fun t halike => ?_⟩
  obtain ⟨fres, hrun⟩ := hsame t halike
  exact ⟨fres, asWord_run_congr hrun⟩

/-- Alike machines have the same open descriptors. -/
theorem Machine.AlikeOn.openHandle {reads : Set UInt64} {t : Machine}
    (halike : m.AlikeOn reads t) (fd : Int) : m.openHandle fd = t.openHandle fd := by
  rw [Machine.openHandle, Machine.openHandle, halike.fds]

/-- The guard hands on the handle of an open descriptor or refuses. -/
theorem withFd_runsAs {fd : Int} {taken : FileHandle → M Int}
    (htaken : ∀ handle, m.openHandle fd = some handle → Granted p g (taken handle)) :
    ∃ y, Granted p g y ∧ ∀ t, m.AlikeOn g.reads t → (withFd fd taken).run t = y.run t := by
  by_cases hhigh : 16 < fd
  · refine ⟨pure Errno.ebadf.neg, .pure _, fun t halike => ?_⟩
    rw [withFd_run, if_pos hhigh]
    rfl
  · by_cases hlow : fd < 4
    · refine ⟨pure Errno.eacces.neg, .pure _, fun t halike => ?_⟩
      rw [withFd_run, if_neg hhigh, if_pos hlow]
      rfl
    · cases hopen : m.openHandle fd with
      | none =>
          refine ⟨pure Errno.ebadf.neg, .pure _, fun t halike => ?_⟩
          rw [withFd_run, if_neg hhigh, if_neg hlow, ← halike.openHandle, hopen]
          rfl
      | some handle =>
          refine ⟨taken handle, htaken handle hopen, fun t halike => ?_⟩
          rw [withFd_run, if_neg hhigh, if_neg hlow, ← halike.openHandle, hopen]

theorem withFd_grantedFrom {fd : Int} {taken : FileHandle → M Int}
    (htaken : ∀ handle, m.openHandle fd = some handle → Granted p g (taken handle)) :
    GrantedFrom p g m (withFd fd taken) := by
  obtain ⟨y, hy, hrun⟩ := withFd_runsAs htaken
  exact .of_run hy hrun

/-- `fd_dup2`, whose inner close takes the handle of `new_fd`. -/
theorem fdDup2_grantedFrom (htable : g.table) {oldFd newFd : Int}
    (hclose : ∀ handle, m.openHandle newFd = some handle → Call.close handle ∈ g.calls) :
    GrantedFrom p g m (fdDup2 p oldFd newFd) := by
  obtain ⟨closes, hcloses, hclosed⟩ := withFd_runsAs (g := g) fun handle hopen =>
    fdCloseTaken_granted (p := p) htable newFd (hclose handle hopen)
  by_cases hhigh : oldFd > (maxFds : Int)
  · refine .of_run (.pure Errno.ebadf.neg) fun t _ => ?_
    rw [fdDup2, if_pos hhigh]
  · by_cases hlow : oldFd < virtualFdBase
    · refine .of_run (.pure Errno.eacces.neg) fun t _ => ?_
      rw [fdDup2, if_neg hhigh, if_pos hlow]
    · -- the close is made in the machine in which the slot of `new_fd` has been read
      have hcourse : Granted p g (do
          if (← fdsRead (toRealFd newFd)).isSome then
            let res ← closes
            if res < 0 then return res
          fdDup2Rest oldFd newFd) := by
        refine Composed.andThen (fdsRead_granted htable _) fun held => ?_
        refine Composed.ite (Composed.andThen hcloses fun res => ?_)
          (fdDup2Rest_granted htable oldFd newFd)
        exact Granted.checked (fdDup2Rest_granted htable oldFd newFd)
      refine .of_run hcourse fun t halike => ?_
      rw [fdDup2, if_neg hhigh, if_neg hlow, EStateM.run_bind, EStateM.run_bind]
      cases hslot : slotOf newFd with
      | none => rw [fdsRead_run_of_none hslot]
      | some r =>
          rw [fdsRead_run_of_slotOf hslot]
          simp only
          split
          · rw [EStateM.run_bind, EStateM.run_bind, fdClose, hclosed t halike]
          · rfl

theorem GrantedFrom.ite {c : Prop} [Decidable c] {x y : M α} (hx : c → GrantedFrom p g m x)
    (hy : ¬ c → GrantedFrom p g m y) : GrantedFrom p g m (if c then x else y) := by
  split
  · rename_i hc
    exact hx hc
  · rename_i hc
    exact hy hc

theorem announce_run (text : List UInt16) (t : Machine) :
    (announce p text).run t = .ok ⟨⟩ (p.after t (.outputString text)) := by
  rw [announce, run_bind_of_ok (uefiCallWrapper_run p rfl t)]
  rfl

/-- A conversion after an announcement, and what is done with the string it gives. -/
theorem GrantedFrom.announce_convert {text : List UInt16} {input : UInt64}
    {f : List UInt16 → M α} (hprint : Call.outputString text ∈ g.calls)
    (hreads : m.stringCells input ⊆ g.reads) (hf : ∀ string, Granted p g (f string)) :
    GrantedFrom p g m (announce p text >>= fun _ => bstrToWstr input >>= f) := by
  refine ⟨announce p text >>= fun _ => f (m.widePath input),
    Composed.andThen (announce_granted hprint) fun _ => hf _,
    fun t halike => ⟨(t.convert input).fres, ?_⟩⟩
  have hpath : (p.after t (.outputString text)).widePath input = m.widePath input :=
    (widePath_congr (halike.mono hreads)).symm
  rw [run_bind_of_ok (announce_run text t), run_bind_of_ok (bstrToWstr_run input _), hpath,
    run_bind_of_ok (announce_run text _)]
  rfl

end From

section Requests

/-- The calls on the handle of a descriptor, when it is open. -/
def Machine.onOpen (m : Machine) (fd : Int) (calls : FileHandle → Set Call) : Set Call :=
  { c | ∃ handle, m.openHandle fd = some handle ∧ c ∈ calls handle }

def prints : Set Call := { c | ∃ text, c = .outputString text }

/-- Waiting for keys and echoing them. -/
def readsKeys : Set Call := { .stall 1000, .waitForEvent, .readKeyStroke } ∪ prints

/-- Opening an object, looking at it, and preparing it as the flags say. -/
def opensObject (flags : UInt32) : Set Call :=
  { c | (∃ path, c = openCall path flags) ∨ ∃ handle,
    c = .getInfo handle sizeofEfiFileInfo ∨
    (hasFlag flags oAppend ∧ c = .setPosition handle 0xFFFFFFFFFFFFFFFF) ∨
    (¬ hasFlag flags oAppend ∧ openMode flags &&& efiFileModeWrite ≠ 0 ∧
      ∃ info, c = .setInfo handle sizeofEfiFileInfo info) }

def looksUp : Set Call :=
  { c | (∃ path, c = statCall path) ∨ ∃ handle, c = .getInfo handle sizeofEfiFileInfo }

/-- The reset of a reboot command. -/
def resets (cmd : UInt32) : Set Call :=
  { c | (cmd = linuxRebootCmdPowerOff ∧ c = .resetSystem .shutdown efiSuccess (34 * 2)
      (wide "LINUX_REBOOT_CMD_POWER_OFF called")) ∨
    (cmd = linuxRebootCmdRestart ∧ c = .resetSystem .warm efiSuccess 32
      (wide "LINUX_REBOOT_CMD_RESTART called")) ∨
    (cmd = linuxRebootCmdRestart2 ∧ c = .resetSystem .warm efiSuccess 33
      (wide "LINUX_REBOOT_CMD_RESTART2 called")) }

/-- The firmware calls a request can make in a machine. -/
def Request.calls (m : Machine) : Request → Set Call
  | .fdRead fd _ count =>
      if fd = 0 then readsKeys else m.onOpen fd fun handle => { .read handle count }
  | .fdWrite fd _ count =>
      if fd = 1 ∨ fd = 2 then prints
      else m.onOpen fd fun handle => { c | ∃ data, c = .write handle count data }
  | .fdOpen _ flags => opensObject flags
  | .fdClose fd => m.onOpen fd fun handle => { .close handle }
  | .fdStat _ _ => looksUp
  | .fdFstat fd _ => m.onOpen fd fun handle => { .getInfo handle sizeofEfiFileInfo }
  | .fdLseek fd _ _ => m.onOpen fd fun handle =>
      { c | c = .getPosition handle ∨ ∃ position, c = .setPosition handle position }
  | .memMmap _ length _ _ fd _ => { c | fd ≤ 0 ∧ c = .allocatePool length }
  | .memMunmap addr _ => { .freePool addr }
  | .fdSelect nfds readfds writefds exceptfds _ =>
      { c | (nfds = 0 ∧ readfds = 0 ∧ writefds = 0 ∧ exceptfds = 0) ∧
        ∃ microseconds, c = .stall microseconds }
  | .fdDup2 _ newFd => m.onOpen newFd fun handle => { .close handle }
  | .procExit status => { .exit (if status ≠ 0 then efiEndOfFile else efiSuccess) }
  | .fdFsync fd => m.onOpen fd fun handle => { .flush handle }
  | .procKill pid sig => { c | pid = emuPid ∧ sig < 30 ∧ c = .exit efiAborted }
  | .timeGettimeofday _ => { .getTime }
  | .powerReboot magic1 magic2 cmd _ =>
      { c | rebootMagicValid magic1 magic2 ∧ (c ∈ prints ∨ c ∈ resets cmd) }
  | .fdGetdents64 fd _ _ => m.onOpen fd fun handle => { .read handle scratchSize }
  | .fdDup _ | .constant _ | .notPermitted | .notImplemented => ∅

/-- What a request may ask of the firmware, whatever the machine. -/
inductive Request.Asks : Request → Call → Prop
  | stall {buf count} : Asks (.fdRead 0 buf count) (.stall 1000)
  | wait {buf count} : Asks (.fdRead 0 buf count) .waitForEvent
  | key {buf count} : Asks (.fdRead 0 buf count) .readKeyStroke
  | echo {buf count} (text) : Asks (.fdRead 0 buf count) (.outputString text)
  | read {fd buf count} (handle) (hfile : fd ≠ 0) :
      Asks (.fdRead fd buf count) (.read handle count)
  | print {fd buf count} (text) (hconsole : fd = 1 ∨ fd = 2) :
      Asks (.fdWrite fd buf count) (.outputString text)
  | write {fd buf count} (handle data) (hfile : ¬ (fd = 1 ∨ fd = 2)) :
      Asks (.fdWrite fd buf count) (.write handle count data)
  | opens {pathname flags} (path) : Asks (.fdOpen pathname flags) (openCall path flags)
  | openInfo {pathname flags} (handle) :
      Asks (.fdOpen pathname flags) (.getInfo handle sizeofEfiFileInfo)
  | toEnd {pathname flags} (handle) :
      Asks (.fdOpen pathname flags) (.setPosition handle 0xFFFFFFFFFFFFFFFF)
  | truncate {pathname flags} (handle info) :
      Asks (.fdOpen pathname flags) (.setInfo handle sizeofEfiFileInfo info)
  | close {fd} (handle) : Asks (.fdClose fd) (.close handle)
  | looks {path buf} (widePath) : Asks (.fdStat path buf) (statCall widePath)
  | statInfo {path buf} (handle) : Asks (.fdStat path buf) (.getInfo handle sizeofEfiFileInfo)
  | fstatInfo {fd buf} (handle) : Asks (.fdFstat fd buf) (.getInfo handle sizeofEfiFileInfo)
  | tell {fd offset whence} (handle) : Asks (.fdLseek fd offset whence) (.getPosition handle)
  | seek {fd offset whence} (handle position) :
      Asks (.fdLseek fd offset whence) (.setPosition handle position)
  | allocates {addr length prot flags fd offset} :
      Asks (.memMmap addr length prot flags fd offset) (.allocatePool length)
  | frees {addr length} : Asks (.memMunmap addr length) (.freePool addr)
  | sleeps {timeout} (microseconds) : Asks (.fdSelect 0 0 0 0 timeout) (.stall microseconds)
  | replaces {oldFd newFd} (handle) : Asks (.fdDup2 oldFd newFd) (.close handle)
  | exits {status} :
      Asks (.procExit status) (.exit (if status ≠ 0 then efiEndOfFile else efiSuccess))
  | flushes {fd} (handle) : Asks (.fdFsync fd) (.flush handle)
  | aborts {sig} (hsig : sig < 30) : Asks (.procKill emuPid sig) (.exit efiAborted)
  | clock {tv} : Asks (.timeGettimeofday tv) .getTime
  | announces {magic1 magic2 cmd arg} (text) (hvalid : rebootMagicValid magic1 magic2) :
      Asks (.powerReboot magic1 magic2 cmd arg) (.outputString text)
  | resets {magic1 magic2 cmd arg call} (hvalid : rebootMagicValid magic1 magic2)
      (hresets : call ∈ UefiLinux.resets cmd) : Asks (.powerReboot magic1 magic2 cmd arg) call
  | entries {fd dirp count} (handle) :
      Asks (.fdGetdents64 fd dirp count) (.read handle scratchSize)

theorem Request.asks_of_calls {m : Machine} {r : Request} {c : Call} (hin : c ∈ r.calls m) :
    r.Asks c := by
  cases r with
  | fdRead fd buf count =>
      rw [Request.calls] at hin
      split at hin
      · rename_i hconsole
        subst hconsole
        rcases hin with (rfl | rfl | rfl) | ⟨text, rfl⟩
        · exact .stall
        · exact .wait
        · exact .key
        · exact .echo text
      · rename_i hfile
        obtain ⟨handle, _, rfl⟩ := hin
        exact .read handle hfile
  | fdWrite fd buf count =>
      rw [Request.calls] at hin
      split at hin
      · rename_i hconsole
        obtain ⟨text, rfl⟩ := hin
        exact .print text hconsole
      · rename_i hfile
        obtain ⟨handle, _, data, rfl⟩ := hin
        exact .write handle data hfile
  | fdOpen pathname flags =>
      rcases hin with ⟨path, rfl⟩ | ⟨handle, rfl | ⟨_, rfl⟩ | ⟨_, _, info, rfl⟩⟩
      · exact .opens path
      · exact .openInfo handle
      · exact .toEnd handle
      · exact .truncate handle info
  | fdClose fd =>
      obtain ⟨handle, _, rfl⟩ := hin
      exact .close handle
  | fdStat path buf =>
      rcases hin with ⟨widePath, rfl⟩ | ⟨handle, rfl⟩
      · exact .looks widePath
      · exact .statInfo handle
  | fdFstat fd buf =>
      obtain ⟨handle, _, rfl⟩ := hin
      exact .fstatInfo handle
  | fdLseek fd offset whence =>
      obtain ⟨handle, _, rfl | ⟨position, rfl⟩⟩ := hin
      · exact .tell handle
      · exact .seek handle position
  | memMmap addr length prot flags fd offset =>
      obtain ⟨_, rfl⟩ := hin
      exact .allocates
  | memMunmap addr length =>
      cases hin
      exact .frees
  | fdSelect nfds readfds writefds exceptfds timeout =>
      obtain ⟨⟨rfl, rfl, rfl, rfl⟩, microseconds, rfl⟩ := hin
      exact .sleeps microseconds
  | fdDup2 oldFd newFd =>
      obtain ⟨handle, _, rfl⟩ := hin
      exact .replaces handle
  | procExit status =>
      cases hin
      exact .exits
  | fdFsync fd =>
      obtain ⟨handle, _, rfl⟩ := hin
      exact .flushes handle
  | procKill pid sig =>
      obtain ⟨rfl, hsig, rfl⟩ := hin
      exact .aborts hsig
  | timeGettimeofday tv =>
      cases hin
      exact .clock
  | powerReboot magic1 magic2 cmd arg =>
      obtain ⟨hvalid, ⟨text, rfl⟩ | hresets⟩ := hin
      · exact .announces text hvalid
      · exact .resets hvalid hresets
  | fdGetdents64 fd dirp count =>
      obtain ⟨handle, _, rfl⟩ := hin
      exact .entries handle
  | fdDup _ | constant _ | notPermitted | notImplemented => cases hin

/-- The place of a directory record: what comes before `d_type`, and the name. -/
def direntRegion (dire : UInt64) : Set UInt64 :=
  region dire 18 ∪ region (dire + 19) scratchUnits

/-- The memory a request can store to.  For `getdents64` it is not the buffer but the place
behind its whole records where every record goes: 18 bytes, and 664 from offset 19 on. -/
def Request.writes : Request → Set UInt64
  | .fdRead _ buf count => region buf count.toNat
  | .fdStat _ buf | .fdFstat _ buf => statRegion buf
  | .timeGettimeofday tv => region tv 16
  | .fdGetdents64 _ dirp count =>
      direntRegion (dirp + UInt64.ofInt (direntCount count * sizeofDirent))
  | _ => ∅

/-- The memory the course of a request can depend on. -/
def Request.reads (m : Machine) : Request → Set UInt64
  | .fdWrite _ buf count => region buf count.toNat
  | .fdOpen path _ | .fdStat path _ => m.stringCells path
  | .fdSelect _ _ _ _ timeout => region timeout 16
  | .powerReboot _ _ cmd arg => if cmd = linuxRebootCmdRestart2 then m.stringCells arg else ∅
  | _ => ∅

/-- The firmware's file transfers keep to the size they are asked for. -/
def Platform.ReadsBounded (p : Platform) : Prop :=
  ∀ log handle count, (p.reply log (.read handle count)).data.length ≤ count.toNat

section Handlers

variable {p : Platform} {g : Grant} {m : Machine}

theorem fdOpen_grantedFrom {pathname : UInt64} {flags : UInt32}
    (hcalls : opensObject flags ⊆ g.calls) (hreads : m.stringCells pathname ⊆ g.reads) :
    GrantedFrom p g m (fdOpen p pathname flags) := by
  have hopen : ∀ path, openCall path flags ∈ g.calls :=
    fun path => hcalls (Or.inl ⟨path, rfl⟩)
  have hinfo : ∀ handle, Call.getInfo handle sizeofEfiFileInfo ∈ g.calls :=
    fun handle => hcalls (Or.inr ⟨handle, Or.inl rfl⟩)
  have heffects : ∀ handle info, Granted p g (openEffects p handle flags info) := by
    intro handle info
    refine openEffects_granted (fun happend => ?_) (fun happend hwrite info => ?_) info
    · exact hcalls (Or.inr ⟨handle, Or.inr (Or.inl ⟨happend, rfl⟩)⟩)
    · exact hcalls (Or.inr ⟨handle, Or.inr (Or.inr ⟨happend, hwrite, info, rfl⟩)⟩)
  by_cases hfull : fdRealFindFree m.fds < 0
  · refine .of_run (.pure Errno.emfile.neg) fun t halike => ?_
    rw [fdOpen, run_bind_of_ok (EStateM.run_get t)]
    simp only [← halike.fds, if_pos hfull]
  · have hrest : GrantedFrom p g m (bstrToWstr pathname >>= fun path => do
        let opened ← uefiCallWrapper p (openCall path flags)
        if efiError opened.status then return failure opened.status
        let got ← fdEfiGetFileInfo p opened.handle
        if efiError got.status then return failure got.status
        openEffects p opened.handle flags got.info
        return openResult (fdRealFindFree m.fds) flags got.info) := by
      refine .convert hreads fun path => Granted.call (hopen path) fun opened => ?_
      refine Granted.checked (Composed.andThen (fdEfiGetFileInfo_granted (hinfo _)) fun got => ?_)
      exact Granted.checked (Composed.andThen (heffects _ _) fun _ => .pure _)
    obtain ⟨y, hy, hsame⟩ := hrest
    refine ⟨y, hy, fun t halike => ?_⟩
    obtain ⟨fres, hrun⟩ := hsame t halike
    refine ⟨fres, ?_⟩
    rw [fdOpen, run_bind_of_ok (EStateM.run_get t)]
    simp only [← halike.fds, if_neg hfull]
    exact hrun

theorem fdStat_grantedFrom {path buf : UInt64} (hcalls : looksUp ⊆ g.calls)
    (hwrites : statRegion buf ⊆ g.writes) (hreads : m.stringCells path ⊆ g.reads) :
    GrantedFrom p g m (fdStat p path buf) := by
  refine .convert hreads fun widePath => Granted.call (hcalls (Or.inl ⟨widePath, rfl⟩))
    fun opened => Granted.checked ?_
  exact fdEfiStat_granted hwrites (hcalls (Or.inr ⟨opened.handle, rfl⟩))

theorem powerReboot_grantedFrom {magic1 magic2 cmd : UInt32} {arg : UInt64}
    (hcalls : Request.calls m (.powerReboot magic1 magic2 cmd arg) ⊆ g.calls)
    (hreads : Request.reads m (.powerReboot magic1 magic2 cmd arg) ⊆ g.reads) :
    GrantedFrom p g m (powerReboot p magic1 magic2 cmd arg) := by
  unfold powerReboot
  refine .ite (fun _ => Granted.fromMachine (.pure _)) fun hvalid => ?_
  have hmagic : rebootMagicValid magic1 magic2 = true := not_not.mp hvalid
  have hprint : ∀ text, Call.outputString text ∈ g.calls :=
    fun text => hcalls ⟨hmagic, Or.inl ⟨text, rfl⟩⟩
  have hreset : resets cmd ⊆ g.calls := fun c hc => hcalls ⟨hmagic, Or.inr hc⟩
  refine .ite (fun _ => Granted.fromMachine (.pure _)) fun _ => ?_
  refine .ite (fun _ => ?_) fun _ => .ite (fun _ => Granted.fromMachine (.pure _)) fun _ =>
    .ite (fun _ => Granted.fromMachine (.pure _)) fun _ => .ite (fun hoff => ?_) fun _ =>
      .ite (fun hrestart => ?_) fun _ => .ite (fun hcommand => ?_)
        fun _ => Granted.fromMachine (.pure _)
  · refine Granted.fromMachine (Composed.andThen (announce_granted (hprint _)) fun _ => ?_)
    exact Granted.stop (by simp) (by rintro ⟨index, ⟨⟩⟩)
  · refine Granted.fromMachine (Composed.andThen (announce_granted (hprint _)) fun _ => ?_)
    exact resetAndReturn_granted (hreset (Or.inl ⟨hoff, rfl⟩))
  · refine Granted.fromMachine (Composed.andThen (announce_granted (hprint _)) fun _ => ?_)
    exact resetAndReturn_granted (hreset (Or.inr (Or.inl ⟨hrestart, rfl⟩)))
  · rw [Request.reads, if_pos hcommand] at hreads
    refine .announce_convert (hprint _) hreads fun command => ?_
    refine Composed.andThen (announce_granted (hprint _)) fun _ => ?_
    refine Composed.andThen (announce_granted (hprint _)) fun _ => ?_
    exact resetAndReturn_granted (hreset (Or.inr (Or.inr ⟨hcommand, rfl⟩)))

/-- A descriptor handler, given what it does with the handle of an open descriptor. -/
theorem onOpen_grantedFrom {fd : Int} {taken : FileHandle → M Int}
    {calls : FileHandle → Set Call} (hcalls : m.onOpen fd calls ⊆ g.calls)
    (htaken : ∀ handle, calls handle ⊆ g.calls → Granted p g (taken handle)) :
    GrantedFrom p g m (asWord (withFd fd taken)) := by
  refine GrantedFrom.asWord (withFd_grantedFrom fun handle hopen => htaken handle ?_)
  exact fun c hc => hcalls ⟨handle, hopen, hc⟩

theorem fdRead_grantedFrom (hdata : p.ReadsBounded ∨ g.writes = Set.univ) (fuel : Nat)
    {fd : Int} {buf count : UInt64} (hcalls : Request.calls m (.fdRead fd buf count) ⊆ g.calls)
    (hwrites : region buf count.toNat ⊆ g.writes) :
    GrantedFrom p g m (Request.exec p fuel (.fdRead fd buf count)) := by
  by_cases hconsole : fd = 0
  · rw [Request.calls, if_pos hconsole] at hcalls
    have hprint : ∀ text, Call.outputString text ∈ g.calls :=
      fun text => hcalls (Or.inr ⟨text, rfl⟩)
    have hread : Granted p g (fdReadConsole p fuel buf count) :=
      fdReadConsole_granted (hcalls (Or.inl (Or.inl rfl)))
        (hcalls (Or.inl (Or.inr (Or.inl rfl)))) (hcalls (Or.inl (Or.inr (Or.inr rfl))))
        hprint hwrites fuel
    subst hconsole
    exact Granted.fromMachine (Granted.asWord (Granted.checked hread))
  · rw [Request.calls, if_neg hconsole] at hcalls
    have hop : (FdOp.read buf count).console fd = false := decide_eq_false hconsole
    have hexec := FdOp.exec_request_of_not_console p hop fuel
    rw [FdOp.request] at hexec
    rw [hexec]
    refine onOpen_grantedFrom hcalls fun handle hon => fdReadTaken_granted (fun log => ?_) (hon rfl)
    rcases hdata with hbounded | hall
    · exact Set.Subset.trans (region_mono (hbounded log handle count)) hwrites
    · rw [hall]
      exact Set.subset_univ _

theorem fdWrite_grantedFrom (fuel : Nat) {fd : Int} {buf count : UInt64}
    (hcalls : Request.calls m (.fdWrite fd buf count) ⊆ g.calls)
    (hreads : region buf count.toNat ⊆ g.reads) :
    GrantedFrom p g m (Request.exec p fuel (.fdWrite fd buf count)) := by
  by_cases hconsole : fd = 1 ∨ fd = 2
  · rw [Request.calls, if_pos hconsole] at hcalls
    have hwrite : Granted p g (fdWriteConsole p fuel (count * 2) buf count) :=
      fdWriteConsole_granted (fun text => hcalls ⟨text, rfl⟩) hreads fuel _
    rw [Request.exec, fdWrite, fdWriteSized, if_pos hconsole]
    exact Granted.fromMachine (Granted.asWord (Granted.checked hwrite))
  · rw [Request.calls, if_neg hconsole] at hcalls
    have hop : (FdOp.write buf count).console fd = false := decide_eq_false hconsole
    have hexec := FdOp.exec_request_of_not_console p hop fuel
    rw [FdOp.request] at hexec
    rw [hexec]
    exact onOpen_grantedFrom hcalls fun handle hon =>
      fdWriteTaken_granted (fun data => hon ⟨data, rfl⟩) hreads

end Handlers

/-- Every request is granted its footprint, as far as firmware keeps to the sizes of
transfers; without this memory may be stored to anywhere. -/
theorem Request.grantedFrom {p : Platform} {g : Grant} {m : Machine}
    (htable : g.table) (hdata : p.ReadsBounded ∨ g.writes = Set.univ) (fuel : Nat)
    {r : Request} (hcalls : r.calls m ⊆ g.calls)
    (hwrites : r.writes ⊆ g.writes) (hreads : r.reads m ⊆ g.reads) :
    GrantedFrom p g m (r.exec p fuel) := by
  cases r with
  | fdRead fd buf count => exact fdRead_grantedFrom hdata fuel hcalls hwrites
  | fdWrite fd buf count => exact fdWrite_grantedFrom fuel hcalls hreads
  | fdOpen pathname flags => exact GrantedFrom.asWord (fdOpen_grantedFrom hcalls hreads)
  | fdClose fd =>
      exact onOpen_grantedFrom hcalls fun handle hon => fdCloseTaken_granted htable fd (hon rfl)
  | fdStat path buf => exact GrantedFrom.asWord (fdStat_grantedFrom hcalls hwrites hreads)
  | fdFstat fd buf =>
      exact onOpen_grantedFrom hcalls fun handle hon => fdEfiStat_granted hwrites (hon rfl)
  | fdLseek fd offset whence =>
      exact onOpen_grantedFrom hcalls fun handle hon => fdLseekTaken_granted (hon (Or.inl rfl))
        (fun position => hon (Or.inr ⟨position, rfl⟩)) offset whence
  | memMmap addr length prot flags fd offset =>
      exact Granted.fromMachine
        (memMmap_granted (fun hfd => hcalls ⟨hfd, rfl⟩) addr prot flags offset)
  | memMunmap addr length =>
      exact Granted.fromMachine (Granted.asWord (memMunmap_granted (hcalls rfl) length))
  | fdSelect nfds readfds writefds exceptfds timeout =>
      exact Granted.fromMachine (Granted.asWord
        (fdSelect_granted (fun hnone us => hcalls ⟨hnone, us, rfl⟩) hreads))
  | fdDup oldFd => exact GrantedFrom.asWord (withFd_grantedFrom fun handle _ =>
      fdDupTaken_granted htable handle)
  | fdDup2 oldFd newFd => exact GrantedFrom.asWord (fdDup2_grantedFrom htable
      fun handle hopen => hcalls ⟨handle, hopen, rfl⟩)
  | procExit status =>
      exact Granted.fromMachine (Composed.andThen (procExit_granted (hcalls rfl)) fun _ => .pure _)
  | fdFsync fd =>
      exact onOpen_grantedFrom hcalls fun handle hon => fdFsyncTaken_granted (hon rfl)
  | procKill pid sig =>
      exact Granted.fromMachine (Granted.asWord
        (procKill_granted fun hpid hsig => hcalls ⟨hpid, hsig, rfl⟩))
  | timeGettimeofday tv =>
      exact Granted.fromMachine (Granted.asWord (timeGettimeofday_granted (hcalls rfl) hwrites))
  | powerReboot magic1 magic2 cmd arg =>
      exact GrantedFrom.asWord (powerReboot_grantedFrom hcalls hreads)
  | fdGetdents64 fd dirp count =>
      have hhead := Set.Subset.trans Set.subset_union_left hwrites
      have hname := Set.Subset.trans Set.subset_union_right hwrites
      exact onOpen_grantedFrom hcalls fun handle hon =>
        direntLoop_granted (hon rfl) hhead hname _ _
  | constant value => exact Granted.fromMachine (.pure _)
  | notPermitted => exact Granted.fromMachine (.pure _)
  | notImplemented => exact Granted.fromMachine (.pure _)

end Requests

end UefiLinux
