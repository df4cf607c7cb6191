/-
Transfers on open descriptors, against files: on firmware that keeps files, what a
session reads, writes and where it seeks is what the files would give, whatever
descriptors share a handle and whatever handles share a file.
-/
import UefiLinux.Library.FileStore
import UefiLinux.Resting
import UefiLinux.Seeking
import Mathlib.Data.List.Basic

namespace UefiLinux

open Progress Journal

@[simp] theorem Memory.bytes_length (mem : Memory) (address : UInt64) (count : Nat) :
    (mem.bytes address count).length = count := by
  simp [Memory.bytes]

/-- A store of so many bytes is read back whole. -/
theorem Memory.bytes_store_of_length {mem : Memory} {address count : UInt64}
    {bytes : List UInt8} (hlength : bytes.length = count.toNat) :
    (mem.store address bytes).bytes address count.toNat = bytes := by
  rw [← hlength]
  apply Memory.bytes_store
  rw [hlength]
  exact Nat.le_of_lt count.toNat_lt

section Firmware

variable {N : Type}

/-- Where `SetPosition` moves to. -/
def seekTo (s : FileStore FileHandle N) (handle : FileHandle) (target : UInt64) :
    FileStore FileHandle N :=
  s.moveTo handle (if target = seekToEnd then (s.bytes handle).length else target.toNat)

/-- The calls that have nothing to do with what is in files or where they are open at. -/
def Call.keepsFiles : Call → Bool
  | .volumeOpen .. | .close _ | .read .. | .write .. | .setInfo .. | .getPosition _
  | .setPosition .. => false
  | _ => true

/-- The calls of the file protocol that move data or the position of the handle. -/
inductive Call.Moves (handle : FileHandle) : Call → Prop
  | read (count : UInt64) : Moves handle (.read handle count)
  | getPosition : Moves handle (.getPosition handle)
  | setPosition (target : UInt64) : Moves handle (.setPosition handle target)

/-- How the file protocol answers: a read gives what is ahead, a write takes as much as it
says, all of it unless it fails, and positions are set and told.  A failure of anything
but a write leaves the contents of the files. -/
inductive FileAnswer (s : FileStore FileHandle N) : Event → FileStore FileHandle N → Prop
  | read {handle : FileHandle} {count : UInt64} {r : Reply}
      (hok : efiError r.status = false) (hdata : r.data = s.ahead handle count.toNat)
      (hsize : r.size = UInt64.ofNat r.data.length) :
      FileAnswer s ⟨.read handle count, r⟩ (s.afterRead handle count.toNat)
  | write {handle : FileHandle} {count : UInt64} {data : List UInt8} {r : Reply}
      {s' : FileStore FileHandle N} (hsize : r.size.toNat ≤ data.length)
      (hfull : efiError r.status = false → r.size.toNat = data.length)
      (hwrote : s.Wrote handle (data.take r.size.toNat) s') :
      FileAnswer s ⟨.write handle count data, r⟩ s'
  | setPosition {handle : FileHandle} {target : UInt64} {r : Reply}
      (hok : efiError r.status = false) :
      FileAnswer s ⟨.setPosition handle target, r⟩ (seekTo s handle target)
  | getPosition {handle : FileHandle} {r : Reply} (hok : efiError r.status = false)
      (htold : r.position = UInt64.ofNat (s.position handle)) :
      FileAnswer s ⟨.getPosition handle, r⟩ s
  | failed {handle : FileHandle} {c : Call} {r : Reply} (hmoves : c.Moves handle)
      (hfails : efiError r.status = true) (target : Nat) :
      FileAnswer s ⟨c, r⟩ (s.moveTo handle target)

/-- From the given journal on, the firmware keeps files behind these handles. -/
structure ServesFiles (p : Platform) (base : List Event) (files : Set FileHandle)
    (store : List Event → FileStore FileHandle N) : Prop where
  keeps : ∀ log e, base <+: log → e.call.keepsFiles = true → store (log ++ [e]) = store log
  moves : ∀ log handle call, base <+: log → handle ∈ files → call.Moves handle →
    FileAnswer (store log) ⟨call, p.reply log call⟩ (store (log ++ [⟨call, p.reply log call⟩]))
  writes : ∀ log handle count data, base <+: log → handle ∈ files →
    data.length = UInt64.toNat count →
    FileAnswer (store log) ⟨.write handle count data, p.reply log (.write handle count data)⟩
      (store (log ++ [⟨.write handle count data, p.reply log (.write handle count data)⟩]))

/-- Looking a path up puts a handle outside the given ones at the start of a file, and does
nothing else; when it fails it does nothing. -/
structure OpensApart (p : Platform) (base : List Event) (files : Set FileHandle)
    (store : List Event → FileStore FileHandle N) : Prop where
  found : ∀ log path, base <+: log → efiError (p.reply log (statCall path)).status = false →
    (p.reply log (statCall path)).handle ∉ files ∧
      ∃ n, store (log ++ [⟨statCall path, p.reply log (statCall path)⟩]) =
        (store log).openAt (p.reply log (statCall path)).handle n
  missed : ∀ log path, base <+: log → efiError (p.reply log (statCall path)).status = true →
    store (log ++ [⟨statCall path, p.reply log (statCall path)⟩]) = store log

end Firmware

section Server

variable {N : Type} [DecidableEq N]

/-- The files after a call in which the firmware has succeeded. -/
def fileAfter (s : FileStore FileHandle N) (e : Event) : FileStore FileHandle N :=
  match e.call with
  | .read handle count => s.afterRead handle count.toNat
  | .write handle _ data => s.write handle data
  | .setPosition handle target => seekTo s handle target
  | .volumeOpen .. => s.moveTo e.reply.handle 0
  | _ => s

def fileReply (s : FileStore FileHandle N) : Call → Reply
  | .read handle count =>
      { Reply.ofStatus efiSuccess with
        data := s.ahead handle count.toNat
        size := UInt64.ofNat (s.ahead handle count.toNat).length }
  | .write _ _ data =>
      { Reply.ofStatus efiSuccess with size := UInt64.ofNat data.length }
  | .getPosition handle =>
      { Reply.ofStatus efiSuccess with position := UInt64.ofNat (s.position handle) }
  | _ => Reply.ofStatus efiSuccess

/-- Firmware that keeps files and succeeds in every call. -/
def fileServer (start : FileStore FileHandle N) : Platform where
  volume := 0
  reply := fun log call => fileReply (log.foldl fileAfter start) call
  residue := fun _ => ⟨efiSuccess, 0, EfiFileInfo.zero⟩

theorem fileServer_serves (start : FileStore FileHandle N) (base : List Event)
    (files : Set FileHandle) :
    ServesFiles (fileServer start) base files (List.foldl fileAfter start) := by
  refine ⟨fun log e _ hkeeps => ?_, fun log handle call _ _ hmoves => ?_,
    fun log handle count data _ _ hlength => ?_⟩
  · rw [List.foldl_concat, fileAfter]
    cases hcall : e.call <;> rw [hcall] at hkeeps <;> first | rfl | cases hkeeps
  · rw [List.foldl_concat]
    cases hmoves with
    | read count => exact .read rfl rfl rfl
    | getPosition => exact .getPosition rfl rfl
    | setPosition target => exact .setPosition rfl
  · have hsize : ((fileServer start).reply log (.write handle count data)).size.toNat =
        data.length := by
      change (UInt64.ofNat data.length).toNat = _
      rw [hlength, UInt64.ofNat_toNat]
    rw [List.foldl_concat]
    refine .write (Nat.le_of_eq hsize) (fun _ => hsize) ?_
    rw [hsize, List.take_length]
    exact FileStore.write_wrote _ handle data

theorem fileServer_opensApart (start : FileStore FileHandle N) (base : List Event)
    {files : Set FileHandle} (hapart : firstHandle ∉ files) :
    OpensApart (fileServer start) base files (List.foldl fileAfter start) := by
  refine ⟨fun log path _ _ => ⟨hapart, (log.foldl fileAfter start).file firstHandle, ?_⟩,
    fun log path _ hfails => absurd hfails (by decide : ¬ efiError efiSuccess = true)⟩
  rw [List.foldl_concat]
  exact (FileStore.openAt_own_file _ _).symm

theorem fileServer_readsBounded (start : FileStore FileHandle N) :
    (fileServer start).ReadsBounded :=
  fun _ _ _ => List.length_take_le _ _

end Server

section Files

variable {N : Type}

/-- Where a seek through a handle is counted from. -/
def fileSeekBase (s : FileStore FileHandle N) (handle : FileHandle) (whence : Int) :
    Option Int :=
  if whence = 0 then some 0
  else if whence = 1 then some (s.position handle)
  else if whence = 2 then some (s.bytes handle).length
  else none

theorem fileSeekBase_eq_none {s : FileStore FileHandle N} {handle : FileHandle} {whence : Int}
    (hnone : fileSeekBase s handle whence = none) : whence ≠ 0 ∧ whence ≠ 1 ∧ whence ≠ 2 := by
  refine ⟨?_, ?_, ?_⟩ <;> rintro rfl <;> cases hnone

theorem fdLseekTaken_run_of_unknown {p : Platform} {m : Machine} {handle : FileHandle}
    {offset whence : Int} (hwhence : whence ≠ 0 ∧ whence ≠ 1 ∧ whence ≠ 2) :
    (fdLseekTaken p offset whence handle).run m =
      .ok (seekResult (p.residue m.trace).status (p.residue m.trace).offset64) m := by
  rw [fdLseekTaken, if_neg hwhence.1, if_neg hwhence.2.2, if_neg hwhence.2.1]
  rfl

/-- The descriptor of a request that reads, writes or seeks in a file. -/
def Request.fileFd? : Request → Option Int
  | .fdRead fd _ _ => if fd = 0 then none else some fd
  | .fdWrite fd _ _ => if fd = 1 ∨ fd = 2 then none else some fd
  | .fdLseek fd _ _ => some fd
  | _ => none

/-- The requests that neither open nor close nor enumerate, nor number descriptors anew. -/
def Request.Transfers : Request → Prop
  | .fdOpen .. | .fdClose _ | .fdDup _ | .fdDup2 .. | .fdGetdents64 .. => False
  | _ => True

end Files

section Handlers

variable {N : Type} {p : Platform} {base : List Event} {files : Set FileHandle}
  {store : List Event → FileStore FileHandle N} {m : Machine} {handle : FileHandle}

theorem ServesFiles.after_moves (hserves : ServesFiles p base files store)
    (hbase : base <+: m.trace) (hfile : handle ∈ files) {call : Call} (hmoves : call.Moves handle) :
    FileAnswer (store m.trace) (p.answer m call) (store (p.after m call).trace) :=
  hserves.moves m.trace handle call hbase hfile hmoves

theorem ServesFiles.after_write (hserves : ServesFiles p base files store)
    (hbase : base <+: m.trace) (hfile : handle ∈ files) {count : UInt64} {data : List UInt8}
    (hlength : data.length = count.toNat) :
    FileAnswer (store m.trace) (p.answer m (.write handle count data))
      (store (p.after m (.write handle count data)).trace) :=
  hserves.writes m.trace handle count data hbase hfile hlength

theorem prefix_after (p : Platform) (hbase : base <+: m.trace) (call : Call) :
    base <+: (p.after m call).trace :=
  hbase.trans (List.prefix_append _ _)

/-- Calls that have nothing to do with files leave them. -/
theorem ServesFiles.keeps_all (hserves : ServesFiles p base files store) {log new : List Event}
    (hbase : base <+: log) (hnew : ∀ e ∈ new, e.call.keepsFiles = true) :
    store (log ++ new) = store log := by
  induction new generalizing log with
  | nil => rw [List.append_nil]
  | cons e rest ih =>
      rw [List.append_cons, ih (hbase.trans (List.prefix_append _ _))
        fun e' he' => hnew e' (List.mem_cons_of_mem e he')]
      exact hserves.keeps log e hbase (hnew e List.mem_cons_self)

theorem failure_errnoWord (status : EfiStatus) : ErrnoWord (UInt64.ofInt (failure status)) :=
  errnoWord_of_isErrno (failure_isErrno status)

theorem fdReadTaken_run (buf count : UInt64) (handle : FileHandle) (m : Machine) :
    (fdReadTaken p buf count handle).run m =
      .ok (if efiError (p.answer m (.read handle count)).reply.status then
          failure (p.answer m (.read handle count)).reply.status
        else (p.answer m (.read handle count)).reply.size.toInt64.toInt)
        { p.after m (.read handle count) with
          mem := m.mem.store buf (p.answer m (.read handle count)).reply.data } := by
  rw [fdReadTaken, run_bind_of_ok (uefiCallWrapper_run p rfl m)]
  rw [run_bind_of_ok (storeBytes_run _ _ _)]
  split <;> rfl

theorem fdWriteTaken_run (buf count : UInt64) (handle : FileHandle) (m : Machine) :
    (fdWriteTaken p buf count handle).run m =
      .ok (if efiError (p.answer m (.write handle count (m.mem.bytes buf count.toNat))).reply.status
          then failure
            (p.answer m (.write handle count (m.mem.bytes buf count.toNat))).reply.status
        else (p.answer m
          (.write handle count (m.mem.bytes buf count.toNat))).reply.size.toInt64.toInt)
        (p.after m (.write handle count (m.mem.bytes buf count.toNat))) := by
  rw [fdWriteTaken, run_bind_of_ok (EStateM.run_get m),
    run_bind_of_ok (uefiCallWrapper_run p rfl m)]
  split <;> rfl

/-- A call on the handle, made on the way from the one machine to the other, has failed. -/
def FailsOn (handle : FileHandle) (m m' : Machine) : Prop :=
  ∃ new, m'.trace = m.trace ++ new ∧
    ∃ e ∈ new, e.call.handle? = some handle ∧ efiError e.reply.status = true

theorem failsOn_after {call : Call} (hhandle : call.handle? = some handle)
    (hfails : efiError (p.answer m call).reply.status = true) : FailsOn handle m (p.after m call) :=
  ⟨[p.answer m call], rfl, _, List.mem_cons_self, hhandle, hfails⟩

/-- What has failed later has failed. -/
theorem FailsOn.earlier {m₁ m' : Machine} (hgrown : m.trace <+: m₁.trace)
    (hfails : FailsOn handle m₁ m') : FailsOn handle m m' := by
  obtain ⟨before, hbefore⟩ := hgrown
  obtain ⟨new, htrace, e, he, hfailed⟩ := hfails
  exact ⟨before ++ new, by rw [htrace, ← hbefore, List.append_assoc], e,
    List.mem_append_right _ he, hfailed⟩

/-- A read through a handle gives what is ahead, or fails with the contents kept. -/
theorem fdReadTaken_serves (hserves : ServesFiles p base files store) (hbase : base <+: m.trace)
    (hfile : handle ∈ files) (buf count : UInt64) :
    ∃ v m', (fdReadTaken p buf count handle).run m = .ok v m' ∧
      ((UInt64.ofInt v = UInt64.ofNat ((store m.trace).ahead handle count.toNat).length ∧
          m'.mem = m.mem.store buf ((store m.trace).ahead handle count.toNat) ∧
          store m'.trace = (store m.trace).afterRead handle count.toNat) ∨
        (ErrnoWord (UInt64.ofInt v) ∧ FailsOn handle m m' ∧
          ∃ target, store m'.trace = (store m.trace).moveTo handle target)) := by
  have hanswer := hserves.after_moves hbase hfile (.read count)
  refine ⟨_, _, fdReadTaken_run buf count handle m, ?_⟩
  change FileAnswer _ _ (store (m.trace ++ _)) at hanswer
  change (_ ∧ _ ∧ store (m.trace ++ _) = _) ∨ _ ∧ _ ∧ ∃ target, store (m.trace ++ _) = _
  generalize store (m.trace ++ [p.answer m (.read handle count)]) = s' at hanswer ⊢
  rw [Platform.answer] at hanswer ⊢
  cases hanswer with
  | read hok hdata hsize =>
      left
      rw [if_neg (by simp [hok]), Words.ofInt_toInt, hsize, hdata]
      exact ⟨rfl, rfl, rfl⟩
  | failed hmoves hfails target =>
      right
      cases hmoves
      rw [if_pos hfails]
      exact ⟨failure_errnoWord _, failsOn_after rfl hfails, target, rfl⟩

/-- A write through a handle is done in full, or fails when part of it is done. -/
theorem fdWriteTaken_serves (hserves : ServesFiles p base files store) (hbase : base <+: m.trace)
    (hfile : handle ∈ files) (buf count : UInt64) :
    ∃ v m', (fdWriteTaken p buf count handle).run m = .ok v m' ∧ m'.mem = m.mem ∧
      ((UInt64.ofInt v = count ∧
          (store m.trace).Wrote handle (m.mem.bytes buf count.toNat) (store m'.trace)) ∨
        (ErrnoWord (UInt64.ofInt v) ∧ FailsOn handle m m' ∧ ∃ done,
          (store m.trace).Wrote handle ((m.mem.bytes buf count.toNat).take done)
            (store m'.trace))) := by
  have hlength : (m.mem.bytes buf count.toNat).length = count.toNat :=
    Memory.bytes_length _ _ _
  have hanswer := hserves.after_write hbase hfile hlength
  refine ⟨_, _, fdWriteTaken_run buf count handle m, rfl, ?_⟩
  generalize m.mem.bytes buf count.toNat = data at hanswer hlength ⊢
  generalize store (p.after m (.write handle count data)).trace = s' at hanswer ⊢
  rw [Platform.answer] at hanswer ⊢
  cases hanswer with
  | write hsize hfull hwrote =>
      by_cases hfails : efiError (p.reply m.trace (.write handle count data)).status = true
      · right
        rw [if_pos hfails]
        exact ⟨failure_errnoWord _, failsOn_after rfl hfails, _, hwrote⟩
      · left
        have hall := hfull (by simpa using hfails)
        rw [if_neg hfails, Words.ofInt_toInt]
        rw [hall, List.take_length] at hwrote
        exact ⟨UInt64.toNat.inj (hall.trans hlength), hwrote⟩
  | failed hmoves hfails target => cases hmoves

theorem setPosition_moves (hserves : ServesFiles p base files store) (hbase : base <+: m.trace)
    (hfile : handle ∈ files) (target : UInt64) :
    (efiError (p.answer m (.setPosition handle target)).reply.status = false ∧
      store (p.after m (.setPosition handle target)).trace = seekTo (store m.trace) handle target) ∨
    (efiError (p.answer m (.setPosition handle target)).reply.status = true ∧
      ∃ place, store (p.after m (.setPosition handle target)).trace =
        (store m.trace).moveTo handle place) := by
  have hanswer := hserves.after_moves hbase hfile (.setPosition target)
  generalize store (p.after m (.setPosition handle target)).trace = s' at hanswer ⊢
  rw [Platform.answer] at hanswer ⊢
  cases hanswer with
  | setPosition hok => exact Or.inl ⟨hok, rfl⟩
  | failed hmoves hfails place =>
      cases hmoves
      exact Or.inr ⟨hfails, place, rfl⟩

theorem getPosition_tells (hserves : ServesFiles p base files store) (hbase : base <+: m.trace)
    (hfile : handle ∈ files) :
    (efiError (p.answer m (.getPosition handle)).reply.status = false ∧
      (p.answer m (.getPosition handle)).reply.position =
        UInt64.ofNat ((store m.trace).position handle) ∧
      store (p.after m (.getPosition handle)).trace = store m.trace) ∨
    (efiError (p.answer m (.getPosition handle)).reply.status = true ∧
      ∃ place, store (p.after m (.getPosition handle)).trace =
        (store m.trace).moveTo handle place) := by
  have hanswer := hserves.after_moves hbase hfile .getPosition
  generalize store (p.after m (.getPosition handle)).trace = s' at hanswer ⊢
  rw [Platform.answer] at hanswer ⊢
  cases hanswer with
  | getPosition hok htold => exact Or.inl ⟨hok, htold, rfl⟩
  | failed hmoves hfails place =>
      cases hmoves
      exact Or.inr ⟨hfails, place, rfl⟩

/-- A seek ends at its target, or fails and leaves the handle at some place. -/
def SeeksFile (store : List Event → FileStore FileHandle N) (m : Machine) (handle : FileHandle)
    (target : UInt64) (result : EStateM.Result Stop Machine Int) : Prop :=
  ∃ v m', result = .ok v m' ∧ m'.mem = m.mem ∧
    ((UInt64.ofInt v = target ∧ store m'.trace = seekTo (store m.trace) handle target) ∨
      (ErrnoWord (UInt64.ofInt v) ∧ FailsOn handle m m' ∧
        ∃ place, store m'.trace = (store m.trace).moveTo handle place))

/-- A seek from a machine whose file only differs in where it is open at. -/
theorem SeeksFile.of_moved {m₁ : Machine} {target : UInt64} {place : Nat}
    {result : EStateM.Result Stop Machine Int} (hgrown : m.trace <+: m₁.trace)
    (hmoved : store m₁.trace = (store m.trace).moveTo handle place) (hmem : m₁.mem = m.mem)
    (hseeks : SeeksFile store m₁ handle target result) :
    SeeksFile store m handle target result := by
  obtain ⟨v, m', hrun, hmem', hends⟩ := hseeks
  refine ⟨v, m', hrun, hmem'.trans hmem, ?_⟩
  rcases hends with ⟨hv, hstore⟩ | ⟨hv, hfails, place', hstore⟩
  · refine Or.inl ⟨hv, ?_⟩
    rw [hstore, hmoved, seekTo, seekTo, FileStore.moveTo_moveTo, FileStore.moveTo_bytes]
  · refine Or.inr ⟨hv, hfails.earlier hgrown, place', ?_⟩
    rw [hstore, hmoved, FileStore.moveTo_moveTo]

theorem setPosition_seeks (hserves : ServesFiles p base files store) (hbase : base <+: m.trace)
    (hfile : handle ∈ files) (target : UInt64) :
    SeeksFile store m handle target ((do
      let moved ← uefiCallWrapper p (.setPosition handle target)
      return seekResult moved.status target : M Int).run m) := by
  refine ⟨seekResult (p.answer m (.setPosition handle target)).reply.status target,
    p.after m (.setPosition handle target), ?_, rfl, ?_⟩
  · rw [run_bind_of_ok (uefiCallWrapper_run p rfl m)]
    rfl
  · rcases setPosition_moves hserves hbase hfile target with ⟨hok, hstore⟩ | ⟨hfails, hstore⟩
    · rw [seekResult, if_neg (by simp [hok]), Words.ofInt_toInt]
      exact Or.inl ⟨rfl, hstore⟩
    · rw [seekResult, if_pos hfails]
      exact Or.inr ⟨failure_errnoWord _, failsOn_after rfl hfails, hstore⟩

theorem seekCurrent_seeks (hserves : ServesFiles p base files store) (hbase : base <+: m.trace)
    (hfile : handle ∈ files) (offset : Int) :
    SeeksFile store m handle (UInt64.ofInt ((store m.trace).position handle + offset))
      ((seekCurrent p handle offset).run m) := by
  rw [seekCurrent, run_bind_of_ok (uefiCallWrapper_run p rfl m)]
  rcases getPosition_tells hserves hbase hfile with ⟨hok, htold, hstore⟩ | ⟨hfails, place, hstore⟩
  · have htarget : (p.answer m (.getPosition handle)).reply.position + UInt64.ofInt offset =
        UInt64.ofInt ((store m.trace).position handle + offset) := by
      rw [htold, UInt64.ofInt_add, Words.ofInt_natCast]
    have hmoved : store (p.after m (.getPosition handle)).trace =
        (store m.trace).moveTo handle ((store m.trace).position handle) := by
      rw [hstore, FileStore.moveTo_self]
    rw [if_neg (by simp [hok]), htarget]
    exact SeeksFile.of_moved (List.prefix_append _ _) hmoved rfl
      (setPosition_seeks hserves (prefix_after p hbase _) hfile _)
  · rw [if_pos hfails]
    exact ⟨_, _, rfl, rfl, Or.inr ⟨failure_errnoWord _, failsOn_after rfl hfails, place, hstore⟩⟩

/-- Every seek of a known direction. -/
theorem fdLseekTaken_seeks (hserves : ServesFiles p base files store) (hbase : base <+: m.trace)
    (hfile : handle ∈ files) (offset : Int) {whence start : Int}
    (hstart : fileSeekBase (store m.trace) handle whence = some start) :
    SeeksFile store m handle (UInt64.ofInt (start + offset))
      ((fdLseekTaken p offset whence handle).run m) := by
  unfold fileSeekBase at hstart
  by_cases hset : whence = 0
  · rw [if_pos hset, Option.some.injEq] at hstart
    subst hstart
    rw [fdLseekTaken, if_pos hset, Int.zero_add]
    exact setPosition_seeks hserves hbase hfile _
  · rw [if_neg hset] at hstart
    by_cases hcurrent : whence = 1
    · rw [if_pos hcurrent, Option.some.injEq] at hstart
      subst hstart
      rw [fdLseekTaken, if_neg hset, if_neg (by omega), if_pos hcurrent]
      exact seekCurrent_seeks hserves hbase hfile offset
    · rw [if_neg hcurrent] at hstart
      by_cases hend : whence = 2
      · rw [if_pos hend, Option.some.injEq] at hstart
        subst hstart
        rw [fdLseekTaken, if_neg hset, if_pos hend,
          run_bind_of_ok (uefiCallWrapper_run p rfl m)]
        rcases setPosition_moves hserves hbase hfile seekToEnd with ⟨hok, hstore⟩ | ⟨hfails, hstore⟩
        · have hmoved : store (p.after m (.setPosition handle seekToEnd)).trace =
              (store m.trace).moveTo handle ((store m.trace).bytes handle).length := by
            rw [hstore, seekTo, if_pos rfl]
          have hrest := seekCurrent_seeks hserves
            (prefix_after p hbase (.setPosition handle seekToEnd)) hfile offset
          rw [hmoved, FileStore.moveTo_position] at hrest
          change SeeksFile store m handle _ ((if efiError (p.answer m
            (.setPosition handle seekToEnd)).reply.status = true then _ else _ : M Int).run _)
          rw [if_neg (by simp [hok])]
          exact SeeksFile.of_moved (List.prefix_append _ _) hmoved rfl hrest
        · change SeeksFile store m handle _ ((if efiError (p.answer m
            (.setPosition handle seekToEnd)).reply.status = true then _ else _ : M Int).run _)
          rw [if_pos hfails]
          exact ⟨_, _, rfl, rfl,
            Or.inr ⟨failure_errnoWord _, failsOn_after rfl hfails, hstore⟩⟩
      · rw [if_neg hend] at hstart
        cases hstart

end Handlers

section Requests

/-- The handle that the guard of the descriptor handlers lets pass. -/
def Machine.takes (m : Machine) (fd : Int) : Option FileHandle :=
  if 16 < fd then none else m.openHandle fd

theorem withFd_run_of_takes {m : Machine} {fd : Int} {handle : FileHandle}
    (htakes : m.takes fd = some handle) (taken : FileHandle → M Int) :
    (withFd fd taken).run m = (taken handle).run m := by
  rw [Machine.takes] at htakes
  split at htakes
  · cases htakes
  · rename_i hpass
    exact withFd_run_of_open (not_lt.mp hpass) htakes taken

theorem withFd_run_of_takes_none {m : Machine} {fd : Int} (htakes : m.takes fd = none)
    (taken : FileHandle → M Int) : ∃ e : Errno, (withFd fd taken).run m = .ok e.neg m := by
  have hrefused : 16 < fd ∨ m.openHandle fd = none := by
    rw [Machine.takes] at htakes
    split at htakes
    · exact Or.inl ‹_›
    · exact Or.inr htakes
  obtain ⟨e, _, hrun⟩ := withFd_run_of_refused hrefused taken
  exact ⟨e, hrun⟩

variable {p : Platform} {m : Machine}

/-- A request on files is the guard and the code of a handler that keeps the table. -/
theorem Request.fileFd?_eq_some {r : Request} {fd : Int} (hfile : r.fileFd? = some fd) :
    ∃ op : FdOp, r = op.request fd ∧ op.console fd = false ∧
      ∀ handle, Attending (some handle) (op.taken p fd handle) := by
  cases r with
  | fdRead fd' buf count =>
      rw [Request.fileFd?] at hfile
      split at hfile
      · cases hfile
      · rename_i hother
        injection hfile with hsame
        subst hsame
        exact ⟨.read buf count, rfl, decide_eq_false hother, fdReadTaken_attending p buf count⟩
  | fdWrite fd' buf count =>
      rw [Request.fileFd?] at hfile
      split at hfile
      · cases hfile
      · rename_i hother
        injection hfile with hsame
        subst hsame
        exact ⟨.write buf count, rfl, decide_eq_false hother, fdWriteTaken_attending p buf count⟩
  | fdLseek fd' offset whence =>
      injection hfile with hsame
      subst hsame
      exact ⟨.lseek offset whence, rfl, rfl, fdLseekTaken_attending p offset whence⟩
  | _ => cases hfile

theorem Request.transfers_fds {r : Request} (htransfers : r.Transfers) (fuel : Nat) :
    (finalState ((r.exec p fuel).run m)).fds = m.fds := by
  have hguard : ∀ fd (op : FdOp), op.console fd = false →
      (∀ handle, Attending (some handle) (op.taken p fd handle)) →
        (finalState (((op.request fd).exec p fuel).run m)).fds = m.fds := by
    intro fd op hconsole htaken
    rw [FdOp.exec_request_of_not_console p hconsole, asWord_finalState]
    cases htakes : m.takes fd with
    | none =>
        obtain ⟨e, hrun⟩ := withFd_run_of_takes_none htakes (op.taken p fd)
        rw [hrun]
        rfl
    | some handle =>
        rw [withFd_run_of_takes htakes]
        exact ((htaken handle).along m).1
  cases hfile : r.fileFd? with
  | some fd =>
      obtain ⟨op, rfl, hconsole, htaken⟩ := Request.fileFd?_eq_some (p := p) hfile
      exact hguard fd op hconsole htaken
  | none =>
      cases r with
      | fdFsync fd => exact hguard fd .fsync rfl (fdFsyncTaken_attending p)
      | fdFstat fd buf => exact hguard fd (.fstat buf) rfl (fdEfiStat_attending p buf)
      | fdRead fd buf count =>
          refine Request.exec_fds (fun hneeds => ?_) fuel
          rw [Request.fileFd?, if_neg hneeds] at hfile
          cases hfile
      | fdWrite fd buf count =>
          refine Request.exec_fds (fun hneeds => ?_) fuel
          rw [Request.fileFd?, if_neg hneeds] at hfile
          cases hfile
      | fdLseek fd offset whence => cases hfile
      | fdOpen pathname flags | fdClose fd | fdDup fd | fdDup2 oldFd fd
      | fdGetdents64 fd dirp count => exact htransfers.elim
      | _ =>
          refine Request.exec_fds (fun hneeds => ?_) fuel
          exact hneeds

theorem Call.Free.keepsFiles {c : Call} (hfree : c.Free) : c.keepsFiles = true := by
  obtain ⟨hhandle, hopen⟩ := hfree
  cases c with
  | volumeOpen path mode attributes => exact absurd rfl (hopen path mode attributes)
  | close _ | read _ _ | write _ _ _ | setInfo _ _ _ | getPosition _ | setPosition _ _ =>
      cases hhandle
  | _ => rfl

/-- What neither moves data nor positions keeps the files. -/
theorem Request.calls_keepFiles {r : Request} (htransfers : r.Transfers)
    (hstat : ∀ path buf, r ≠ .fdStat path buf) (hfile : r.fileFd? = none) {c : Call}
    (hin : c ∈ r.calls m) : c.keepsFiles = true := by
  by_cases hneeds : r.NeedsFile
  · cases r with
    | fdRead fd buf count | fdWrite fd buf count =>
        rw [Request.fileFd?, if_neg hneeds] at hfile
        cases hfile
    | fdFstat fd buf | fdFsync fd =>
        obtain ⟨handle, _, rfl⟩ := hin
        rfl
    | fdLseek fd offset whence => cases hfile
    | fdOpen pathname flags | fdClose fd | fdDup fd | fdDup2 oldFd fd
    | fdGetdents64 fd dirp count => exact htransfers.elim
    | _ => exact hneeds.elim
  · exact (Request.calls_free hneeds hstat hin).keepsFiles

/-- Looking a path up opens a handle apart, or nothing, and leaves the files. -/
theorem fdStat_store {N : Type} {base : List Event} {files : Set FileHandle}
    {store : List Event → FileStore FileHandle N} (hserves : ServesFiles p base files store)
    (hopens : OpensApart p base files store) (hbase : base <+: m.trace) (path buf : UInt64) :
    ∃ new, (finalState ((fdStat p path buf).run m)).trace = m.trace ++ new ∧
      (store (m.trace ++ new) = store m.trace ∨
        ∃ handle n, handle ∉ files ∧ (∃ e ∈ new, e.opened = some handle) ∧
          store (m.trace ++ new) = (store m.trace).openAt handle n) := by
  have hfound := hopens.found m.trace (m.widePath path) hbase
  have hmissed := hopens.missed m.trace (m.widePath path) hbase
  change efiError (statAnswer p m path).reply.status = false →
    (statAnswer p m path).reply.handle ∉ files ∧ ∃ n, store (m.trace ++ [statAnswer p m path]) =
      (store m.trace).openAt (statAnswer p m path).reply.handle n at hfound
  change efiError (statAnswer p m path).reply.status = true →
    store (m.trace ++ [statAnswer p m path]) = store m.trace at hmissed
  have hopened := statAnswer_opened p m path
  rw [fdStat_run]
  by_cases hfails : efiError (statAnswer p m path).reply.status = true
  · rw [if_pos hfails]
    exact ⟨[statAnswer p m path], rfl, Or.inl (hmissed hfails)⟩
  · rw [if_neg hfails] at hopened ⊢
    obtain ⟨hapart, n, hstore⟩ := hfound (by simpa using hfails)
    generalize (statAnswer p m path).reply.handle = handle at hopened hapart hstore ⊢
    have htrace : (finalState ((fdEfiStat p buf handle).run (statMachine p m path))).trace =
        m.trace ++ [statAnswer p m path, statInfoAnswer p (statMachine p m path) buf handle] := by
      rw [fdEfiStat_run, List.append_cons]
      split <;> rfl
    refine ⟨_, htrace, Or.inr ⟨handle, n, hapart, ⟨_, List.mem_cons_self, hopened⟩, ?_⟩⟩
    rw [List.append_cons, hserves.keeps _ _ (hbase.trans (List.prefix_append _ _)) rfl, hstore]

end Requests

end UefiLinux
