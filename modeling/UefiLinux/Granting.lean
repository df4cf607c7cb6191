/-
The grants of the handlers.  Each handler is composed of the calls and stores that its
own code makes, and looks at memory only where its arguments point.
-/
import UefiLinux.ConsoleBuffer
import UefiLinux.Directories
import UefiLinux.Grants
import UefiLinux.Services

namespace UefiLinux

open Progress Journal

variable {p : Platform} {g : Grant}

/-- A stop that neither the firmware nor the table is the reason of. -/
theorem Granted.stop {α : Type} {stop : Stop} (hkept : stop ≠ .firmwareKept)
    (hindex : ¬ IndexFault stop) : Granted p g (throw stop : M α) :=
  .throw ⟨hkept, fun hfault => absurd hfault hindex⟩

theorem not_indexFault_outOfFuel : ¬ IndexFault .outOfFuel := by
  rintro ⟨index, hindex⟩
  cases hindex

/-- A loop within a grant; it may run out of fuel. -/
theorem Granted.loop {τ ρ : Type} {body : τ → M (τ ⊕ ρ)} (I : τ → Prop)
    (hbody : ∀ t, I t → Granted p g (body t))
    (hnext : ∀ t, I t → ∀ t', CanReturn (body t) (.inl t') → I t') (fuel : Nat) {t : τ}
    (ht : I t) : Granted p g (Progress.loop .outOfFuel body fuel t) := by
  have hstops : (g.discipline p).stops .outOfFuel :=
    ⟨by simp, fun hfault => absurd hfault not_indexFault_outOfFuel⟩
  exact Composed.loop hstops I hbody hnext fuel ht

/-- A granted firmware call, and what is done with its reply. -/
theorem Granted.call {α : Type} {c : Call} {f : Reply → M α} (hcall : c ∈ g.calls)
    (hf : ∀ r, Granted p g (f r)) : Granted p g (uefiCallWrapper p c >>= f) :=
  Composed.andThen (.basic (.call hcall)) hf

/-- A granted store, and what comes after it. -/
theorem Granted.store {α : Type} {address : UInt64} {bytes : List UInt8} {f : PUnit → M α}
    (hwrites : region address bytes.length ⊆ g.writes) (hf : ∀ u, Granted p g (f u)) :
    Granted p g (storeBytes address bytes >>= f) :=
  Composed.andThen (.basic (.store hwrites)) hf

/-- A status that is looked at, and returned when it is a failure. -/
theorem Granted.checked {α : Type} {c : Prop} [Decidable c] {v : α} {rest : M α}
    (hrest : Granted p g rest) : Granted p g (if c then pure v else rest) :=
  Composed.ite (.pure v) hrest

section Table

theorem fdsSlot_granted (htable : g.table) (index : Int) : Granted p g (fdsSlot index) := by
  unfold fdsSlot
  split
  · exact .pure _
  · exact .throw ⟨by simp, fun _ => htable⟩

theorem fdsRead_granted (htable : g.table) (index : Int) : Granted p g (fdsRead index) := by
  refine Composed.andThen (fdsSlot_granted htable index) fun slot => ?_
  exact .look (fun s t halike => by rw [halike.fds]) fun s => .pure _

theorem fdsWrite_granted (htable : g.table) (index : Int) (value : Option FileHandle) :
    Granted p g (fdsWrite index value) :=
  Composed.andThen (fdsSlot_granted htable index) fun slot => .basic (.rebind htable slot value)

theorem fdCloseTaken_granted (htable : g.table) (fd : Int) {handle : FileHandle}
    (hclose : Call.close handle ∈ g.calls) : Granted p g (fdCloseTaken p fd handle) := by
  refine Composed.andThen (fdsWrite_granted htable _ _) fun _ => ?_
  refine .look (fun s t halike => by rw [halike.fds]) fun s => ?_
  split
  · exact Granted.call hclose fun closed => Granted.checked (.pure _)
  · exact .pure _

theorem fdDupTaken_granted (htable : g.table) (handle : FileHandle) :
    Granted p g (fdDupTaken handle) := by
  refine .look (fun s t halike => by rw [halike.fds]) fun s => ?_
  exact Granted.checked (Composed.andThen (fdsWrite_granted htable _ _) fun _ => .pure _)

theorem fdDup2Rest_granted (htable : g.table) (oldFd newFd : Int) :
    Granted p g (fdDup2Rest oldFd newFd) := by
  refine Composed.andThen (fdsRead_granted htable _) fun held => ?_
  cases held with
  | none => exact .pure _
  | some handle =>
      exact Granted.checked (Composed.andThen (fdsWrite_granted htable _ _) fun _ => .pure _)

end Table

section Files

variable {handle : FileHandle}

theorem fdEfiGetFileInfo_granted (hinfo : Call.getInfo handle sizeofEfiFileInfo ∈ g.calls) :
    Granted p g (fdEfiGetFileInfo p handle) :=
  .basic (.call hinfo)

theorem fdEfiSetFileInfo_granted
    (hset : ∀ info, Call.setInfo handle sizeofEfiFileInfo info ∈ g.calls)
    (info : EfiFileInfo) : Granted p g (fdEfiSetFileInfo p handle info) :=
  .look (fun s t halike => by rw [halike.trace]) fun s => .basic (.call (hset _))

theorem openEffects_granted {flags : UInt32}
    (hend : hasFlag flags oAppend → Call.setPosition handle 0xFFFFFFFFFFFFFFFF ∈ g.calls)
    (hset : ¬ hasFlag flags oAppend → openMode flags &&& efiFileModeWrite ≠ 0 →
      ∀ info, Call.setInfo handle sizeofEfiFileInfo info ∈ g.calls)
    (info : EfiFileInfo) : Granted p g (openEffects p handle flags info) := by
  unfold openEffects
  split
  · rename_i happend
    exact Granted.call (hend happend) fun _ => .pure _
  · rename_i happend
    split
    · rename_i hwrite
      exact Composed.andThen (fdEfiSetFileInfo_granted (hset happend hwrite) _)
        fun _ => .pure _
    · exact .pure _

theorem fdFsyncTaken_granted (hflush : Call.flush handle ∈ g.calls) :
    Granted p g (fdFsyncTaken p handle) :=
  Granted.call hflush fun _ => Granted.checked (.pure _)

theorem seekCurrent_granted (hget : Call.getPosition handle ∈ g.calls)
    (hset : ∀ position, Call.setPosition handle position ∈ g.calls) (offset : Int) :
    Granted p g (seekCurrent p handle offset) :=
  Granted.call hget fun _ => Granted.checked (Granted.call (hset _) fun _ => .pure _)

theorem fdLseekTaken_granted (hget : Call.getPosition handle ∈ g.calls)
    (hset : ∀ position, Call.setPosition handle position ∈ g.calls) (offset whence : Int) :
    Granted p g (fdLseekTaken p offset whence handle) := by
  unfold fdLseekTaken
  refine Composed.ite (Granted.call (hset _) fun moved => .pure _) ?_
  refine Composed.ite (Granted.call (hset _) fun moved => ?_) ?_
  · exact Granted.checked (seekCurrent_granted hget hset offset)
  · refine Composed.ite (seekCurrent_granted hget hset offset) ?_
    exact .look (fun s t halike => by rw [halike.trace]) fun s => .pure _

theorem fdReadTaken_granted {buf count : UInt64}
    (hwrites : ∀ log, region buf (p.reply log (.read handle count)).data.length ⊆ g.writes)
    (hread : Call.read handle count ∈ g.calls) :
    Granted p g (fdReadTaken p buf count handle) := by
  refine Composed.bind (.basic (.call hread)) fun read hreturns => ?_
  obtain ⟨m, m', hrun⟩ := hreturns
  have hreply := (uefiCallWrapper_eq_ok p hrun).1
  have hstored : region buf read.data.length ⊆ g.writes := hreply ▸ hwrites m.trace
  exact Granted.store hstored fun _ => Granted.checked (.pure _)

/-- The data of a write is what lies in the buffer. -/
theorem bytes_congr {m t : Machine} {buf : UInt64} {count : Nat}
    (halike : m.AlikeOn (region buf count) t) :
    m.mem.bytes buf count = t.mem.bytes buf count := by
  apply List.map_congr_left
  intro i hi
  exact halike.mem _ ⟨i, List.mem_range.mp hi, rfl⟩

theorem Machine.AlikeOn.mono {reads reads' : Set UInt64} {m t : Machine}
    (halike : m.AlikeOn reads t) (hsubset : reads' ⊆ reads) : m.AlikeOn reads' t :=
  ⟨halike.fds, halike.trace, fun a ha => halike.mem a (hsubset ha)⟩

end Files

section Console

variable {buf count : UInt64}

theorem echoKey_granted (hprint : ∀ text, Call.outputString text ∈ g.calls) (key : UInt16) :
    Granted p g (echoKey p key) := by
  refine Granted.call (hprint _) fun _ => ?_
  split
  · exact Granted.call (hprint _) fun _ => .pure _
  · exact .pure _

/-- The end of a pass: it breaks or counts. -/
theorem passEnd_next {c : Prop} [Decidable c] {it it' : UInt32} {m m' : Machine}
    (hrun : (if c then pure (.inr it) else pure (.inl (it + 1)) : M (UInt32 ⊕ UInt32)).run m =
      .ok (.inl it') m') : it' = it + 1 := by
  split at hrun
  · cases hrun
  · injection hrun with hvalue
    injection hvalue with hnext
    exact hnext.symm

/-- A pass that goes on has counted one key. -/
theorem consoleReadPass_next {it it' : UInt32}
    (hreturns : CanReturn (consoleReadPass p buf count it) (.inl it')) :
    it.toUInt64 ≠ count ∧ it' = it + 1 := by
  obtain ⟨m, m', hrun⟩ := hreturns
  rw [consoleReadPass] at hrun
  split at hrun
  · cases hrun
  · rename_i hmore
    refine ⟨hmore, ?_⟩
    obtain ⟨_, _, _, hrun⟩ := run_bind_eq_ok.mp hrun
    obtain ⟨_, _, _, hrun⟩ := run_bind_eq_ok.mp hrun
    obtain ⟨read, _, _, hrun⟩ := run_bind_eq_ok.mp hrun
    simp only at hrun
    split at hrun
    · injection hrun with hvalue
      injection hvalue with hnext
      exact hnext.symm
    · obtain ⟨_, _, _, hrun⟩ := run_bind_eq_ok.mp hrun
      obtain ⟨_, _, _, hrun⟩ := run_bind_eq_ok.mp hrun
      exact passEnd_next hrun

/-- The cursor of the console loop stays inside the buffer: it stops on its end. -/
def CursorWithin (count : UInt64) (it : UInt32) : Prop := it.toNat ≤ count.toNat

theorem CursorWithin.lt {it : UInt32} (hwithin : CursorWithin count it)
    (hmore : it.toUInt64 ≠ count) : it.toNat < count.toNat := by
  refine Nat.lt_of_le_of_ne hwithin fun heq => hmore ?_
  apply UInt64.toNat.inj
  rw [UInt32.toNat_toUInt64, heq]

theorem CursorWithin.next {it : UInt32} (hwithin : CursorWithin count it)
    (hmore : it.toUInt64 ≠ count) : CursorWithin count (it + 1) := by
  have hlt := hwithin.lt hmore
  rw [CursorWithin, UInt32.toNat_add]
  exact (Nat.mod_le _ _).trans hlt

theorem consoleReadPass_granted (hstall : Call.stall 1000 ∈ g.calls)
    (hwait : Call.waitForEvent ∈ g.calls) (hkey : Call.readKeyStroke ∈ g.calls)
    (hprint : ∀ text, Call.outputString text ∈ g.calls)
    (hwrites : region buf count.toNat ⊆ g.writes) {it : UInt32}
    (hwithin : CursorWithin count it) : Granted p g (consoleReadPass p buf count it) := by
  unfold consoleReadPass
  split
  · exact .pure _
  · rename_i hmore
    have hcell : region (buf + it.toUInt64) 1 ⊆ g.writes := by
      refine Set.Subset.trans (region_subset_region ?_) hwrites
      rw [UInt32.toNat_toUInt64]
      exact hwithin.lt hmore
    refine Granted.call hstall fun _ => Granted.call hwait fun _ => Granted.call hkey fun read => ?_
    refine Granted.checked (Composed.andThen (echoKey_granted hprint _) fun _ => ?_)
    exact Granted.store hcell fun _ => Granted.checked (.pure _)

theorem fdReadConsole_granted (hstall : Call.stall 1000 ∈ g.calls)
    (hwait : Call.waitForEvent ∈ g.calls) (hkey : Call.readKeyStroke ∈ g.calls)
    (hprint : ∀ text, Call.outputString text ∈ g.calls)
    (hwrites : region buf count.toNat ⊆ g.writes) (fuel : Nat) :
    Granted p g (fdReadConsole p fuel buf count) := by
  refine Composed.andThen ?_ fun it => .pure _
  refine Granted.loop (CursorWithin count)
    (fun it hwithin => consoleReadPass_granted hstall hwait hkey hprint hwrites hwithin)
    ?_ fuel (Nat.zero_le _)
  intro it hwithin it' hreturns
  obtain ⟨hmore, rfl⟩ := consoleReadPass_next hreturns
  exact hwithin.next hmore

/-- A pass that goes on has counted one byte. -/
theorem consoleWritePass_next {cursor cursor' : StrCursor}
    (hreturns : CanReturn (consoleWritePass buf count cursor) (.inl cursor')) :
    cursor.it.toUInt64 ≠ count ∧ cursor'.it = cursor.it + 1 := by
  obtain ⟨m, m', hrun⟩ := hreturns
  by_cases hfull : cursor.it.toUInt64 = count
  · rw [consoleWritePass_run_full hfull] at hrun
    cases hrun
  · rw [consoleWritePass_run_more hfull] at hrun
    injection hrun with hvalue
    injection hvalue with hnext
    exact ⟨hfull, hnext ▸ cursor.next_it _⟩

/-- A pass of the conversion reads no byte beyond the count. -/
theorem consoleWritePass_granted (hreads : region buf count.toNat ⊆ g.reads)
    {cursor : StrCursor} (hwithin : CursorWithin count cursor.it) :
    Granted p g (consoleWritePass buf count cursor) := by
  unfold consoleWritePass
  split
  · exact .pure _
  · rename_i hmore
    refine .look (fun s t halike => ?_) fun s => .pure _
    have hcell : buf + cursor.it.toUInt64 ∈ region buf count.toNat := by
      refine ⟨cursor.it.toNat, hwithin.lt hmore, ?_⟩
      rw [← UInt32.toNat_toUInt64, UInt64.ofNat_toNat]
    rw [halike.mem _ (hreads hcell)]

theorem fdWriteConsole_granted (hprint : ∀ text, Call.outputString text ∈ g.calls)
    (hreads : region buf count.toNat ⊆ g.reads) (fuel : Nat) (size : UInt64) :
    Granted p g (fdWriteConsole p fuel size buf count) := by
  refine Composed.andThen (Granted.loop (fun cursor => CursorWithin count cursor.it)
    (fun cursor hwithin => consoleWritePass_granted hreads hwithin) ?_ fuel (Nat.zero_le _))
    fun cursor => ?_
  · intro cursor hwithin cursor' hreturns
    obtain ⟨hmore, hit⟩ := consoleWritePass_next hreturns
    exact hit ▸ hwithin.next hmore
  · split
    · exact Granted.stop (by simp) (by rintro ⟨index, ⟨⟩⟩)
    · exact Granted.call (hprint _) fun written => Granted.checked (.pure _)

theorem fdWriteTaken_granted {handle : FileHandle}
    (hwrite : ∀ data, Call.write handle count data ∈ g.calls)
    (hreads : region buf count.toNat ⊆ g.reads) :
    Granted p g (fdWriteTaken p buf count handle) := by
  refine .look (fun s t halike => ?_) fun s => ?_
  · rw [bytes_congr (halike.mono hreads)]
  · exact Granted.call (hwrite _) fun written => Granted.checked (.pure _)

end Console

section Clock

theorem timeGettimeofday_granted {tv : UInt64} (htime : Call.getTime ∈ g.calls)
    (hwrites : region tv 16 ⊆ g.writes) : Granted p g (timeGettimeofday p tv) := by
  have hseconds : region tv 8 ⊆ g.writes := Set.Subset.trans (region_mono (by decide)) hwrites
  have hmicros : region (tv + 8) 8 ⊆ g.writes :=
    Set.Subset.trans (region_subset_region (by decide)) hwrites
  refine Composed.andThen (Granted.call htime fun got => .pure _) fun now => ?_
  exact Granted.store hseconds fun _ => Granted.store hmicros fun _ => .pure _

theorem load64_congr {m t : Machine} {address : UInt64}
    (halike : m.AlikeOn (region address 8) t) :
    m.mem.load64 address = t.mem.load64 address := by
  rw [Memory.load64, Memory.load64, bytes_congr halike]

theorem timeSleep_granted {duration : UInt64}
    (hstall : ∀ microseconds, Call.stall microseconds ∈ g.calls)
    (hreads : region duration 16 ⊆ g.reads) : Granted p g (timeSleep p duration) := by
  have hseconds : region duration 8 ⊆ g.reads :=
    Set.Subset.trans (region_mono (by decide)) hreads
  have hmicros : region (duration + 8) 8 ⊆ g.reads :=
    Set.Subset.trans (region_subset_region (by decide)) hreads
  refine .look (fun s t halike => ?_) fun s => ?_
  · rw [load64_congr (halike.mono hseconds), load64_congr (halike.mono hmicros)]
  · exact Granted.call (hstall _) fun reply => Granted.checked (.pure _)

end Clock

section Records

theorem storeDirent_granted {dire : UInt64} {name : List UInt8}
    (hhead : region dire 18 ⊆ g.writes) (hname : region (dire + 19) scratchUnits ⊆ g.writes)
    (hlength : name.length < scratchUnits) : Granted p g (storeDirent dire name) := by
  have hnamed : region (dire + 19) (name ++ [0]).length ⊆ g.writes := by
    refine Set.Subset.trans (region_mono ?_) hname
    rw [List.length_append, List.length_singleton]
    exact hlength
  have hino : region dire 8 ⊆ g.writes := Set.Subset.trans (region_mono (by decide)) hhead
  have hreclen : region (dire + 16) 2 ⊆ g.writes :=
    Set.Subset.trans (region_subset_region (by decide)) hhead
  have hoff : region (dire + 8) 8 ⊆ g.writes :=
    Set.Subset.trans (region_subset_region (by decide)) hhead
  refine Granted.store hnamed fun _ => Granted.store hino fun _ => ?_
  exact Granted.store hreclen fun _ => .basic (.store hoff)

theorem direntLoop_granted {handle : FileHandle} {dire : UInt64}
    (hread : Call.read handle scratchSize ∈ g.calls) (hhead : region dire 18 ⊆ g.writes)
    (hname : region (dire + 19) scratchUnits ⊆ g.writes) (left : Nat) (fres : UInt64) :
    Granted p g (direntLoop p handle dire left fres) := by
  induction left generalizing fres with
  | zero => exact .pure _
  | succ left ih =>
      refine Granted.call hread fun read => Granted.checked ?_
      cases hscan : scanName scratchUnits read.info.fileName with
      | none => exact Granted.stop (by simp) (by rintro ⟨index, ⟨⟩⟩)
      | some name =>
          exact Composed.andThen (storeDirent_granted hhead hname (scanName_length hscan))
            fun _ => ih _

/-- The part of a `struct stat` that the handlers write: all but `__pad0`, `st_rdev`
and what comes after the times. -/
def statRegion (buf : UInt64) : Set UInt64 := region buf 36 ∪ region (buf + 48) 72

theorem statRegion_head {buf offset : UInt64} {width : Nat}
    (hfits : offset.toNat + width ≤ 36) : region (buf + offset) width ⊆ statRegion buf :=
  Set.Subset.trans (region_subset_region hfits) Set.subset_union_left

theorem statRegion_rest {buf offset : UInt64} {width : Nat} (hfirst : 48 ≤ offset.toNat)
    (hfits : offset.toNat + width ≤ 120) : region (buf + offset) width ⊆ statRegion buf := by
  have hfirst' : (48 : UInt64).toNat ≤ offset.toNat := hfirst
  exact Set.Subset.trans (region_subset_part hfirst' hfits) Set.subset_union_right

/-- A number that is stored in a field of a structure, and what comes after it. -/
theorem Granted.field {α : Type} {address : UInt64} {width value : Nat} {f : PUnit → M α}
    {fields : Set UInt64} (hwrites : fields ⊆ g.writes) (hin : region address width ⊆ fields)
    (hf : ∀ u, Granted p g (f u)) :
    Granted p g (storeBytes address (littleEndian width value) >>= f) := by
  refine Granted.store ?_ hf
  rw [littleEndian_length]
  exact Set.Subset.trans hin hwrites

theorem Granted.lastField {address : UInt64} {width value : Nat} {fields : Set UInt64}
    (hwrites : fields ⊆ g.writes) (hin : region address width ⊆ fields) :
    Granted p g (storeBytes address (littleEndian width value)) := by
  refine .basic (.store ?_)
  rw [littleEndian_length]
  exact Set.Subset.trans hin hwrites

theorem storeStatHeader_granted {buf : UInt64} (hwrites : statRegion buf ⊆ g.writes) :
    Granted p g (storeStatHeader p buf) := by
  have hdev : region buf 8 ⊆ statRegion buf :=
    Set.Subset.trans (region_mono (by decide)) Set.subset_union_left
  unfold storeStatHeader
  refine .field hwrites hdev fun _ => .field hwrites (statRegion_head (by decide)) fun _ => ?_
  refine .field hwrites (statRegion_head (by decide)) fun _ => ?_
  refine .field hwrites (statRegion_head (by decide)) fun _ => ?_
  refine .field hwrites (statRegion_head (by decide)) fun _ => ?_
  refine .field hwrites (statRegion_head (by decide)) fun _ => ?_
  refine .field hwrites (statRegion_rest (by decide) (by decide)) fun _ => ?_
  refine .field hwrites (statRegion_rest (by decide) (by decide)) fun _ => ?_
  refine .field hwrites (statRegion_rest (by decide) (by decide)) fun _ => ?_
  exact .lastField hwrites (statRegion_rest (by decide) (by decide))

theorem storeStatInfo_granted {buf : UInt64} (hwrites : statRegion buf ⊆ g.writes)
    (info : EfiFileInfo) : Granted p g (storeStatInfo buf info) := by
  unfold storeStatInfo
  refine .field hwrites (statRegion_rest (by decide) (by decide)) fun _ => ?_
  refine .field hwrites (statRegion_rest (by decide) (by decide)) fun _ => ?_
  refine .field hwrites (statRegion_rest (by decide) (by decide)) fun _ => ?_
  refine .field hwrites (statRegion_rest (by decide) (by decide)) fun _ => ?_
  exact .lastField hwrites (statRegion_rest (by decide) (by decide))

theorem fdEfiStat_granted {buf : UInt64} {handle : FileHandle}
    (hwrites : statRegion buf ⊆ g.writes)
    (hinfo : Call.getInfo handle sizeofEfiFileInfo ∈ g.calls) :
    Granted p g (fdEfiStat p buf handle) := by
  refine Composed.andThen (storeStatHeader_granted hwrites) fun _ => ?_
  refine Composed.andThen (fdEfiGetFileInfo_granted hinfo) fun got => Granted.checked ?_
  exact Composed.andThen (storeStatInfo_granted hwrites got.info) fun _ => .pure _

end Records

section Services

theorem fdSelect_granted {nfds : Int} {readfds writefds exceptfds timeout : UInt64}
    (hstall : nfds = 0 ∧ readfds = 0 ∧ writefds = 0 ∧ exceptfds = 0 →
      ∀ microseconds, Call.stall microseconds ∈ g.calls)
    (hreads : region timeout 16 ⊆ g.reads) :
    Granted p g (fdSelect p nfds readfds writefds exceptfds timeout) := by
  unfold fdSelect
  split
  · exact .pure _
  · rename_i hnone
    have hzero : nfds = 0 ∧ readfds = 0 ∧ writefds = 0 ∧ exceptfds = 0 := by
      simpa only [not_or, not_not] using hnone
    exact timeSleep_granted (hstall hzero) hreads

theorem memMmap_granted {length : UInt64} {fd : Int}
    (hpool : fd ≤ 0 → Call.allocatePool length ∈ g.calls) (addr : UInt64)
    (prot flags offset : Int) : Granted p g (memMmap p addr length prot flags fd offset) := by
  unfold memMmap
  split
  · exact .pure _
  · rename_i hfd
    exact Granted.call (hpool (not_lt.mp hfd)) fun allocated => Granted.checked (.pure _)

theorem memMunmap_granted {addr : UInt64} (hpool : Call.freePool addr ∈ g.calls)
    (length : UInt64) : Granted p g (memMunmap p addr length) :=
  Granted.call hpool fun _ => Granted.checked (.pure _)

theorem procExit_granted {status : Int}
    (hexit : Call.exit (if status ≠ 0 then efiEndOfFile else efiSuccess) ∈ g.calls) :
    Granted p g (procExit p status) :=
  Granted.call hexit fun _ => .pure _

theorem procKill_granted {pid sig : Int}
    (hexit : pid = emuPid → sig < 30 → Call.exit efiAborted ∈ g.calls) :
    Granted p g (procKill p pid sig) := by
  unfold procKill
  refine Granted.checked ?_
  split
  · exact .pure _
  · rename_i hpid
    split
    · exact .pure _
    · rename_i hsig
      have hcall := hexit (not_not.mp hpid) (not_le.mp hsig)
      refine Composed.andThen (Granted.call hcall fun _ => .pure _) fun _ => ?_
      exact Granted.stop (by simp) (by rintro ⟨index, ⟨⟩⟩)

theorem announce_granted {text : List UInt16} (hprint : Call.outputString text ∈ g.calls) :
    Granted p g (announce p text) :=
  Granted.call hprint fun _ => .pure _

theorem resetAndReturn_granted {kind : ResetType} {size : UInt64} {text : String}
    (hreset : Call.resetSystem kind efiSuccess size (wide text) ∈ g.calls) :
    Granted p g (resetAndReturn p kind size text) :=
  Granted.call hreset fun _ => .pure _

end Services

end UefiLinux
