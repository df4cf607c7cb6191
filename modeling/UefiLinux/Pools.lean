/-
Pool memory over sessions.  What the firmware has allocated is what the program has mapped
and not unmapped again, as it can tell from the results of its calls alone.
-/
import UefiLinux.Library.Ledger
import UefiLinux.OpenFiles
import UefiLinux.Reporting
import UefiLinux.Sessions
import UefiLinux.Wrappers

namespace UefiLinux

open Progress Journal

/-- The blocks of the firmware's pool. -/
def pool : Ledger Event UInt64 where
  acquired e :=
    match e.call with
    | .allocatePool _ => if efiError e.reply.status then none else some e.reply.address
    | _ => none
  released e :=
    match e.call with
    | .freePool addr => if efiError e.reply.status then none else some addr
    | _ => none
  used e :=
    match e.call with
    | .freePool addr => some addr
    | _ => none

/-- The blocks of a program: what a call of `mmap` returns is mapped, unless it is an errno,
and unmapped when `munmap` returns no errno. -/
def mappings : Ledger Action UInt64 where
  acquired
    | .store _ _ => none
    | .call c word =>
        match dispatch c.no c.args with
        | .ok (.memMmap ..) => if ErrnoWord word then none else some word
        | _ => none
  released
    | .store _ _ => none
    | .call c word =>
        match dispatch c.no c.args with
        | .ok (.memMunmap addr _) => if ErrnoWord word then none else some addr
        | _ => none
  used
    | .store _ _ => none
    | .call c _ =>
        match dispatch c.no c.args with
        | .ok (.memMunmap addr _) => some addr
        | _ => none

/-- No block lies at an address that reads as an errno. -/
def Platform.PoolAddresses (p : Platform) : Prop :=
  ∀ log size, efiError (p.reply log (.allocatePool size)).status = false →
    ¬ ErrnoWord (p.reply log (.allocatePool size)).address

/-- The requests that map and unmap. -/
def Request.Maps : Request → Prop
  | .memMmap .. | .memMunmap .. => True
  | _ => False

section Actions

variable {p : Platform} {m m' : Machine} {c : SysCall} {word : UInt64} {act : Action}

theorem pool_accounts_nil {new : List Event}
    (hnew : ∀ e ∈ new, pool.Neutral e ∧ pool.used e = none)
    (hacquired : mappings.acquired act = none) (hreleased : mappings.released act = none)
    (hused : mappings.used act = none) : pool.Accounts mappings act new := by
  intro start
  rw [pool.live_of_neutral fun e he => (hnew e he).1,
    mappings.step_of_neutral ⟨hacquired, hreleased⟩, hused]
  refine ⟨rfl, iff_of_true (pool.disciplined_of_neutral fun e he => ⟨(hnew e he).1, ?_⟩) ?_⟩
  · intro h hsome
    rw [(hnew e he).2] at hsome
    cases hsome
  · intro h hsome
    cases hsome

theorem pool_accounts_single {e : Event} (hacquired : pool.acquired e = mappings.acquired act)
    (hreleased : pool.released e = mappings.released act)
    (hused : pool.used e = mappings.used act) : pool.Accounts mappings act [e] := by
  intro start
  rw [pool.live_cons, pool.live_nil, Ledger.step, Ledger.step, hacquired, hreleased,
    Ledger.Disciplined, Ledger.Disciplined, hused, and_true]
  exact ⟨rfl, Iff.rfl⟩

/-- Only mapping and unmapping have to do with the pool. -/
theorem Request.pool_neutral {r : Request} (hother : ¬ r.Maps) {e : Event}
    (hin : e.call ∈ r.calls m) : pool.Neutral e ∧ pool.used e = none := by
  have hasks := Request.asks_of_calls hin
  generalize hcall : e.call = call at hasks
  simp only [Ledger.Neutral, pool, hcall]
  cases hasks with
  | allocates | frees => exact absurd trivial hother
  | resets hvalid hresets =>
      rcases hresets with ⟨_, rfl⟩ | ⟨_, rfl⟩ | ⟨_, rfl⟩ <;> exact ⟨⟨rfl, rfl⟩, rfl⟩
  | _ => exact ⟨⟨rfl, rfl⟩, rfl⟩

theorem memMmap_run (p : Platform) {fd : Int} (hfd : fd ≤ 0) (addr length : UInt64)
    (prot flags offset : Int) (m : Machine) :
    (memMmap p addr length prot flags fd offset).run m =
      .ok (if efiError (p.answer m (.allocatePool length)).reply.status then
          UInt64.ofInt (failure (p.answer m (.allocatePool length)).reply.status)
        else (p.answer m (.allocatePool length)).reply.address)
        (p.after m (.allocatePool length)) := by
  rw [memMmap, if_neg (by omega)]
  rw [run_bind_of_ok (uefiCallWrapper_run p rfl m)]
  split <;> rfl

theorem memMunmap_run (p : Platform) (addr length : UInt64) (m : Machine) :
    (memMunmap p addr length).run m =
      .ok (if efiError (p.answer m (.freePool addr)).reply.status then
          failure (p.answer m (.freePool addr)).reply.status
        else 0) (p.after m (.freePool addr)) :=
  reportedCall_run p rfl 0 m

/-- A mapping is told apart from a failed one by its result. -/
theorem accounts_of_mmap {e : Event} {addr length : UInt64} {prot flags fd offset : Int}
    (hdispatch : dispatch c.no c.args = .ok (.memMmap addr length prot flags fd offset))
    (hcall : e.call = .allocatePool length)
    (haddress : efiError e.reply.status = false → ¬ ErrnoWord e.reply.address)
    (hword : word = if efiError e.reply.status then UInt64.ofInt (failure e.reply.status)
      else e.reply.address) :
    pool.Accounts mappings (.call c word) [e] := by
  cases hstatus : efiError e.reply.status with
  | true =>
      have herrno : ErrnoWord word := by
        rw [hword, if_pos hstatus]
        exact errnoWord_of_isErrno (failure_isErrno _)
      apply pool_accounts_single <;> simp [pool, mappings, hdispatch, hcall, hstatus, herrno]
  | false =>
      have hsame : word = e.reply.address := by
        rw [hword, if_neg (by simp [hstatus])]
      have herrno : ¬ ErrnoWord e.reply.address := haddress hstatus
      apply pool_accounts_single <;>
        simp [pool, mappings, hdispatch, hcall, hstatus, herrno, hsame]

/-- And so is an unmapping. -/
theorem accounts_of_munmap {e : Event} {addr length : UInt64}
    (hdispatch : dispatch c.no c.args = .ok (.memMunmap addr length))
    (hcall : e.call = .freePool addr)
    (hword : word = UInt64.ofInt
      (if efiError e.reply.status then failure e.reply.status else 0)) :
    pool.Accounts mappings (.call c word) [e] := by
  cases hstatus : efiError e.reply.status with
  | true =>
      have herrno : ErrnoWord word := by
        rw [hword, if_pos hstatus]
        exact errnoWord_of_isErrno (failure_isErrno _)
      apply pool_accounts_single <;> simp [pool, mappings, hdispatch, hcall, hstatus, herrno]
  | false =>
      have herrno : ¬ ErrnoWord word := by
        rw [hword, if_neg (by simp [hstatus])]
        decide
      apply pool_accounts_single <;> simp [pool, mappings, hdispatch, hcall, hstatus, herrno]

/-- What a call does to the pool is what its result tells the program. -/
theorem SysCall.Ends.accounts (haddresses : p.PoolAddresses)
    (hends : c.Ends p m (.ok word m')) :
    ∃ new, m'.trace = m.trace ++ new ∧ pool.Accounts mappings (.call c word) new := by
  rcases c.ends_cases p hends with ⟨r, fuel, hdispatch, hrun⟩ | ⟨why, _, hrun⟩
  · by_cases hmaps : r.Maps
    · cases r with
      | memMmap addr length prot flags fd offset =>
          change .ok word m' = (memMmap p addr length prot flags fd offset).run m at hrun
          by_cases hfile : 0 < fd
          · rw [memMmap_run_of_file p hfile, EStateM.Result.ok.injEq] at hrun
            obtain ⟨rfl, rfl⟩ := hrun
            have herrno := errnoWord_of_isErrno (Errno.neg_isErrno .enotsup)
            refine ⟨[], (List.append_nil _).symm, pool_accounts_nil (by simp) ?_ ?_ ?_⟩ <;>
              simp [mappings, hdispatch, herrno]
          · rw [memMmap_run p (not_lt.mp hfile), EStateM.Result.ok.injEq] at hrun
            obtain ⟨hword, rfl⟩ := hrun
            exact ⟨_, rfl, accounts_of_mmap hdispatch rfl (haddresses _ _) hword⟩
      | memMunmap addr length =>
          obtain ⟨v, hrun', hword⟩ := asWord_eq_ok.mp hrun.symm
          rw [memMunmap_run, EStateM.Result.ok.injEq] at hrun'
          obtain ⟨rfl, rfl⟩ := hrun'
          exact ⟨_, rfl, accounts_of_munmap hdispatch rfl hword⟩
      | _ => exact hmaps.elim
    · obtain ⟨new, htrace, hnew⟩ := hends.calls
      rw [SysCall.calls, hdispatch] at hnew
      refine ⟨new, htrace, pool_accounts_nil
        (fun e he => Request.pool_neutral hmaps (hnew e he)) ?_ ?_ ?_⟩ <;>
      · simp only [mappings, hdispatch]
        cases r <;> first | rfl | exact absurd trivial hmaps
  · cases hrun

theorem Action.Does.accounts (haddresses : p.PoolAddresses) (hdoes : act.Does p m m') :
    ∃ new, m'.trace = m.trace ++ new ∧ pool.Accounts mappings act new := by
  cases hdoes with
  | store address bytes m =>
      exact ⟨[], (List.append_nil _).symm, pool_accounts_nil (by simp) rfl rfl rfl⟩
  | call hends => exact hends.accounts haddresses

end Actions

section Sessions

variable {p : Platform} {m m' m'' : Machine} {acts : List Action}

theorem Session.accounts (haddresses : p.PoolAddresses) (hsession : Session p m acts m') :
    ∃ new, m'.trace = m.trace ++ new ∧ ∀ held, pool.live held new = mappings.live held acts ∧
      (pool.Disciplined held new ↔ mappings.Disciplined held acts) :=
  pool.accounts_run mappings Machine.trace
    (fun _ _ _ hdoes => Action.Does.accounts haddresses hdoes) hsession

/-- Over any session the pool blocks that the firmware holds for the program are those that
the program has mapped and not unmapped, as it can tell from its results; the layer keeps
none for itself, and the firmware is asked to free only what is held just when the program
unmaps only what is mapped. -/
theorem session_pool_is_mapped (haddresses : p.PoolAddresses)
    (hsession : Session p m acts m') :
    ∃ new, m'.trace = m.trace ++ new ∧ ∀ held, pool.live held new = mappings.live held acts ∧
      (pool.Disciplined held new ↔ mappings.Disciplined held acts) :=
  hsession.accounts haddresses

/-- A pool of four blocks, one behind the other, of which none is given out twice. -/
def poolFirmware : Platform where
  volume := 0
  reply := fun log _ =>
    { Reply.ofStatus efiSuccess with address := UInt64.ofNat (4096 * (log.length % 4 + 1)) }
  residue := fun _ => ⟨efiSuccess, 0, EfiFileInfo.zero⟩

theorem poolFirmware_addresses : poolFirmware.PoolAddresses := by
  intro log size _ herrno
  have hrest : log.length % 4 < 4 := Nat.mod_lt _ (by decide)
  have hblock : ∀ k < 4, ¬ ErrnoWord (UInt64.ofNat (4096 * (k + 1))) := by decide
  exact hblock _ hrest herrno

/-- A block is mapped and unmapped again. -/
theorem session_pool_is_mapped_once :
    ∃ m', Session poolFirmware Machine.blank
        ([] ++ [.call ⟨9, [0, 64, 3, 2, 0, 0]⟩ 4096] ++ [.call ⟨11, [4096, 64]⟩ 0]) m' ∧
      ∃ new, m'.trace = Machine.blank.trace ++ new ∧ pool.live ∅ new =
        mappings.live ∅ ([] ++ [.call ⟨9, [0, 64, 3, 2, 0, 0]⟩ 4096] ++
          [.call ⟨11, [4096, 64]⟩ 0]) := by
  obtain ⟨m', hsession⟩ : ∃ m', Session poolFirmware Machine.blank
      ([] ++ [.call ⟨9, [0, 64, 3, 2, 0, 0]⟩ 4096] ++ [.call ⟨11, [4096, 64]⟩ 0]) m' :=
    ⟨_, ((Run.nil _).snoc (.call (c := ⟨9, [0, 64, 3, 2, 0, 0]⟩) ⟨0, rfl⟩)).snoc
      (.call (c := ⟨11, [4096, 64]⟩) ⟨0, rfl⟩)⟩
  obtain ⟨new, htrace, hnew⟩ := session_pool_is_mapped poolFirmware_addresses hsession
  exact ⟨m', hsession, new, htrace, (hnew ∅).1⟩

/-- `heap_alloc`: a private mapping of no file, which the program may read and write -/
def heapAlloc (size : UInt64) : SysCall :=
  ⟨unistdX86_64.mmap, [0, size, intWord 3, intWord 2, intWord (-1), longWord 0]⟩

/-- `heap_dealloc` -/
def heapDealloc (memptr size : UInt64) : SysCall := ⟨unistdX86_64.munmap, [memptr, size]⟩

theorem heapAlloc_dispatch (size : UInt64) :
    dispatch (heapAlloc size).no (heapAlloc size).args = .ok (.memMmap 0 size 3 2 (-1) 0) := by
  simp [heapAlloc, dispatch, arg, unistdX86_64]

theorem heapDealloc_dispatch (memptr size : UInt64) :
    dispatch (heapDealloc memptr size).no (heapDealloc memptr size).args =
      .ok (.memMunmap memptr size) := by
  simp [heapDealloc, dispatch, arg, unistdX86_64]

theorem heapAlloc_run (p : Platform) (fuel : Nat) (size : UInt64) (m : Machine) :
    (syscallEmuX86_64 p fuel (heapAlloc size).no (heapAlloc size).args).run m =
      .ok (if efiError (p.answer m (.allocatePool size)).reply.status then
          UInt64.ofInt (failure (p.answer m (.allocatePool size)).reply.status)
        else (p.answer m (.allocatePool size)).reply.address)
        (p.after m (.allocatePool size)) := by
  rw [syscallEmuX86_64, heapAlloc_dispatch]
  exact memMmap_run p (by decide) 0 size 3 2 0 m

theorem heapAlloc_ends {size : UInt64}
    (hstatus : efiError (p.answer m (.allocatePool size)).reply.status = false) :
    (heapAlloc size).Ends p m
      (.ok (p.answer m (.allocatePool size)).reply.address (p.after m (.allocatePool size))) :=
  ⟨0, by rw [heapAlloc_run, if_neg (by simp [hstatus])]⟩

theorem heapDealloc_ends {memptr size : UInt64}
    (hstatus : efiError (p.answer m (.freePool memptr)).reply.status = false) :
    (heapDealloc memptr size).Ends p m (.ok 0 (p.after m (.freePool memptr))) := by
  refine ⟨0, ?_⟩
  rw [syscallEmuX86_64, heapDealloc_dispatch]
  refine asWord_eq_ok.mpr ⟨0, ?_, rfl⟩
  rw [memMunmap_run, if_neg (by simp [hstatus])]

/-- Blocks that are not given out again before they are freed. -/
def Platform.PoolFresh (p : Platform) (base : List Event) (held : Set UInt64) : Prop :=
  ∀ new size, efiError (p.reply (base ++ new) (.allocatePool size)).status = false →
    (p.reply (base ++ new) (.allocatePool size)).address ∉ pool.live held new

/-- After any session an allocation for the heap either fails, and the heap gets the
pointer -1, which is not null, or it gives a block that the program does not hold. -/
theorem heap_alloc_gives_fresh_block {held : Set UInt64} {size word : UInt64}
    (haddresses : p.PoolAddresses) (hfresh : p.PoolFresh m.trace held)
    (hsession : Session p m acts m') (hends : (heapAlloc size).Ends p m' (.ok word m'')) :
    ((libcPointer word).value = -1 ∧ ErrnoWord word) ∨
      (¬ ErrnoWord word ∧ word ∉ mappings.live held acts) := by
  obtain ⟨new, htrace, hnew⟩ := hsession.accounts haddresses
  obtain ⟨fuel, hrun⟩ := hends
  rw [heapAlloc_run, EStateM.Result.ok.injEq] at hrun
  obtain ⟨hword, _⟩ := hrun
  cases hstatus : efiError (p.answer m' (.allocatePool size)).reply.status with
  | true =>
      rw [if_pos hstatus] at hword
      have herrno : ErrnoWord word := hword ▸ errnoWord_of_isErrno (failure_isErrno _)
      exact .inl ⟨by rw [(ErrnoWord.libc herrno).2.2], herrno⟩
  | false =>
      rw [if_neg (by simp [hstatus])] at hword
      have hreply := hfresh new size
      rw [← htrace] at hreply
      rw [← (hnew held).1, ← hword]
      exact .inr ⟨haddresses _ _ hstatus, hreply hstatus⟩

/-- A pool of one block, which is given out at first and whenever it has just been freed. -/
def oneBlockFirmware : Platform where
  volume := 0
  reply := fun log call =>
    match call, log.getLast? with
    | .allocatePool _, some e =>
        if pool.released e = some 4096 then
          { Reply.ofStatus efiSuccess with address := 4096 }
        else Reply.ofStatus 0x8000000000000009
    | _, _ => { Reply.ofStatus efiSuccess with address := 4096 }
  residue := fun _ => ⟨efiSuccess, 0, EfiFileInfo.zero⟩

theorem oneBlockFirmware_addresses : oneBlockFirmware.PoolAddresses := by
  intro log size _
  simp only [oneBlockFirmware]
  split
  · split <;> decide
  · decide

theorem oneBlockFirmware_fresh : oneBlockFirmware.PoolFresh [] ∅ := by
  intro new size hstatus
  rcases List.eq_nil_or_concat new with rfl | ⟨first, e, rfl⟩
  · exact id
  · by_cases hreleased : pool.released e = some 4096
    · rw [List.concat_eq_append, pool.live_append]
      rintro ⟨_, hkept⟩
      refine hkept ?_
      simp [oneBlockFirmware, hreleased]
    · simp [oneBlockFirmware, hreleased] at hstatus
      exact absurd hstatus (by decide)

/-- After its block has been freed the heap gets it again. -/
theorem heap_alloc_gives_fresh_block_again :
    ∃ m' m'', Session oneBlockFirmware Machine.blank
        ([] ++ [.call (heapAlloc 64) 4096] ++ [.call (heapDealloc 4096 64) 0]) m' ∧
      (heapAlloc 64).Ends oneBlockFirmware m' (.ok 4096 m'') ∧
      (4096 : UInt64) ∉ mappings.live ∅
        ([] ++ [.call (heapAlloc 64) 4096] ++ [.call (heapDealloc 4096 64) 0]) := by
  obtain ⟨m₁, hfirst, m₂, hfree, m₃, hends⟩ :
      ∃ m₁, (heapAlloc 64).Ends oneBlockFirmware Machine.blank (.ok 4096 m₁) ∧
        ∃ m₂, (heapDealloc 4096 64).Ends oneBlockFirmware m₁ (.ok 0 m₂) ∧
          ∃ m₃, (heapAlloc 64).Ends oneBlockFirmware m₂ (.ok 4096 m₃) :=
    ⟨_, heapAlloc_ends rfl, _, heapDealloc_ends rfl, _, heapAlloc_ends rfl⟩
  have hsession : Session oneBlockFirmware Machine.blank
      ([] ++ [.call (heapAlloc 64) 4096] ++ [.call (heapDealloc 4096 64) 0]) m₂ :=
    ((Run.nil _).snoc (.call hfirst)).snoc (.call hfree)
  refine ⟨m₂, m₃, hsession, hends, ?_⟩
  have hfresh : oneBlockFirmware.PoolFresh Machine.blank.trace ∅ := oneBlockFirmware_fresh
  have hgiven := heap_alloc_gives_fresh_block oneBlockFirmware_addresses hfresh hsession hends
  have hblock : ¬ ErrnoWord 4096 := by decide
  exact (hgiven.resolve_left fun h => hblock h.2).2

end Sessions

end UefiLinux
