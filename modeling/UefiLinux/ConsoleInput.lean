/-
Reading a line from the console.  The loop of `fd_read` is followed key by key: which
byte each key stores and where, and what the two exits of the loop return.
-/
import UefiLinux.Cells
import UefiLinux.Console

namespace UefiLinux

open Progress Words

/-- The number of keys read in a journal. -/
def keysRead (log : List Event) : Nat :=
  log.countP fun e => decide (e.call = .readKeyStroke)

/-- From the given journal on, the keys are typed one after the other, without end. -/
structure Types (p : Platform) (base : List Event) (keys : Nat → UInt16) : Prop where
  waits : ∀ new, (p.reply (base ++ new) .waitForEvent).returns = true
  typed : ∀ new, (p.reply (base ++ new) .readKeyStroke).key = keys (keysRead new)

/-- The byte that is stored for a key. -/
def keyByte (key : UInt16) : UInt8 :=
  if key.toUInt8 = carriageReturn then lineFeed else key.toUInt8

/-- The bytes of the keys from an index on, up to and including the first newline, and
at most so many. -/
def lineFrom (keys : Nat → UInt16) : (left first : Nat) → List UInt8
  | 0, _ => []
  | left + 1, first =>
      if keyByte (keys first) = lineFeed then [lineFeed]
      else keyByte (keys first) :: lineFrom keys left (first + 1)

/-- What the user has typed for a buffer of the given size: backspaces before any other
key do not count. -/
def TypedLine (keys : Nat → UInt16) (size : Nat) (line : List UInt8) : Prop :=
  ∃ skipped, (∀ i < skipped, (keys i).toUInt8 = backspace) ∧
    (0 < size → (keys skipped).toUInt8 ≠ backspace) ∧ line = lineFrom keys size skipped

theorem lineFrom_length_le (keys : Nat → UInt16) (left first : Nat) :
    (lineFrom keys left first).length ≤ left := by
  induction left generalizing first with
  | zero => exact le_rfl
  | succ left ih =>
      rw [lineFrom]
      split
      · exact Nat.succ_le_succ (Nat.zero_le left)
      · exact Nat.succ_le_succ (ih (first + 1))

theorem lineFeed_mem_lineFrom {keys : Nat → UInt16} {left first : Nat} :
    lineFeed ∈ lineFrom keys left first ↔
      ∃ i < left, keyByte (keys (first + i)) = lineFeed := by
  induction left generalizing first with
  | zero => simp [lineFrom]
  | succ left ih =>
      rw [lineFrom]
      by_cases hline : keyByte (keys first) = lineFeed
      · rw [if_pos hline]
        exact iff_of_true List.mem_cons_self ⟨0, Nat.succ_pos left, hline⟩
      · rw [if_neg hline, List.mem_cons, ih, or_iff_right (Ne.symm hline)]
        constructor
        · rintro ⟨i, hi, hkey⟩
          exact ⟨i + 1, Nat.succ_lt_succ hi, by rwa [Nat.add_right_comm] at hkey⟩
        · rintro ⟨i, hi, hkey⟩
          cases i with
          | zero => exact absurd hkey hline
          | succ i => exact ⟨i, Nat.lt_of_succ_lt_succ hi, by rwa [Nat.add_right_comm]⟩

theorem lineFrom_length_eq {keys : Nat → UInt16} {left first : Nat}
    (hline : lineFeed ∉ lineFrom keys left first) :
    (lineFrom keys left first).length = left := by
  induction left generalizing first with
  | zero => rfl
  | succ left ih =>
      rw [lineFrom] at hline ⊢
      by_cases hkey : keyByte (keys first) = lineFeed
      · rw [if_pos hkey] at hline
        exact absurd List.mem_cons_self hline
      · rw [if_neg hkey] at hline ⊢
        rw [List.length_cons, ih fun hmem => hline (List.mem_cons_of_mem _ hmem)]

section Keys

variable {p : Platform} {base : List Event} {keys : Nat → UInt16}

/-- So many keys have been read since the base of the journal. -/
def KeysAt (base : List Event) (m : Machine) (k : Nat) : Prop :=
  ∃ new, m.trace = base ++ new ∧ keysRead new = k

theorem KeysAt.start (m : Machine) : KeysAt m.trace m 0 :=
  ⟨[], (List.append_nil _).symm, rfl⟩

theorem KeysAt.after {m : Machine} {k : Nat} (hkeys : KeysAt base m k) (p : Platform)
    {call : Call} (hcall : call ≠ .readKeyStroke) : KeysAt base (p.after m call) k := by
  obtain ⟨new, htrace, rfl⟩ := hkeys
  refine ⟨new ++ [p.answer m call], ?_, ?_⟩
  · rw [Platform.after_trace, htrace, List.append_assoc]
  · simp [keysRead, List.countP_append, hcall]

theorem KeysAt.after_key {m : Machine} {k : Nat} (hkeys : KeysAt base m k)
    (p : Platform) :
    KeysAt base (p.after m .readKeyStroke) (k + 1) := by
  obtain ⟨new, htrace, rfl⟩ := hkeys
  refine ⟨new ++ [p.answer m .readKeyStroke], ?_, ?_⟩
  · rw [Platform.after_trace, htrace, List.append_assoc]
  · simp [keysRead, List.countP_append]

theorem Types.key_eq {m : Machine} {k : Nat} (htypes : Types p base keys)
    (hkeys : KeysAt base m k) : (p.answer m .readKeyStroke).reply.key = keys k := by
  obtain ⟨new, htrace, rfl⟩ := hkeys
  rw [← htypes.typed new, ← htrace]
  rfl

theorem Types.returns {m : Machine} {k : Nat} (htypes : Types p base keys)
    (hkeys : KeysAt base m k) : (p.answer m .waitForEvent).reply.returns = true := by
  obtain ⟨new, htrace, rfl⟩ := hkeys
  rw [← htypes.waits new, ← htrace]
  rfl

/-- The machine once a pass has read its key. -/
def keyMachine (p : Platform) (m : Machine) : Machine :=
  p.after (p.after (p.after m (.stall 1000)) .waitForEvent) .readKeyStroke

theorem KeysAt.keyMachine {m : Machine} {k : Nat} (hkeys : KeysAt base m k)
    (p : Platform) : KeysAt base (keyMachine p m) (k + 1) :=
  ((hkeys.after p (by simp)).after p (by simp)).after_key p

/-- Printing a key changes neither the memory nor the keys to come. -/
theorem echoKey_run (key : UInt16) {m : Machine} {k : Nat} (hkeys : KeysAt base m k) :
    ∃ m', (echoKey p key).run m = .ok ⟨⟩ m' ∧ m'.mem = m.mem ∧ KeysAt base m' k := by
  have hfirst : KeysAt base (p.after m (.outputString (printed key))) k :=
    hkeys.after p (by simp)
  rw [echoKey, run_bind_of_ok (uefiCallWrapper_run p rfl m)]
  by_cases hreturn : key.toUInt8 = carriageReturn
  · rw [if_pos hreturn, run_bind_of_ok (uefiCallWrapper_run p rfl _)]
    exact ⟨_, rfl, rfl, hfirst.after p (by simp)⟩
  · rw [if_neg hreturn]
    exact ⟨_, rfl, rfl, hfirst⟩

variable {buf count : UInt64} {it : UInt32} {m : Machine} {k : Nat}

/-- A full buffer ends the loop. -/
theorem consoleReadPass_run_full (hfull : it.toUInt64 = count) :
    (consoleReadPass p buf count it).run m = .ok (.inr it) m := by
  rw [consoleReadPass, if_pos hfull]
  rfl

variable (buf) in
/-- A backspace on an empty line is not stored, but the loop counts it. -/
theorem consoleReadPass_run_skip (htypes : Types p base keys) (hkeys : KeysAt base m k)
    (hmore : it.toUInt64 ≠ count) (hskip : it = 0 ∧ (keys k).toUInt8 = backspace) :
    (consoleReadPass p buf count it).run m = .ok (.inl (it + 1)) (keyMachine p m) := by
  have hwait : KeysAt base (p.after m (.stall 1000)) k := hkeys.after p (by simp)
  have hread : KeysAt base (p.after (p.after m (.stall 1000)) .waitForEvent) k :=
    hwait.after p (by simp)
  rw [consoleReadPass, if_neg hmore, run_bind_of_ok (uefiCallWrapper_run p rfl m),
    run_bind_of_ok (uefiCallWrapper_run_of_returns p (htypes.returns hwait)),
    run_bind_of_ok (uefiCallWrapper_run p rfl _), htypes.key_eq hread]
  simp only [if_pos hskip]
  rfl

/-- Any other key is stored, and a newline ends the loop. -/
theorem consoleReadPass_run_key (htypes : Types p base keys) (hkeys : KeysAt base m k)
    (hmore : it.toUInt64 ≠ count) (hkey : ¬ (it = 0 ∧ (keys k).toUInt8 = backspace)) :
    ∃ m', (consoleReadPass p buf count it).run m =
        .ok (if keyByte (keys k) = lineFeed then .inr it else .inl (it + 1)) m' ∧
      KeysAt base m' (k + 1) ∧
      m'.mem = m.mem.store (buf + it.toUInt64) [keyByte (keys k)] := by
  have hwait : KeysAt base (p.after m (.stall 1000)) k := hkeys.after p (by simp)
  have hread : KeysAt base (p.after (p.after m (.stall 1000)) .waitForEvent) k :=
    hwait.after p (by simp)
  obtain ⟨m₁, hecho, hmem, hkeys₁⟩ := echoKey_run (keys k) (hkeys.keyMachine p)
  refine ⟨{ m₁ with mem := m₁.mem.store (buf + it.toUInt64) [keyByte (keys k)] }, ?_,
    hkeys₁, by rw [hmem]; rfl⟩
  rw [consoleReadPass, if_neg hmore, run_bind_of_ok (uefiCallWrapper_run p rfl m),
    run_bind_of_ok (uefiCallWrapper_run_of_returns p (htypes.returns hwait)),
    run_bind_of_ok (uefiCallWrapper_run p rfl _), htypes.key_eq hread]
  simp only [if_neg hkey]
  rw [← keyMachine, run_bind_of_ok hecho, ← keyByte, run_bind_of_ok (storeBytes_run _ _ _)]
  by_cases hline : keyByte (keys k) = lineFeed
  · rw [if_pos hline, if_pos hline]
    rfl
  · rw [if_neg hline, if_neg hline]
    rfl

variable (buf) in
/-- The loop stores the line that is typed, and returns the index of its newline or, when
there is none, the size of the buffer. -/
theorem consoleReadLoop_run (htypes : Types p base keys) (hcount : count.toNat < 2 ^ 32)
    {left fuel : Nat} (hkeys : KeysAt base m k) (hleft : it.toNat + left = count.toNat)
    (hfirst : 0 < left → ¬ (it = 0 ∧ (keys k).toUInt8 = backspace)) (hfuel : left < fuel) :
    ∃ r m', (loop .outOfFuel (consoleReadPass p buf count) fuel it).run m = .ok r m' ∧
      m'.mem = m.mem.store (buf + it.toUInt64) (lineFrom keys left k) ∧
      r.toNat + (if lineFeed ∈ lineFrom keys left k then 1 else 0) =
        it.toNat + (lineFrom keys left k).length := by
  induction left generalizing fuel it m k with
  | zero =>
      have hfull : it.toUInt64 = count := by
        apply UInt64.toNat.inj
        rw [UInt32.toNat_toUInt64]
        exact hleft
      obtain ⟨fuel, rfl⟩ := Nat.exists_eq_add_of_le' (Nat.one_le_of_lt hfuel)
      exact ⟨it, m, loop_run_of_inr (consoleReadPass_run_full hfull), rfl, rfl⟩
  | succ left ih =>
      have hmore : it.toUInt64 ≠ count := by
        intro hfull
        have hnat := congrArg UInt64.toNat hfull
        rw [UInt32.toNat_toUInt64] at hnat
        omega
      obtain ⟨fuel, rfl⟩ := Nat.exists_eq_add_of_le' (Nat.one_le_of_lt hfuel)
      obtain ⟨m₁, hpass, hkeys₁, hmem₁⟩ :=
        consoleReadPass_run_key htypes hkeys hmore (hfirst (Nat.succ_pos left))
      by_cases hline : keyByte (keys k) = lineFeed
      · rw [if_pos hline] at hpass
        refine ⟨it, m₁, loop_run_of_inr hpass, ?_, ?_⟩
        · rw [hmem₁, lineFrom, if_pos hline, hline]
        · rw [lineFrom, if_pos hline, if_pos List.mem_cons_self]
          rfl
      · rw [if_neg hline] at hpass
        have hnext : (it + 1).toNat = it.toNat + 1 := toNat_add_one (by omega)
        have haddress : buf + (it + 1).toUInt64 = buf + it.toUInt64 + 1 := by
          rw [UInt64.add_assoc, toUInt64_add_one (by omega)]
        have hleft' : (it + 1).toNat + left = count.toNat := by omega
        have hfirst' : 0 < left → ¬ (it + 1 = 0 ∧ (keys (k + 1)).toUInt8 = backspace) := by
          rintro _ ⟨hzero, _⟩
          rw [hzero] at hnext
          exact absurd hnext (Nat.succ_ne_zero it.toNat).symm
        obtain ⟨r, m', hrun, hmem, hresult⟩ :=
          ih hkeys₁ hleft' hfirst' (Nat.lt_of_succ_lt_succ hfuel)
        refine ⟨r, m', ?_, ?_, ?_⟩
        · rw [loop_run_of_inl hpass, hrun]
        · rw [hmem, hmem₁, haddress, lineFrom, if_neg hline]
          rfl
        · have hmember : lineFeed ∈ keyByte (keys k) :: lineFrom keys left (k + 1) ↔
              lineFeed ∈ lineFrom keys left (k + 1) := by
            rw [List.mem_cons, or_iff_right (Ne.symm hline)]
          rw [lineFrom, if_neg hline, List.length_cons]
          simp only [hmember]
          omega

variable (p m buf count keys)

/-- Every call that returns gives the length of the line that was typed, at most the
size of the buffer, and stores that line and nothing else, whatever memory held. -/
def ReadsWhatIsTyped : Prop :=
  ∀ fuel mem n m', (fdRead p fuel 0 buf count).run { m with mem := mem } = .ok n m' →
    0 ≤ n ∧ n ≤ count.toNat ∧
      ∃ line, TypedLine keys count.toNat line ∧ n = line.length ∧
        m'.mem = mem.store buf line

/-- The line begins with a key that counts and is ended before the buffer is full. -/
def TypedInTime (keys : Nat → UInt16) (size : Nat) : Prop :=
  (keys 0).toUInt8 ≠ backspace ∧ ∃ i < size, keyByte (keys i) = lineFeed

variable {p m buf count keys}

theorem fdRead_console_eq_ok {fuel : Nat} {n : Int} {m' : Machine} :
    (fdRead p fuel 0 buf count).run m = .ok n m' ↔
      ∃ r, (loop .outOfFuel (consoleReadPass p buf count) fuel 0).run m = .ok r m' ∧
        n = ((r + 1).toNat : Int) := by
  rw [fdRead, if_neg (by decide), if_pos rfl, fdReadConsole, run_bind_eq_ok]
  constructor
  · rintro ⟨r, m₁, hloop, hreturn⟩
    rw [EStateM.run_pure, EStateM.Result.ok.injEq] at hreturn
    obtain ⟨rfl, rfl⟩ := hreturn
    exact ⟨r, hloop, rfl⟩
  · rintro ⟨r, hloop, rfl⟩
    exact ⟨r, m', hloop, rfl⟩

theorem TypedLine.length_pos {size : Nat} {line : List UInt8} (hsize : 0 < size)
    (hline : TypedLine keys size line) : 0 < line.length := by
  obtain ⟨skipped, _, _, rfl⟩ := hline
  obtain ⟨left, rfl⟩ := Nat.exists_eq_add_of_le' hsize
  rw [lineFrom]
  split <;> exact Nat.succ_pos _

/-- A typed line does not begin with a backspace. -/
theorem TypedLine.head_ne {size : Nat} {line : List UInt8} (hsize : 0 < size)
    (hline : TypedLine keys size line) : line.head? ≠ some backspace := by
  obtain ⟨skipped, _, hfirst, rfl⟩ := hline
  have hkey := hfirst hsize
  obtain ⟨left, rfl⟩ := Nat.exists_eq_add_of_le' hsize
  have hnewline : lineFeed ≠ backspace := by decide
  rw [lineFrom]
  split
  · simpa using hnewline
  · rw [List.head?_cons, ne_eq, Option.some.injEq, keyByte]
    split
    · exact hnewline
    · exact hkey

/-- With a line typed in time every call reads it. -/
theorem readsWhatIsTyped_of_typedInTime (htypes : Types p m.trace keys)
    (hcount : count.toNat < 2 ^ 32) (htime : TypedInTime keys count.toNat) :
    ReadsWhatIsTyped p keys buf count m := by
  obtain ⟨hfirst, hline⟩ := htime
  rintro fuel mem n m' hrun
  obtain ⟨r, hloop, rfl⟩ := fdRead_console_eq_ok.mp hrun
  have hkeys : KeysAt m.trace { m with mem := mem } 0 := KeysAt.start m
  have hzero : (0 : UInt32).toNat + count.toNat = count.toNat := Nat.zero_add _
  obtain ⟨r', m'', hloop', hmem, hresult⟩ := consoleReadLoop_run buf htypes hcount
    hkeys hzero (fun _ hskip => hfirst hskip.2) (Nat.lt_succ_self _)
  obtain ⟨rfl, rfl⟩ := loop_run_unique hloop hloop'
  have hmember : lineFeed ∈ lineFrom keys count.toNat 0 := by
    rw [lineFeed_mem_lineFrom]
    simpa using hline
  have hlength := lineFrom_length_le keys count.toNat 0
  rw [if_pos hmember] at hresult
  change r.toNat + 1 = 0 + (lineFrom keys count.toNat 0).length at hresult
  have hnext : (r + 1).toNat = (lineFrom keys count.toNat 0).length := by
    rw [toNat_add_one (by omega)]
    omega
  refine ⟨Int.natCast_nonneg _, by omega, lineFrom keys count.toNat 0, ?_, by rw [hnext], ?_⟩
  · exact ⟨0, by simp, fun _ => hfirst, rfl⟩
  · rw [hmem]
    change mem.store (buf + 0) _ = _
    rw [UInt64.add_zero]

/-- A buffer that fills up before the newline is reported as one byte longer. -/
theorem not_readsWhatIsTyped_of_full (htypes : Types p m.trace keys)
    (hcount : count.toNat < 2 ^ 32)
    (hfirst : 0 < count.toNat → (keys 0).toUInt8 ≠ backspace)
    (hlate : ¬ ∃ i < count.toNat, keyByte (keys i) = lineFeed) :
    ¬ ReadsWhatIsTyped p keys buf count m := by
  intro hreads
  have hzero : (0 : UInt32).toNat + count.toNat = count.toNat := Nat.zero_add _
  obtain ⟨r, m', hloop, _, hresult⟩ := consoleReadLoop_run buf htypes hcount
    (KeysAt.start m) hzero (fun hpos hskip => hfirst hpos hskip.2) (Nat.lt_succ_self _)
  have hmember : lineFeed ∉ lineFrom keys count.toNat 0 := by
    rw [lineFeed_mem_lineFrom]
    simpa using hlate
  have hlength := lineFrom_length_eq hmember
  rw [if_neg hmember, hlength, hzero] at hresult
  obtain ⟨_, hle, typed, hline, hn, _⟩ :=
    hreads _ m.mem _ m' (fdRead_console_eq_ok.mpr ⟨r, hloop, rfl⟩)
  by_cases hwrap : count.toNat + 1 < 2 ^ 32
  · rw [toNat_add_one (by omega)] at hle
    omega
  · have hpos := hline.length_pos (by omega)
    have hnext : (r + 1).toNat = 0 := by
      rw [UInt32.toNat_add]
      change (r.toNat + 1) % 2 ^ 32 = 0
      omega
    omega

/-- A backspace that comes first leaves the first byte of the buffer unwritten. -/
theorem not_readsWhatIsTyped_of_backspace (htypes : Types p m.trace keys)
    (hcount : count.toNat < 2 ^ 32) (hpos : 0 < count.toNat)
    (hskip : (keys 0).toUInt8 = backspace) : ¬ ReadsWhatIsTyped p keys buf count m := by
  intro hreads
  have hkeys : KeysAt m.trace { m with mem := fun _ => backspace } 0 := KeysAt.start m
  have hmore : (0 : UInt32).toUInt64 ≠ count := by
    rintro rfl
    exact absurd hpos (by decide)
  have hpass := consoleReadPass_run_skip buf htypes hkeys hmore ⟨rfl, hskip⟩
  have hleft : ((0 : UInt32) + 1).toNat + (count.toNat - 1) = count.toNat := by
    change 1 + (count.toNat - 1) = count.toNat
    omega
  have hcounts : 0 < count.toNat - 1 →
      ¬ ((0 : UInt32) + 1 = 0 ∧ (keys 1).toUInt8 = backspace) :=
    fun _ hzero => absurd hzero.1 (by decide)
  obtain ⟨r, m', hloop, hmem, _⟩ := consoleReadLoop_run buf htypes hcount
    (hkeys.keyMachine p) hleft hcounts (Nat.lt_succ_self _)
  rw [← loop_run_of_inl hpass] at hloop
  obtain ⟨_, hle, typed, hline, hn, hstored⟩ :=
    hreads _ _ _ m' (fdRead_console_eq_ok.mpr ⟨r, hloop, rfl⟩)
  have hlength := lineFrom_length_le keys (count.toNat - 1) (0 + 1)
  have hkept : m'.mem buf = backspace := by
    rw [hmem, Memory.store_apply_of_outside]
    · rfl
    · intro i hi heq
      change buf = buf + 1 + UInt64.ofNat i at heq
      rw [add_ofNat_succ] at heq
      have hsame : buf + UInt64.ofNat 0 = buf + UInt64.ofNat (i + 1) := by simpa using heq
      have hoffset := (add_ofNat_inj (by omega) (by omega)).mp hsame
      omega
  have hsome := hline.length_pos hpos
  have hhead : m'.mem (buf + UInt64.ofNat 0) = typed[0] := by
    rw [hstored]
    exact Memory.store_apply (by omega) _
  have hbuf : buf + UInt64.ofNat 0 = buf := by simp
  rw [hbuf, hkept] at hhead
  apply hline.head_ne hpos
  rw [List.head?_eq_getElem?, List.getElem?_eq_getElem hsome, hhead]

end Keys

/-- Console input is read exactly when its line begins with a key that counts and is
ended before the buffer is full. -/
theorem readsWhatIsTyped_iff (p : Platform) (m : Machine) (keys : Nat → UInt16)
    (buf : UInt64) {count : UInt64} (htypes : Types p m.trace keys)
    (hcount : count.toNat < 2 ^ 32) :
    ReadsWhatIsTyped p keys buf count m ↔ TypedInTime keys count.toNat := by
  constructor
  · intro hreads
    by_contra htime
    by_cases hskip : 0 < count.toNat ∧ (keys 0).toUInt8 = backspace
    · exact not_readsWhatIsTyped_of_backspace htypes hcount hskip.1 hskip.2 hreads
    · have hfirst : 0 < count.toNat → (keys 0).toUInt8 ≠ backspace :=
        fun hpos hback => hskip ⟨hpos, hback⟩
      refine not_readsWhatIsTyped_of_full htypes hcount hfirst ?_ hreads
      rintro ⟨i, hi, hline⟩
      exact htime ⟨hfirst (by omega), i, hi, hline⟩
  · exact readsWhatIsTyped_of_typedInTime htypes hcount

/-- Firmware at which the given keys are typed. -/
def keyboard (keys : Nat → UInt16) : Platform where
  volume := 0
  reply := fun log _ => { Reply.ofStatus efiSuccess with key := keys (keysRead log) }
  residue := fun _ => ⟨efiSuccess, 0, EfiFileInfo.zero⟩

theorem keyboard_types (keys : Nat → UInt16) : Types (keyboard keys) [] keys :=
  ⟨fun _ => rfl, fun _ => rfl⟩

/-- The keys `h`, `o`, backspace and `e`, and return from then on. -/
def lineKeys (i : Nat) : UInt16 := [104, 111, 8, 101].getD i 13

/-- The five keys of the line are read into eight bytes, but not into four. -/
theorem readsWhatIsTyped_iff_line :
    ReadsWhatIsTyped (keyboard lineKeys) lineKeys 100 8 Machine.blank ∧
      ¬ ReadsWhatIsTyped (keyboard lineKeys) lineKeys 100 4 Machine.blank := by
  have htypes : Types (keyboard lineKeys) Machine.blank.trace lineKeys := keyboard_types lineKeys
  refine ⟨?_, fun hreads => ?_⟩
  · rw [readsWhatIsTyped_iff _ _ lineKeys 100 htypes (by decide)]
    exact ⟨by decide, 4, by decide, by decide⟩
  · rw [readsWhatIsTyped_iff _ _ lineKeys 100 htypes (by decide)] at hreads
    exact absurd hreads.2 (by decide)

/-- The read of one byte with which `_getchar` gets a letter returns two. -/
theorem getchar_returns_two :
    ¬ ∀ (p : Platform) (m : Machine) (keys : Nat → UInt16) (buf count : UInt64),
      Types p m.trace keys → count.toNat < 2 ^ 32 →
        ReadsWhatIsTyped p keys buf count m := by
  intro hall
  have htypes : Types (keyboard fun _ => 97) Machine.blank.trace fun _ => 97 :=
    keyboard_types _
  have hreads := hall (keyboard fun _ => 97) Machine.blank (fun _ => 97) 0 1 htypes
    (by decide)
  exact not_readsWhatIsTyped_of_full htypes (by decide) (by decide) (by decide) hreads

end UefiLinux
