/-
The console loops over every length.  Both compare a 32-bit counter with a 64-bit
length; once the counter has wrapped around, the same positions come again.
-/
import UefiLinux.ConsoleBuffer
import UefiLinux.ConsoleInput

namespace UefiLinux

open Progress Words

/-- The exit test of both loops, on a counter that has counted so many passes. -/
theorem counter_eq_iff {it : UInt32} {count : UInt64} {k : Nat}
    (hit : it.toNat = k % 2 ^ 32) : it.toUInt64 = count ↔ k % 2 ^ 32 = count.toNat := by
  rw [← UInt64.toNat_inj, UInt32.toNat_toUInt64, hit]

theorem counter_next {it : UInt32} {k : Nat} (hit : it.toNat = k % 2 ^ 32) :
    (it + 1).toNat = (k + 1) % 2 ^ 32 := by
  have hone : (1 : UInt32).toNat = 1 := rfl
  rw [UInt32.toNat_add, hit, hone]
  omega

/-- A loop whose counter meets the length neither now nor before has not come to it. -/
theorem lt_of_not_met {k count : Nat} (hcount : count < 2 ^ 32)
    (hgo : ∀ j ≤ k, j % 2 ^ 32 ≠ count) : k < count := by
  by_contra hle
  exact hgo count (not_lt.mp hle) (Nat.mod_eq_of_lt hcount)

section Write

variable {p : Platform} {m : Machine} {fd : Int} {buf count : UInt64}

/-- After so many passes the counter has counted them, and it has not met the length. -/
theorem writePasses_spec {k : Nat} {cursor : StrCursor} {m' : Machine}
    (hpasses : Passes (consoleWritePass buf count) ⟨0, 0, []⟩ m k cursor m') :
    m' = m ∧ cursor.it.toNat = k % 2 ^ 32 ∧ ∀ j < k, j % 2 ^ 32 ≠ count.toNat := by
  induction hpasses with
  | none => exact ⟨rfl, rfl, fun j hj => absurd hj (Nat.not_lt_zero j)⟩
  | @snoc k cursor next m' m'' _ hlast ih =>
      obtain ⟨rfl, hit, hgo⟩ := ih
      have hmore : cursor.it.toUInt64 ≠ count := by
        intro hfull
        rw [consoleWritePass_run_full hfull] at hlast
        cases hlast
      rw [consoleWritePass_run_more hmore, EStateM.Result.ok.injEq, Sum.inl.injEq] at hlast
      obtain ⟨rfl, rfl⟩ := hlast
      refine ⟨rfl, ?_, ?_⟩
      · rw [StrCursor.next_it]
        exact counter_next hit
      · intro j hj
        rcases Nat.lt_succ_iff_lt_or_eq.mp hj with hlt | rfl
        · exact hgo j hlt
        · exact fun hmet => hmore ((counter_eq_iff hit).mpr hmet)

variable (m buf) in
/-- While the counter has not met the length the loop makes its passes. -/
theorem exists_writePasses {k : Nat} (hgo : ∀ j < k, j % 2 ^ 32 ≠ count.toNat) :
    ∃ cursor, Passes (consoleWritePass buf count) ⟨0, 0, []⟩ m k cursor m := by
  induction k with
  | zero => exact ⟨_, Passes.none⟩
  | succ k ih =>
      obtain ⟨cursor, hpasses⟩ := ih fun j hj => hgo j (Nat.lt_succ_of_lt hj)
      have hit := (writePasses_spec hpasses).2.1
      have hmore : cursor.it.toUInt64 ≠ count :=
        fun hfull => hgo k (Nat.lt_succ_self k) ((counter_eq_iff hit).mp hfull)
      exact ⟨_, hpasses.snoc (consoleWritePass_run_more hmore)⟩

variable (m buf) in
/-- A budget runs out exactly when the counter meets the length at none of its passes. -/
theorem conversion_outOfFuel_iff (fuel : Nat) :
    (∃ m', (conversion buf count fuel ⟨0, 0, []⟩).run m = .error .outOfFuel m') ↔
      ∀ j < fuel, j % 2 ^ 32 ≠ count.toNat := by
  constructor
  · rintro ⟨m', hrun⟩ j hj hmet
    have hle : count.toNat ≤ j := hmet ▸ Nat.mod_le j _
    have hsmall : count.toNat < 2 ^ 32 := hmet ▸ Nat.mod_lt j (by decide)
    have hgo : ∀ i < count.toNat, i % 2 ^ 32 ≠ count.toNat := fun i hi => by omega
    obtain ⟨cursor, hpasses⟩ := exists_writePasses m buf hgo
    have hend : cursor.it.toUInt64 = count :=
      (counter_eq_iff (writePasses_spec hpasses).2.1).mpr (Nat.mod_eq_of_lt hsmall)
    obtain ⟨left, rfl⟩ := Nat.exists_eq_add_of_lt (hle.trans_lt hj)
    rw [conversion, Nat.add_assoc, hpasses.loop_run,
      loop_run_of_inr (consoleWritePass_run_full hend)] at hrun
    cases hrun
  · intro hgo
    obtain ⟨cursor, hpasses⟩ := exists_writePasses m buf hgo
    have hrun : (conversion buf count (fuel + 0) ⟨0, 0, []⟩).run m =
        (conversion buf count 0 cursor).run m := hpasses.loop_run 0
    rw [Nat.add_zero] at hrun
    exact ⟨m, hrun⟩

/-- The budget of a console write runs out in the conversion only. -/
theorem fdWrite_outOfFuel_iff (hfd : fd = 1 ∨ fd = 2) (fuel : Nat) :
    (∃ m', (fdWrite p fuel fd buf count).run m = .error .outOfFuel m') ↔
      ∀ j < fuel, j % 2 ^ 32 ≠ count.toNat := by
  have hlow : ¬ fd > (maxFds : Int) := by
    simp only [maxFds]
    omega
  rw [← conversion_outOfFuel_iff m buf, fdWrite, fdWriteSized, if_neg hlow,
    if_pos hfd, fdWriteConsole, EStateM.run_bind, ← conversion]
  cases (conversion buf count fuel ⟨0, 0, []⟩).run m with
  | error why m' => simp
  | ok cursor m' =>
      refine iff_of_false ?_ (by simp)
      rintro ⟨m'', hrun⟩
      cases hfind : cursor.allStores.find? fun s => decide (count * 2 ≤ s.1.toUInt64) with
      | some s => simp [hfind] at hrun
      | none =>
          simp only [hfind] at hrun
          rw [reportedCall_run p rfl] at hrun
          cases hrun

variable (p m fd buf count)

/-- The loop of `fd_write` ends within as many passes as there are bytes, and each pass
reads the byte of its own index. -/
def ConsoleWriteEnds : Prop :=
  (∀ m', (fdWrite p (count.toNat + 1) fd buf count).run m ≠ .error .outOfFuel m') ∧
    ∀ k cursor m', Passes (consoleWritePass buf count) ⟨0, 0, []⟩ m k cursor m' →
      cursor.it.toUInt64 ≠ count → k < count.toNat ∧ cursor.it.toNat = k

variable {p m fd buf count}

theorem consoleWriteEnds_iff (hfd : fd = 1 ∨ fd = 2) :
    ConsoleWriteEnds p m fd buf count ↔ count.toNat < 2 ^ 32 := by
  have hends : (∃ m', (fdWrite p (count.toNat + 1) fd buf count).run m = .error .outOfFuel m') ↔
      ∀ j < count.toNat + 1, j % 2 ^ 32 ≠ count.toNat := fdWrite_outOfFuel_iff hfd _
  constructor
  · rintro ⟨hloop, _⟩
    by_contra hbig
    obtain ⟨m', hrun⟩ := hends.mpr fun j _ => by omega
    exact hloop m' hrun
  · intro hcount
    refine ⟨fun m' hrun => ?_, fun k cursor m' hpasses hmore => ?_⟩
    · exact hends.mp ⟨m', hrun⟩ count.toNat (Nat.lt_succ_self _) (Nat.mod_eq_of_lt hcount)
    · obtain ⟨_, hit, hgo⟩ := writePasses_spec hpasses
      have hlt : k < count.toNat := by
        refine lt_of_not_met hcount fun j hj => ?_
        rcases Nat.lt_or_eq_of_le hj with hlt | rfl
        · exact hgo j hlt
        · exact fun hmet => hmore ((counter_eq_iff hit).mpr hmet)
      exact ⟨hlt, by omega⟩

end Write

section Read

variable {p : Platform} {keys : Nat → UInt16} {m : Machine} {buf count : UInt64}

variable (buf) in
/-- A pass that is made goes on to the next unless its key is a newline. -/
theorem consoleReadPass_run_go {base : List Event} {it : UInt32} {k : Nat}
    (htypes : Types p base keys) (hkeys : KeysAt base m k) (hmore : it.toUInt64 ≠ count) :
    ∃ m', (consoleReadPass p buf count it).run m =
        .ok (if keyByte (keys k) = lineFeed then .inr it else .inl (it + 1)) m' ∧
      KeysAt base m' (k + 1) := by
  by_cases hskip : it = 0 ∧ (keys k).toUInt8 = backspace
  · have hkey : keyByte (keys k) ≠ lineFeed := by
      rw [keyByte, hskip.2]
      decide
    rw [if_neg hkey]
    exact ⟨_, consoleReadPass_run_skip buf htypes hkeys hmore hskip, hkeys.keyMachine p⟩
  · obtain ⟨m', hrun, hkeys', _⟩ := consoleReadPass_run_key htypes hkeys hmore hskip
    exact ⟨m', hrun, hkeys'⟩

/-- Nothing has ended the loop of `fd_read` before the pass of the given index. -/
def ReadGoes (keys : Nat → UInt16) (count : UInt64) (k : Nat) : Prop :=
  ∀ i < k, i % 2 ^ 32 ≠ count.toNat ∧ keyByte (keys i) ≠ lineFeed

/-- After so many passes the counter has counted them, and nothing has ended the loop. -/
theorem passes_spec (htypes : Types p m.trace keys) {k : Nat} {it : UInt32} {m' : Machine}
    (hpasses : Passes (consoleReadPass p buf count) 0 m k it m') :
    KeysAt m.trace m' k ∧ it.toNat = k % 2 ^ 32 ∧ ReadGoes keys count k := by
  induction hpasses with
  | none => exact ⟨KeysAt.start m, rfl, fun i hi => absurd hi (Nat.not_lt_zero i)⟩
  | @snoc k it it' m' m'' _ hlast ih =>
      obtain ⟨hkeys, hit, hgoes⟩ := ih
      have hmore : it.toUInt64 ≠ count := by
        intro hfull
        rw [consoleReadPass_run_full hfull] at hlast
        cases hlast
      obtain ⟨m₁, hrun, hkeys₁⟩ := consoleReadPass_run_go buf htypes hkeys hmore
      rw [hlast, EStateM.Result.ok.injEq] at hrun
      obtain ⟨hnext, rfl⟩ := hrun
      by_cases hline : keyByte (keys k) = lineFeed
      · rw [if_pos hline] at hnext
        cases hnext
      · rw [if_neg hline, Sum.inl.injEq] at hnext
        refine ⟨hkeys₁, hnext ▸ counter_next hit, ?_⟩
        intro i hi
        rcases Nat.lt_succ_iff_lt_or_eq.mp hi with hlt | rfl
        · exact hgoes i hlt
        · exact ⟨fun hmet => hmore ((counter_eq_iff hit).mpr hmet), hline⟩

variable (buf) in
/-- While nothing ends the loop it makes its passes. -/
theorem exists_passes (htypes : Types p m.trace keys) {k : Nat}
    (hgoes : ReadGoes keys count k) :
    ∃ it m', Passes (consoleReadPass p buf count) 0 m k it m' := by
  induction k with
  | zero => exact ⟨0, m, Passes.none⟩
  | succ k ih =>
      obtain ⟨it, m₁, hpasses⟩ := ih fun i hi => hgoes i (Nat.lt_succ_of_lt hi)
      obtain ⟨hkeys, hit, _⟩ := passes_spec htypes hpasses
      obtain ⟨hmore, hline⟩ := hgoes k (Nat.lt_succ_self k)
      obtain ⟨m₂, hrun, _⟩ := consoleReadPass_run_go buf htypes hkeys
        (fun hfull => hmore ((counter_eq_iff hit).mp hfull))
      rw [if_neg hline] at hrun
      exact ⟨it + 1, m₂, hpasses.snoc hrun⟩

/-- The full buffer or a newline that ends the loop at the pass of the given index. -/
def ReadEnds (keys : Nat → UInt16) (count : UInt64) (k : Nat) : Prop :=
  k % 2 ^ 32 = count.toNat ∨ keyByte (keys k) = lineFeed

/-- The loop has made its passes, or has ended at one of them. -/
theorem readGoes_or_readEnds (keys : Nat → UInt16) (count : UInt64) (k : Nat) :
    ReadGoes keys count k ∨ ∃ j < k, ReadGoes keys count j ∧ ReadEnds keys count j := by
  induction k with
  | zero => exact Or.inl fun i hi => absurd hi (Nat.not_lt_zero i)
  | succ k ih =>
      rcases ih with hgoes | ⟨j, hj, hends⟩
      · by_cases hend : ReadEnds keys count k
        · exact Or.inr ⟨k, Nat.lt_succ_self k, hgoes, hend⟩
        · refine Or.inl fun i hi => ?_
          rcases Nat.lt_succ_iff_lt_or_eq.mp hi with hlt | rfl
          · exact hgoes i hlt
          · exact not_or.mp hend
      · exact Or.inr ⟨j, Nat.lt_succ_of_lt hj, hends⟩

/-- A loop that ends at a pass returns within one pass more. -/
theorem fdRead_returns_of_readEnds (htypes : Types p m.trace keys) {k : Nat}
    (hgoes : ReadGoes keys count k) (hends : ReadEnds keys count k) (fuel : Nat) :
    ∃ v m', (fdRead p (k + (fuel + 1)) 0 buf count).run m = .ok v m' := by
  obtain ⟨it, m₁, hpasses⟩ := exists_passes buf htypes hgoes
  obtain ⟨hkeys, hit, _⟩ := passes_spec htypes hpasses
  have hlast : ∃ m', (consoleReadPass p buf count it).run m₁ = .ok (.inr it) m' := by
    by_cases hfull : it.toUInt64 = count
    · exact ⟨m₁, consoleReadPass_run_full hfull⟩
    · have hline : keyByte (keys k) = lineFeed :=
        hends.resolve_left fun hmet => hfull ((counter_eq_iff hit).mpr hmet)
      obtain ⟨m₂, hrun, _⟩ := consoleReadPass_run_go buf htypes hkeys hfull
      rw [if_pos hline] at hrun
      exact ⟨m₂, hrun⟩
  obtain ⟨m₂, hrun⟩ := hlast
  refine ⟨_, m₂, fdRead_console_eq_ok.mpr ⟨it, ?_, rfl⟩⟩
  rw [hpasses.loop_run, loop_run_of_inr hrun]

variable (p m buf count) in
/-- The loop of `fd_read` returns, makes at most as many passes as the buffer has bytes,
and each pass has the position of its own index. -/
def ConsoleReadEnds : Prop :=
  (∃ v m', (fdRead p (count.toNat + 1) 0 buf count).run m = .ok v m') ∧
    ∀ k it m', Passes (consoleReadPass p buf count) 0 m k it m' → it.toUInt64 ≠ count →
      k < count.toNat ∧ it.toNat = k

/-- The counter can reach the length, or a newline comes before it wraps around. -/
def EndsBeforeWrap (keys : Nat → UInt16) (count : UInt64) : Prop :=
  count.toNat < 2 ^ 32 ∨ ∃ i < 2 ^ 32, keyByte (keys i) = lineFeed

/-- A loop that has made its passes has made fewer than it has positions. -/
theorem EndsBeforeWrap.lt_of_goes {k : Nat} (hwrap : EndsBeforeWrap keys count)
    (hgoes : ReadGoes keys count k) (hmore : k % 2 ^ 32 ≠ count.toNat) :
    k < count.toNat ∧ k < 2 ^ 32 := by
  by_cases hcount : count.toNat < 2 ^ 32
  · have hlt : k < count.toNat := by
      refine lt_of_not_met hcount fun j hj => ?_
      rcases Nat.lt_or_eq_of_le hj with hlt | rfl
      · exact (hgoes j hlt).1
      · exact hmore
    exact ⟨hlt, hlt.trans hcount⟩
  · obtain ⟨i, hi, hline⟩ := hwrap.resolve_left hcount
    have hle : k ≤ i := not_lt.mp fun hlt => (hgoes i hlt).2 hline
    omega

theorem consoleReadEnds_of_endsBeforeWrap (htypes : Types p m.trace keys)
    (hwrap : EndsBeforeWrap keys count) : ConsoleReadEnds p m buf count := by
  constructor
  · obtain hgoes | ⟨k, hk, hgoes, hends⟩ := readGoes_or_readEnds keys count (count.toNat + 1)
    · have hmore : (count.toNat + 1) % 2 ^ 32 ≠ count.toNat := by omega
      have hlt := (hwrap.lt_of_goes hgoes hmore).1
      omega
    · obtain ⟨left, hleft⟩ := Nat.exists_eq_add_of_le (Nat.le_of_lt_succ hk)
      rw [hleft, Nat.add_assoc]
      exact fdRead_returns_of_readEnds htypes hgoes hends left
  · intro k it m' hpasses hmore
    obtain ⟨_, hit, hgoes⟩ := passes_spec htypes hpasses
    obtain ⟨hlt, hsmall⟩ := hwrap.lt_of_goes hgoes
      (fun hmet => hmore ((counter_eq_iff hit).mpr hmet))
    exact ⟨hlt, by omega⟩

/-- Without a newline the pass after the last one before the counter wraps around has
position zero again. -/
theorem not_consoleReadEnds_of_wrap (htypes : Types p m.trace keys)
    (hwrap : ¬ EndsBeforeWrap keys count) : ¬ ConsoleReadEnds p m buf count := by
  rintro ⟨_, hpositions⟩
  obtain ⟨hcount, hlines⟩ := not_or.mp hwrap
  have hgoes : ReadGoes keys count (2 ^ 32) :=
    fun i hi => ⟨by omega, fun hline => hlines ⟨i, hi, hline⟩⟩
  obtain ⟨it, m', hpasses⟩ := exists_passes buf htypes hgoes
  obtain ⟨_, hit, _⟩ := passes_spec htypes hpasses
  have hmore : it.toUInt64 ≠ count := by
    rw [ne_eq, counter_eq_iff hit]
    omega
  have hposition := (hpositions _ it m' hpasses hmore).2
  omega

end Read

/-- Console writes end in order exactly for lengths of fewer than 2^32 bytes, and from that
length on they run out of every budget; console reads end in order for these lengths, and
whenever a newline is among the first 2^32 keys. -/
theorem console_loops_end_iff (p : Platform) (m : Machine) (keys : Nat → UInt16)
    (buf count : UInt64) {fd : Int} (hfd : fd = 1 ∨ fd = 2)
    (htypes : Types p m.trace keys) :
    (ConsoleWriteEnds p m fd buf count ↔ count.toNat < 2 ^ 32) ∧
      (2 ^ 32 ≤ count.toNat →
        ∀ fuel, ∃ m', (fdWrite p fuel fd buf count).run m = .error .outOfFuel m') ∧
      (ConsoleReadEnds p m buf count ↔
        count.toNat < 2 ^ 32 ∨ ∃ i < 2 ^ 32, keyByte (keys i) = lineFeed) := by
  refine ⟨consoleWriteEnds_iff hfd, fun hbig fuel => ?_, ?_,
    consoleReadEnds_of_endsBeforeWrap htypes⟩
  · exact (fdWrite_outOfFuel_iff hfd fuel).mpr fun j _ => by omega
  · intro hends
    by_contra hwrap
    exact not_consoleReadEnds_of_wrap htypes hwrap hends

/-- The letters typed without end into a buffer of four bytes, and a write of 2^32 -/
theorem console_loops_end_iff_four :
    (ConsoleWriteEnds (keyboard fun _ => 97) Machine.blank 1 0 4 ∧
        ConsoleReadEnds (keyboard fun _ => 97) Machine.blank 0 4) ∧
      ∀ fuel, ∃ m', (fdWrite (keyboard fun _ => 97) fuel 1 0 0x100000000).run Machine.blank =
        .error .outOfFuel m' := by
  have hconsole : (1 : Int) = 1 ∨ (1 : Int) = 2 := Or.inl rfl
  have hfour := console_loops_end_iff (keyboard fun _ => 97) Machine.blank (fun _ => 97) 0 4
    hconsole (keyboard_types _)
  have hbig := console_loops_end_iff (keyboard fun _ => 97) Machine.blank (fun _ => 97) 0
    0x100000000 hconsole (keyboard_types _)
  exact ⟨⟨hfour.1.mpr (by decide), hfour.2.2.mpr (Or.inl (by decide))⟩, hbig.2.1 (by decide)⟩

/-- For 2^32 bytes a write never ends, and the letters that are read come back to the
first position. -/
theorem counter_wraps_around :
    ¬ ConsoleWriteEnds (keyboard fun _ => 97) Machine.blank 1 0 0x100000000 ∧
      ¬ ConsoleReadEnds (keyboard fun _ => 97) Machine.blank 0 0x100000000 := by
  constructor
  · rw [consoleWriteEnds_iff (Or.inl rfl)]
    decide
  · refine not_consoleReadEnds_of_wrap (keyboard_types _) ?_
    rintro (hlt | ⟨i, _, hline⟩)
    · exact absurd hlt (by decide)
    · have hletter : keyByte 97 ≠ lineFeed := by decide
      exact hletter hline

end UefiLinux
