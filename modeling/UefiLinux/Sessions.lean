/-
Sessions of a program: it stores to memory and makes system calls, in any order.  Over a
whole session the layer keeps to the footprints of the calls.
-/
import UefiLinux.Footprints
import UefiLinux.Library.Runs

namespace UefiLinux

open Progress Journal Patches

section Calls

/-- The firmware calls that a system call can make in a machine. -/
def SysCall.calls (c : SysCall) (m : Machine) : Set Call :=
  match dispatch c.no c.args with
  | .ok r => r.calls m
  | .error _ => ∅

/-- The memory that a system call can store to. -/
def SysCall.writes (c : SysCall) : Set UInt64 :=
  match dispatch c.no c.args with
  | .ok r => r.writes
  | .error _ => ∅

/-- The memory that the course of a system call can depend on. -/
def SysCall.reads (c : SysCall) (m : Machine) : Set UInt64 :=
  match dispatch c.no c.args with
  | .ok r => r.reads m
  | .error _ => ∅

variable {p : Platform} {g : Grant} {m : Machine} {c : SysCall}

theorem SysCall.grantedFrom (htable : g.table) (hdata : p.ReadsBounded ∨ g.writes = Set.univ)
    (fuel : Nat) (hcalls : c.calls m ⊆ g.calls) (hwrites : c.writes ⊆ g.writes)
    (hreads : c.reads m ⊆ g.reads) :
    GrantedFrom p g m (syscallEmuX86_64 p fuel c.no c.args) := by
  rw [SysCall.calls] at hcalls
  rw [SysCall.writes] at hwrites
  rw [SysCall.reads] at hreads
  rw [syscallEmuX86_64]
  cases hdispatch : dispatch c.no c.args with
  | ok r =>
      rw [hdispatch] at hcalls hwrites hreads
      exact r.grantedFrom htable hdata fuel hcalls hwrites hreads
  | error why => exact Granted.fromMachine (.throw ⟨by simp, fun _ => htable⟩)

/-- However a call ends, it keeps to its footprint. -/
theorem SysCall.Ends.keeps {result : EStateM.Result Stop Machine UInt64}
    (hbounded : p.ReadsBounded) (hends : c.Ends p m result) :
    Grant.Keeps ⟨c.calls m, c.writes, c.reads m, True⟩ m (finalState result) := by
  obtain ⟨fuel, rfl⟩ := hends
  exact (SysCall.grantedFrom trivial (Or.inl hbounded) fuel (Set.Subset.refl _) (Set.Subset.refl _)
    (Set.Subset.refl _)).keeps

/-- The calls of a footprint, on any firmware. -/
theorem SysCall.Ends.calls {result : EStateM.Result Stop Machine UInt64}
    (hends : c.Ends p m result) :
    ∃ new, (finalState result).trace = m.trace ++ new ∧ ∀ e ∈ new, e.call ∈ c.calls m := by
  obtain ⟨fuel, rfl⟩ := hends
  exact (SysCall.grantedFrom (g := ⟨c.calls m, Set.univ, Set.univ, True⟩) trivial (Or.inr rfl)
    fuel (Set.Subset.refl _) (Set.subset_univ _) (Set.subset_univ _)).keeps.calls

end Calls

/-- What a program does: a store of its own, or a system call and the word it gets. -/
inductive Action
  | store (address : UInt64) (bytes : List UInt8)
  | call (c : SysCall) (word : UInt64)

/-- The machine an action leads to. -/
inductive Action.Does (p : Platform) : Action → Machine → Machine → Prop
  | store (address : UInt64) (bytes : List UInt8) (m : Machine) :
      Does p (.store address bytes) m { m with mem := m.mem.store address bytes }
  | call {c : SysCall} {word : UInt64} {m m' : Machine} (hends : c.Ends p m (.ok word m')) :
      Does p (.call c word) m m'

/-- A session: the actions of a program whose system calls so far have all returned. -/
abbrev Session (p : Platform) : Machine → List Action → Machine → Prop :=
  Run (Action.Does p)

def Action.writes : Action → Set UInt64
  | .store address bytes => region address bytes.length
  | .call c _ => c.writes

def Action.calls (m : Machine) : Action → Set Call
  | .store _ _ => ∅
  | .call c _ => c.calls m

def Action.reads (m : Machine) : Action → Set UInt64
  | .store _ _ => ∅
  | .call c _ => c.reads m

section Footprint

variable {p : Platform} {m m' : Machine} {act : Action} {acts : List Action}

theorem Action.Does.keeps (hbounded : p.ReadsBounded) (hdoes : act.Does p m m') :
    Grant.Keeps ⟨act.calls m, act.writes, act.reads m, True⟩ m m' := by
  cases hdoes with
  | store address bytes m =>
      refine ⟨⟨[], (List.append_nil _).symm, fun e he => absurd he List.not_mem_nil⟩, ?_⟩
      intro a ha
      apply Memory.store_apply_of_outside
      rintro i hi rfl
      exact ha ⟨i, hi, rfl⟩
  | call hends => exact hends.keeps hbounded

/-- An action and the events that it has itself added to the journal. -/
structure Action.Makes (p : Platform) (cut : Action × List Event) (m m' : Machine) : Prop where
  does : cut.1.Does p m m'
  trace : m'.trace = m.trace ++ cut.2

/-- An action that has kept to its footprint, and the events that it has added. -/
structure Action.KeepsTo (p : Platform) (cut : Action × List Event) (m m' : Machine) : Prop
    extends Action.Makes p cut m m' where
  calls : ∀ e ∈ cut.2, e.call ∈ cut.1.calls m
  mem : ∀ a ∉ cut.1.writes, m'.mem a = m.mem a

theorem Action.Does.exists_keepsTo (hbounded : p.ReadsBounded) (hdoes : act.Does p m m') :
    ∃ cut, cut.1 = act ∧ Action.KeepsTo p cut m m' := by
  obtain ⟨⟨new, htrace, hnew⟩, hmem⟩ := Action.Does.keeps hbounded hdoes
  exact ⟨(act, new), rfl, ⟨hdoes, htrace⟩, hnew, hmem⟩

/-- Memory that no action writes to keeps its bytes. -/
theorem Session.mem_of_not_written (hbounded : p.ReadsBounded) (hsession : Session p m acts m')
    {a : UInt64} (ha : ∀ act ∈ acts, a ∉ act.writes) : m'.mem a = m.mem a := by
  induction hsession with
  | nil => rfl
  | @snoc s s' acts act _ hlast ih =>
      rw [(Action.Does.keeps hbounded hlast).mem a (ha act (by simp))]
      exact ih fun act hact => ha act (List.mem_append_left _ hact)

/-- Whatever a program does, and however its last call ends: memory that neither the
program nor the footprint of a call writes to keeps its bytes; and the journal falls into
parts, one for each action and one for the last call, such that each action and the last
call have added their own part, asked for in it nothing but what they may ask for where
they were made, and written nothing but what they may write. -/
theorem session_keeps_footprints {c : SysCall} {result : EStateM.Result Stop Machine UInt64}
    (hbounded : p.ReadsBounded) (hsession : Session p m acts m') (hends : c.Ends p m' result) :
    (∀ a ∉ c.writes, (∀ act ∈ acts, a ∉ act.writes) →
      (finalState result).mem a = m.mem a) ∧
    ∃ (cuts : List (Action × List Event)) (last : List Event), cuts.map Prod.fst = acts ∧
      Run (Action.KeepsTo p) m cuts m' ∧
      (finalState result).trace = m.trace ++ cuts.flatMap Prod.snd ++ last ∧
      (∀ e ∈ last, e.call ∈ c.calls m') ∧
      ∀ a ∉ c.writes, (finalState result).mem a = m'.mem a := by
  have hlast := hends.keeps hbounded
  refine ⟨fun a ha hacts => ?_, ?_⟩
  · rw [hlast.mem a ha]
    exact hsession.mem_of_not_written hbounded hacts
  · obtain ⟨cuts, hacts, hcuts⟩ := hsession.relabel Prod.fst fun act s s' hdoes =>
      Action.Does.exists_keepsTo hbounded hdoes
    obtain ⟨last, htrace, hcalls⟩ := hlast.calls
    refine ⟨cuts, last, hacts, hcuts, ?_, hcalls, hlast.mem⟩
    rw [htrace, hcuts.log_eq Machine.trace Prod.snd fun cut s s' hkeeps => hkeeps.trace]

theorem workingFirmware_readsBounded : workingFirmware.ReadsBounded :=
  fun _ _ _ => Nat.zero_le _

/-- A byte stored at 100 and the clock stored at 200 leave the byte at 50. -/
theorem session_keeps_footprints_clock :
    ∃ m' result, Session workingFirmware Machine.blank ([] ++ [.store 100 [1]]) m' ∧
      SysCall.Ends workingFirmware ⟨96, [200]⟩ m' result ∧ (finalState result).mem 50 = 0 := by
  have hstore : Session workingFirmware Machine.blank ([] ++ [.store 100 [1]]) _ :=
    (Run.nil _).snoc (.store 100 [1] Machine.blank)
  have hclock : (50 : UInt64) ∉ SysCall.writes ⟨96, [200]⟩ := by
    change (50 : UInt64) ∉ region 200 16
    decide
  have hbyte : (50 : UInt64) ∉ (Action.store 100 [1]).writes := by
    change (50 : UInt64) ∉ region 100 1
    decide
  refine ⟨_, _, hstore, ⟨0, rfl⟩, (session_keeps_footprints workingFirmware_readsBounded hstore
    ⟨0, rfl⟩).1 50 hclock fun act hact => ?_⟩
  rw [List.mem_singleton.mp hact]
  exact hbyte

end Footprint

end UefiLinux
