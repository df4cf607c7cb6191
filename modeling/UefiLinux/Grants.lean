/-
What a handler may do: the firmware calls it may make, the memory it may write, and the
memory its behaviour may depend on.  A program that is composed of actions it is granted
keeps to its grant in every run, and cannot tell machines apart that differ in other
memory or in what an earlier path has left in the static buffer.
-/
import UefiLinux.Cells
import UefiLinux.Library.Composed
import UefiLinux.Machine
import Mathlib.Data.Set.Insert

namespace UefiLinux

open Progress Journal

/-- The addresses of so many bytes from a base on. -/
def region (base : UInt64) (size : Nat) : Set UInt64 :=
  { a | ∃ i < size, a = base + UInt64.ofNat i }

theorem mem_region {base a : UInt64} {size : Nat} :
    a ∈ region base size ↔ (a - base).toNat < size := by
  constructor
  · rintro ⟨i, hi, rfl⟩
    rw [UInt64.add_comm, UInt64.add_sub_cancel, UInt64.toNat_ofNat']
    exact Nat.lt_of_le_of_lt (Nat.mod_le i _) hi
  · intro hlt
    refine ⟨(a - base).toNat, hlt, ?_⟩
    rw [UInt64.ofNat_toNat, UInt64.add_comm, UInt64.sub_add_cancel]

instance (base a : UInt64) (size : Nat) : Decidable (a ∈ region base size) :=
  decidable_of_iff _ mem_region.symm

/-- A part of a structure lies in it. -/
theorem region_subset_region {base offset : UInt64} {size whole : Nat}
    (hfits : offset.toNat + size ≤ whole) : region (base + offset) size ⊆ region base whole := by
  rintro a ⟨i, hi, rfl⟩
  exact ⟨offset.toNat + i, by omega, add_add_ofNat base offset i⟩

/-- One part of a structure lies in another. -/
theorem region_subset_part {base first offset : UInt64} {size room : Nat}
    (hfirst : first.toNat ≤ offset.toNat)
    (hfits : offset.toNat + size ≤ first.toNat + room) :
    region (base + offset) size ⊆ region (base + first) room := by
  rintro a ⟨i, hi, rfl⟩
  have hsame : first.toNat + (offset.toNat - first.toNat + i) = offset.toNat + i := by omega
  refine ⟨offset.toNat - first.toNat + i, by omega, ?_⟩
  rw [add_add_ofNat, add_add_ofNat, hsame]

theorem region_mono {base : UInt64} {size whole : Nat} (hfits : size ≤ whole) :
    region base size ⊆ region base whole := by
  rintro a ⟨i, hi, rfl⟩
  exact ⟨i, by omega, rfl⟩

/-- Indexing `fds` outside its bounds. -/
def IndexFault (stop : Stop) : Prop := ∃ index, stop = .fault (.fdsIndex index)

/-- The calls, the memory, and whether the table may be indexed and changed. -/
structure Grant where
  calls : Set Call
  writes : Set UInt64
  reads : Set UInt64
  table : Prop

/-- Machines that agree on the table, the journal and the given memory. -/
structure Machine.AlikeOn (reads : Set UInt64) (m t : Machine) : Prop where
  fds : m.fds = t.fds
  trace : m.trace = t.trace
  mem : ∀ a ∈ reads, m.mem a = t.mem a

theorem Machine.AlikeOn.refl (reads : Set UInt64) (m : Machine) : m.AlikeOn reads m :=
  ⟨rfl, rfl, fun _ _ => rfl⟩

theorem Machine.AlikeOn.trans {reads : Set UInt64} {m t u : Machine}
    (hfirst : m.AlikeOn reads t) (hsecond : t.AlikeOn reads u) : m.AlikeOn reads u :=
  ⟨hfirst.fds.trans hsecond.fds, hfirst.trace.trans hsecond.trace,
    fun a ha => (hfirst.mem a ha).trans (hsecond.mem a ha)⟩

theorem Machine.AlikeOn.symm {reads : Set UInt64} {m t : Machine}
    (halike : m.AlikeOn reads t) : t.AlikeOn reads m :=
  ⟨halike.fds.symm, halike.trace.symm, fun a ha => (halike.mem a ha).symm⟩

/-- The same machine with another static buffer. -/
def Machine.withFres (m : Machine) (fres : Fin 1024 → UInt8) : Machine :=
  { m with fres := fres }

theorem Machine.withFres_alikeOn (reads : Set UInt64) (m : Machine)
    (fres : Fin 1024 → UInt8) : m.AlikeOn reads (m.withFres fres) :=
  ⟨rfl, rfl, fun _ _ => rfl⟩

/-- The actions of a grant. -/
inductive Grant.Basic (p : Platform) (g : Grant) : {α : Type} → M α → Prop
  | call {c : Call} (hcall : c ∈ g.calls) : Basic p g (uefiCallWrapper p c)
  | store {address : UInt64} {bytes : List UInt8}
      (hwrites : region address bytes.length ⊆ g.writes) : Basic p g (storeBytes address bytes)
  | rebind (htable : g.table) (slot : Fin maxFds) (value : Option FileHandle) :
      Basic p g (modify fun m => { m with fds := Function.update m.fds slot value })

/-- Only the firmware may keep control, and only a program with a part in the table may
index it outside its bounds. -/
def Grant.discipline (p : Platform) (g : Grant) : Discipline Stop Machine where
  alike := Machine.AlikeOn g.reads
  basic := Grant.Basic p g
  stops := fun stop => stop ≠ .firmwareKept ∧ (IndexFault stop → g.table)

/-- A program that is composed of actions it is granted. -/
def Granted (p : Platform) (g : Grant) {α : Type} (x : M α) : Prop :=
  Composed (g.discipline p) x

/-- The calls made are granted, and memory outside the grant keeps its bytes. -/
structure Grant.Keeps (g : Grant) (m m' : Machine) : Prop where
  calls : ∃ new, m'.trace = m.trace ++ new ∧ ∀ e ∈ new, e.call ∈ g.calls
  mem : ∀ a ∉ g.writes, m'.mem a = m.mem a

theorem Grant.Keeps.of_eq {g : Grant} {m m' : Machine} (htrace : m'.trace = m.trace)
    (hmem : m'.mem = m.mem) : g.Keeps m m' :=
  ⟨⟨[], by rw [htrace, List.append_nil], fun e he => absurd he List.not_mem_nil⟩,
    fun a _ => by rw [hmem]⟩

instance Grant.keeps_isPreorder (g : Grant) : IsPreorder Machine g.Keeps where
  refl m := .of_eq rfl rfl
  trans := by
    rintro m m' m'' ⟨⟨new, htrace, hnew⟩, hmem⟩ ⟨⟨new', htrace', hnew'⟩, hmem'⟩
    refine ⟨⟨new ++ new', by rw [htrace', htrace, List.append_assoc], ?_⟩, ?_⟩
    · intro e he
      rcases List.mem_append.mp he with he | he
      · exact hnew e he
      · exact hnew' e he
    · intro a ha
      rw [hmem' a ha, hmem a ha]

section Soundness

variable {p : Platform} {g : Grant} {α : Type} {x : M α}

theorem Grant.Basic.along (hx : g.Basic p x) : Along g.Keeps x := by
  cases hx with
  | @call c hcall =>
      intro m
      rw [uefiCallWrapper_finalState]
      refine ⟨⟨[p.answer m c], rfl, ?_⟩, fun a _ => rfl⟩
      intro e he
      rw [List.mem_singleton.mp he]
      exact hcall
  | store hwrites =>
      intro m
      refine ⟨⟨[], (List.append_nil _).symm, fun e he => absurd he List.not_mem_nil⟩, ?_⟩
      intro a ha
      apply Memory.store_apply_of_outside
      rintro i hi rfl
      exact ha (hwrites ⟨i, hi, rfl⟩)
  | rebind _ slot value => exact fun m => .of_eq rfl rfl

/-- Whatever happens, a granted program makes granted calls only and changes granted
memory only. -/
theorem Granted.keeps (hx : Granted p g x) (m : Machine) :
    g.Keeps m (finalState (x.run m)) := by
  have hends : Ends g.Keeps (fun _ => g.Keeps) x := by
    refine Composed.ends ?_ ?_ ?_ hx
    · exact fun hfirst hrest => trans_of g.Keeps hfirst hrest
    · exact fun hbasic => (Grant.Basic.along hbasic).ends
    · exact fun s _ => refl_of g.Keeps s
  exact hends.along m

/-- How a firmware call ends. -/
theorem uefiCallWrapper_run_eq (p : Platform) (call : Call) (m : Machine) :
    (uefiCallWrapper p call).run m =
      if call.mayNotReturn && !(p.answer m call).reply.returns then
        .error .firmwareKept (p.after m call)
      else .ok (p.answer m call).reply (p.after m call) := by
  simp only [uefiCallWrapper, EStateM.run_bind, EStateM.run_get, EStateM.run_modify]
  split <;> rfl

/-- Firmware answers alike machines alike. -/
theorem Machine.AlikeOn.answer {reads : Set UInt64} {m t : Machine}
    (halike : m.AlikeOn reads t) (p : Platform) (call : Call) :
    p.answer m call = p.answer t call := by
  rw [Platform.answer, Platform.answer, halike.trace]

theorem Machine.AlikeOn.after {reads : Set UInt64} {m t : Machine}
    (halike : m.AlikeOn reads t) (p : Platform) (call : Call) :
    (p.after m call).AlikeOn reads (p.after t call) := by
  refine ⟨halike.fds, ?_, halike.mem⟩
  rw [Platform.after_trace, Platform.after_trace, halike.answer p call, halike.trace]

/-- The same bytes stored in alike machines leave them alike. -/
theorem Machine.AlikeOn.store {reads : Set UInt64} {m t : Machine}
    (halike : m.AlikeOn reads t) (address : UInt64) (bytes : List UInt8) :
    Machine.AlikeOn reads { m with mem := m.mem.store address bytes }
      { t with mem := t.mem.store address bytes } := by
  refine ⟨halike.fds, halike.trace, fun a ha => ?_⟩
  rw [Memory.store_eq_patch, Memory.store_eq_patch]
  exact Patches.patch_congr (Or.inl (halike.mem a ha))

theorem Grant.Basic.blind (hx : g.Basic p x) : Blind (Machine.AlikeOn g.reads) x := by
  intro m t halike
  cases hx with
  | @call c hcall =>
      have hafter := halike.after p c
      rw [uefiCallWrapper_run_eq, uefiCallWrapper_run_eq, halike.answer p c]
      split
      · exact .error _ hafter
      · exact .ok _ hafter
  | store hwrites => exact .ok _ (halike.store _ _)
  | rebind _ slot value =>
      refine .ok _ ⟨?_, halike.trace, halike.mem⟩
      change Function.update m.fds slot value = Function.update t.fds slot value
      rw [halike.fds]

/-- A granted program does not tell machines apart that are alike on what it may read. -/
theorem Granted.blind (hx : Granted p g x) : Blind (Machine.AlikeOn g.reads) x :=
  Composed.blind (fun hbasic => Grant.Basic.blind hbasic) hx

end Soundness

end UefiLinux
