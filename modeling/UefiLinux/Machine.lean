/-
The state the handlers work on: the descriptor table, the static path buffer, the
memory of the caller and the journal of firmware calls.
-/
import UefiLinux.Firmware
import UefiLinux.Library.Journal
import UefiLinux.Library.Ledger
import UefiLinux.Library.Slots

namespace UefiLinux

open Progress Journal

/-- Undefined behaviour that the handlers can run into. -/
inductive Fault
  | fdsIndex (index : Int)
  | argsIndex (index : Nat)
  | fresIndex (index : Nat)
  | strBufIndex (index : UInt32)
  | fileNameEnd
deriving DecidableEq, Repr

/-- Why a handler did not return: the firmware kept control, the source spins
forever, the loop budget ran out, or the behaviour is undefined. -/
inductive Stop
  | firmwareKept
  | spins
  | outOfFuel
  | fault (why : Fault)
deriving DecidableEq, Repr

abbrev Memory := UInt64 → UInt8

def Memory.store (mem : Memory) (address : UInt64) : List UInt8 → Memory
  | [] => mem
  | byte :: rest => Memory.store (Function.update mem address byte) (address + 1) rest

def Memory.bytes (mem : Memory) (address : UInt64) (count : Nat) : List UInt8 :=
  (List.range count).map fun i => mem (address + UInt64.ofNat i)

/-- The little-endian bytes of a value in `width` bytes. -/
def littleEndian : (width : Nat) → Nat → List UInt8
  | 0, _ => []
  | width + 1, value => UInt8.ofNat value :: littleEndian width (value / 256)

/-- The value of bytes read in little-endian order. -/
def ofLittleEndian : List UInt8 → Nat
  | [] => 0
  | byte :: rest => byte.toNat + 256 * ofLittleEndian rest

def Memory.load64 (mem : Memory) (address : UInt64) : UInt64 :=
  UInt64.ofNat (ofLittleEndian (mem.bytes address 8))

def maxFds : Nat := 16

instance : NeZero maxFds := ⟨by decide⟩

/-- `fres` is the static buffer of `bstr_to_wstr`. -/
structure Machine where
  fds : Slots maxFds FileHandle
  fres : Fin 1024 → UInt8
  mem : Memory
  trace : List Event

/-- A handler: it returns a value or stops, and leaves a machine either way. -/
abbrev M := EStateM Stop Machine

/-- The journal of firmware calls; quiet programs keep the descriptor table. -/
def calls : View Machine Event (Slots maxFds FileHandle) where
  log := Machine.trace
  core := Machine.fds

/-- Add a firmware call to the journal. -/
def Machine.record (m : Machine) (e : Event) : Machine :=
  { m with trace := m.trace ++ [e] }

@[simp] theorem Machine.record_fds (m : Machine) (e : Event) :
    (m.record e).fds = m.fds := rfl

@[simp] theorem Machine.record_trace (m : Machine) (e : Event) :
    (m.record e).trace = m.trace ++ [e] := rfl

@[simp] theorem Machine.record_mem (m : Machine) (e : Event) :
    (m.record e).mem = m.mem := rfl

section Calls

variable (p : Platform)

/-- The firmware's answer to a call made in a machine. -/
def Platform.answer (m : Machine) (call : Call) : Event :=
  ⟨call, p.reply m.trace call⟩

@[simp] theorem Platform.answer_call (m : Machine) (call : Call) :
    (p.answer m call).call = call := rfl

/-- Make a firmware call and record it with its reply. -/
def uefiCallWrapper (call : Call) : M Reply := do
  let e := p.answer (← get) call
  modify fun m => m.record e
  if call.mayNotReturn && !e.reply.returns then throw .firmwareKept
  return e.reply

/-- The machine after a firmware call. -/
def Platform.after (m : Machine) (call : Call) : Machine :=
  m.record (p.answer m call)

@[simp] theorem Platform.after_fds (m : Machine) (call : Call) :
    (p.after m call).fds = m.fds := rfl

@[simp] theorem Platform.after_trace (m : Machine) (call : Call) :
    (p.after m call).trace = m.trace ++ [p.answer m call] := rfl

@[simp] theorem Platform.after_mem (m : Machine) (call : Call) :
    (p.after m call).mem = m.mem := rfl

/-- A call that always comes back gives the firmware's reply. -/
theorem uefiCallWrapper_run {call : Call} (hback : call.mayNotReturn = false)
    (m : Machine) :
    (uefiCallWrapper p call).run m =
      .ok (p.answer m call).reply (p.after m call) := by
  simp only [uefiCallWrapper, EStateM.run_bind, EStateM.run_get,
    EStateM.run_modify, hback, Bool.false_and, Bool.false_eq_true, ↓reduceIte,
    EStateM.run_pure]
  rfl

/-- A call that came back gives the firmware's reply. -/
theorem uefiCallWrapper_run_of_returns {call : Call} {m : Machine}
    (hreturns : (p.answer m call).reply.returns = true) :
    (uefiCallWrapper p call).run m =
      .ok (p.answer m call).reply (p.after m call) := by
  simp only [uefiCallWrapper, EStateM.run_bind, EStateM.run_get,
    EStateM.run_modify, hreturns, Bool.not_true, Bool.and_false, Bool.false_eq_true,
    ↓reduceIte, EStateM.run_pure]
  rfl

/-- Every call ends with its own answer recorded, whether it comes back or not. -/
theorem uefiCallWrapper_finalState (call : Call) (m : Machine) :
    finalState ((uefiCallWrapper p call).run m) = p.after m call := by
  simp only [uefiCallWrapper, EStateM.run_bind, EStateM.run_get,
    EStateM.run_modify]
  split <;> rfl

/-- A call that came back gave the firmware's reply. -/
theorem uefiCallWrapper_eq_ok {call : Call} {m m' : Machine} {r : Reply}
    (hrun : (uefiCallWrapper p call).run m = .ok r m') :
    r = (p.answer m call).reply ∧ m' = p.after m call := by
  have hfinal := uefiCallWrapper_finalState p call m
  rw [hrun, finalState_ok] at hfinal
  refine ⟨?_, hfinal⟩
  simp only [uefiCallWrapper, EStateM.run_bind, EStateM.run_get,
    EStateM.run_modify] at hrun
  split at hrun
  · cases hrun
  · simp only [EStateM.run_pure, EStateM.Result.ok.injEq] at hrun
    exact hrun.1.symm

/-- A call that did not come back left the firmware in control. -/
theorem uefiCallWrapper_eq_error {call : Call} {m m' : Machine} {stop : Stop}
    (hrun : (uefiCallWrapper p call).run m = .error stop m') :
    stop = .firmwareKept := by
  simp only [uefiCallWrapper, EStateM.run_bind, EStateM.run_get,
    EStateM.run_modify] at hrun
  split at hrun
  · simp only [EStateM.run_bind, run_throw, EStateM.Result.error.injEq] at hrun
    exact hrun.1.symm
  · cases hrun

/-- A call whose error status is returned negated and whose success gives `v`. -/
theorem reportedCall_run {call : Call} (hback : call.mayNotReturn = false)
    (v : Int) (m : Machine) :
    (do
      let r ← uefiCallWrapper p call
      if efiError r.status then return failure r.status
      return v : M Int).run m =
      .ok (if efiError (p.answer m call).reply.status then
          failure (p.answer m call).reply.status
        else v) (p.after m call) := by
  rw [EStateM.run_bind, uefiCallWrapper_run p hback]
  simp only
  split <;> rfl

end Calls

/-- A slot index of `fds`; indexing outside the array is undefined. -/
def fdsSlot (index : Int) : M (Fin maxFds) :=
  if h : 0 ≤ index ∧ index < maxFds then
    pure ⟨index.toNat, by omega⟩
  else throw (.fault (.fdsIndex index))

def fdsRead (index : Int) : M (Option FileHandle) := do
  let slot ← fdsSlot index
  return (← get).fds slot

def fdsWrite (index : Int) (value : Option FileHandle) : M Unit := do
  let slot ← fdsSlot index
  modify fun m => { m with fds := Function.update m.fds slot value }

def storeBytes (address : UInt64) (bytes : List UInt8) : M Unit :=
  modify fun m => { m with mem := m.mem.store address bytes }

@[simp] theorem storeBytes_run (address : UInt64) (bytes : List UInt8) (m : Machine) :
    (storeBytes address bytes).run m =
      .ok ⟨⟩ { m with mem := m.mem.store address bytes } := rfl

theorem fdsSlot_of_slot (slot : Fin maxFds) :
    fdsSlot (slot : Int) = pure slot := by
  have hbound : (0 : Int) ≤ (slot : Int) ∧ (slot : Int) < maxFds := by omega
  rw [fdsSlot, dif_pos hbound]
  rfl

theorem fdsSlot_of_not_slot {index : Int} (h : ¬ (0 ≤ index ∧ index < maxFds)) :
    fdsSlot index = throw (.fault (.fdsIndex index)) :=
  dif_neg h

/-- A machine with nothing open and all its memory zero. -/
def Machine.blank : Machine where
  fds := Slots.empty
  fres := fun _ => 0
  mem := fun _ => 0
  trace := []

end UefiLinux
