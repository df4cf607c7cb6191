/-
Resource ledgers.  Entries of a journal acquire, release and use resources; the
ledger says which resources are live after a journal and whether every use was of
a live one.
-/
import Mathlib.Data.Set.Insert
import UefiLinux.Library.Runs

universe u v w

/-- What one journal entry acquires, releases and uses. -/
structure Ledger (E : Type u) (H : Type v) where
  acquired : E → Option H
  released : E → Option H
  used : E → Option H

namespace Ledger

variable {E : Type u} {H : Type v}

/-- The live resources after one entry. -/
def step (L : Ledger E H) (live : Set H) (e : E) : Set H :=
  { h | (h ∈ live ∨ L.acquired e = some h) ∧ L.released e ≠ some h }

/-- The live resources after a journal. -/
def live (L : Ledger E H) (start : Set H) (log : List E) : Set H :=
  log.foldl L.step start

/-- Every entry of the journal uses a resource that is live at that point. -/
def Disciplined (L : Ledger E H) : Set H → List E → Prop
  | _, [] => True
  | start, e :: rest =>
      (∀ h, L.used e = some h → h ∈ start) ∧ L.Disciplined (L.step start e) rest

/-- An entry that neither acquires nor releases. -/
def Neutral (L : Ledger E H) (e : E) : Prop :=
  L.acquired e = none ∧ L.released e = none

variable (L : Ledger E H)

@[simp] theorem live_nil (start : Set H) : L.live start [] = start := rfl

@[simp] theorem live_cons (start : Set H) (e : E) (rest : List E) :
    L.live start (e :: rest) = L.live (L.step start e) rest := rfl

@[simp] theorem live_append (start : Set H) (first second : List E) :
    L.live start (first ++ second) = L.live (L.live start first) second :=
  List.foldl_append

theorem disciplined_append (start : Set H) (first second : List E) :
    L.Disciplined start (first ++ second) ↔
      L.Disciplined start first ∧ L.Disciplined (L.live start first) second := by
  induction first generalizing start with
  | nil => simp [Disciplined]
  | cons e rest ih =>
      simp only [List.cons_append, Disciplined, live_cons, ih, and_assoc]

theorem step_of_neutral {start : Set H} {e : E} (he : L.Neutral e) :
    L.step start e = start := by
  ext h
  simp [step, he.1, he.2]

theorem step_of_acquired {start : Set H} {e : E} {h : H}
    (hacq : L.acquired e = some h) (hrel : L.released e = none) :
    L.step start e = insert h start := by
  ext k
  simp [step, hacq, hrel, or_comm, eq_comm]

theorem step_of_released {start : Set H} {e : E} {h : H}
    (hacq : L.acquired e = none) (hrel : L.released e = some h) :
    L.step start e = start \ {h} := by
  ext k
  simp [step, hacq, hrel, eq_comm]

theorem live_of_neutral {start : Set H} {log : List E}
    (hlog : ∀ e ∈ log, L.Neutral e) : L.live start log = start := by
  induction log generalizing start with
  | nil => rfl
  | cons e rest ih =>
      rw [live_cons, step_of_neutral L (hlog e List.mem_cons_self)]
      exact ih fun e' he' => hlog e' (List.mem_cons_of_mem e he')

/-- Neutral entries whose every use is of a resource live at the start. -/
theorem disciplined_of_neutral {start : Set H} {log : List E}
    (hlog : ∀ e ∈ log, L.Neutral e ∧ ∀ h, L.used e = some h → h ∈ start) :
    L.Disciplined start log := by
  induction log generalizing start with
  | nil => trivial
  | cons e rest ih =>
      obtain ⟨hneutral, huse⟩ := hlog e List.mem_cons_self
      refine ⟨huse, ?_⟩
      rw [step_of_neutral L hneutral]
      exact ih fun e' he' => hlog e' (List.mem_cons_of_mem e he')

theorem step_mono {start start' : Set H} (hsub : start ⊆ start') (e : E) :
    L.step start e ⊆ L.step start' e := by
  rintro h ⟨hstart | hacquired, hkept⟩
  · exact ⟨Or.inl (hsub hstart), hkept⟩
  · exact ⟨Or.inr hacquired, hkept⟩

/-- More live resources leave a journal disciplined. -/
theorem disciplined_mono {start start' : Set H} {log : List E} (hsub : start ⊆ start')
    (hlog : L.Disciplined start log) : L.Disciplined start' log := by
  induction log generalizing start start' with
  | nil => trivial
  | cons e rest ih =>
      obtain ⟨huse, hrest⟩ := hlog
      exact ⟨fun h hused => hsub (huse h hused), ih (L.step_mono hsub e) hrest⟩

/-- What is live was live at the start or has been acquired. -/
theorem mem_live_imp {start : Set H} {log : List E} {h : H}
    (hlive : h ∈ L.live start log) :
    h ∈ start ∨ ∃ e ∈ log, L.acquired e = some h := by
  induction log generalizing start with
  | nil => exact Or.inl hlive
  | cons e rest ih =>
      rcases ih hlive with ⟨hstart | hacquired, _⟩ | ⟨e', he', hacquired⟩
      · exact Or.inl hstart
      · exact Or.inr ⟨e, List.mem_cons_self, hacquired⟩
      · exact Or.inr ⟨e', List.mem_cons_of_mem e he', hacquired⟩

section Runs

variable {σ : Type w} {ι : Type w} {step : ι → σ → σ → Prop}

/-- The new entries come to what the ledger of the labels says of one label. -/
def Accounts (K : Ledger ι H) (label : ι) (new : List E) : Prop :=
  ∀ start, L.live start new = K.step start label ∧
    (L.Disciplined start new ↔ ∀ h, K.used label = some h → h ∈ start)

/-- When the entries of every step come to what its label says, so do those of a run. -/
theorem accounts_run (K : Ledger ι H) (log : σ → List E)
    (hstep : ∀ label s s', step label s s' →
      ∃ new, log s' = log s ++ new ∧ L.Accounts K label new)
    {s s' : σ} {labels : List ι} (hrun : Run step s labels s') :
    ∃ new, log s' = log s ++ new ∧ ∀ start, L.live start new = K.live start labels ∧
      (L.Disciplined start new ↔ K.Disciplined start labels) := by
  induction hrun with
  | nil => exact ⟨[], by simp, fun start => ⟨rfl, Iff.rfl⟩⟩
  | @snoc s' s'' labels label _ hlast ih =>
      obtain ⟨new, hlog, hnew⟩ := ih
      obtain ⟨new', hlog', hnew'⟩ := hstep _ _ _ hlast
      refine ⟨new ++ new', by rw [hlog', hlog, List.append_assoc], fun start => ⟨?_, ?_⟩⟩
      · rw [live_append, live_append, (hnew start).1, (hnew' _).1, live_cons, live_nil]
      · rw [disciplined_append, disciplined_append, (hnew start).1, (hnew start).2,
          (hnew' _).2, Disciplined, Disciplined, and_true]

end Runs

end Ledger
