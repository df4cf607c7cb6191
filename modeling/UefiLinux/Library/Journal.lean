/-
Programs that write a journal.  A state shows its journal and a core the journal
does not describe; a program is judged by the entries it appends, by what it does
to the core, and by the result it gives when some entry is a failure.
-/
import UefiLinux.Library.Progress

namespace Journal

open Progress

universe u

variable {ε σ α β ρ τ E K : Type u}

/-- How a state shows its journal and the core that quiet programs keep. -/
structure View (σ E K : Type u) where
  log : σ → List E
  core : σ → K

/-- The core is kept and every new journal entry is in `A`. -/
def Quiet (v : View σ E K) (A : E → Prop) (s s' : σ) : Prop :=
  v.core s' = v.core s ∧
    ∃ new, v.log s' = v.log s ++ new ∧ ∀ e ∈ new, A e

instance quiet_isPreorder (v : View σ E K) (A : E → Prop) :
    IsPreorder σ (Quiet v A) where
  refl s := ⟨rfl, [], by simp, by simp⟩
  trans := by
    rintro s s' s'' ⟨hcore, new, hlog, hnew⟩ ⟨hcore', new', hlog', hnew'⟩
    refine ⟨hcore'.trans hcore, new ++ new', ?_, ?_⟩
    · rw [hlog', hlog, List.append_assoc]
    · intro e he
      rcases List.mem_append.mp he with he | he
      · exact hnew e he
      · exact hnew' e he

/-- A state that agrees on core and journal is a quiet move away. -/
theorem quiet_of_eq {v : View σ E K} {A : E → Prop} {s s' : σ}
    (hcore : v.core s' = v.core s) (hlog : v.log s' = v.log s) :
    Quiet v A s s' :=
  ⟨hcore, [], by simp [hlog], by simp⟩

/-- A run ends in one way, so what holds of some ending holds of the one it has. -/
theorem ends_iff {log : σ → List E} {x : EStateM ε σ α} {s s' : σ} {a : α}
    {new : List E} {P : α → σ → List E → Prop} (hrun : x.run s = .ok a s')
    (hlog : log s' = log s ++ new) :
    (∃ a s' new, x.run s = .ok a s' ∧ log s' = log s ++ new ∧ P a s' new) ↔
      P a s' new := by
  constructor
  · rintro ⟨a', s'', new', hrun', hlog', hholds⟩
    rw [hrun, EStateM.Result.ok.injEq] at hrun'
    obtain ⟨rfl, rfl⟩ := hrun'
    rw [List.append_cancel_left (hlog.symm.trans hlog')]
    exact hholds
  · intro hholds
    exact ⟨a, s', new, hrun, hlog, hholds⟩

/-- Every returning run of `x` returns a result in `bad`. -/
def Yields (bad : α → Prop) (x : EStateM ε σ α) : Prop :=
  ∀ s a s', x.run s = .ok a s' → bad a

section Yields

variable {bad : α → Prop}

theorem Yields.pure {a : α} (ha : bad a) :
    Yields bad (pure a : EStateM ε σ α) := by
  intro s a' s' hrun
  simp only [EStateM.run_pure, EStateM.Result.ok.injEq] at hrun
  exact hrun.1 ▸ ha

theorem Yields.throw (e : ε) : Yields bad (throw e : EStateM ε σ α) := by
  intro s a s' hrun
  cases hrun

theorem Yields.bind {bad : β → Prop} {x : EStateM ε σ α} {f : α → EStateM ε σ β}
    (hf : ∀ a, Yields bad (f a)) : Yields bad (x >>= f) := by
  intro s b s'' hrun
  obtain ⟨a, s', _, hrest⟩ := run_bind_eq_ok.mp hrun
  exact hf a s' b s'' hrest

end Yields

/-- A returning run whose new entries contain a failure returns a result in
`bad`. -/
def Answers (log : σ → List E) (fails : E → Prop) (bad : α → Prop)
    (x : EStateM ε σ α) : Prop :=
  ∀ s a s', x.run s = .ok a s' →
    ∃ new, log s' = log s ++ new ∧ ((∃ e ∈ new, fails e) → bad a)

section Answers

variable {log : σ → List E} {fails : E → Prop} {bad : α → Prop}

theorem Answers.pure (a : α) :
    Answers log fails bad (pure a : EStateM ε σ α) := by
  intro s a' s' hrun
  simp only [EStateM.run_pure, EStateM.Result.ok.injEq] at hrun
  exact ⟨[], by simp [hrun.2], by simp⟩

theorem Answers.throw (e : ε) :
    Answers log fails bad (throw e : EStateM ε σ α) := by
  intro s a s' hrun
  simp at hrun

theorem Answers.ite {c : Prop} [Decidable c] {x y : EStateM ε σ α}
    (hx : Answers log fails bad x) (hy : Answers log fails bad y) :
    Answers log fails bad (if c then x else y) := by
  split
  · exact hx
  · exact hy

/-- Sequencing: a failure in the first part is handed over as a result in `mid`,
which the second part must turn into `bad`. -/
theorem Answers.bind {mid : α → Prop} {bad : β → Prop} {x : EStateM ε σ α}
    {f : α → EStateM ε σ β} (hx : Answers log fails mid x)
    (hf : ∀ a, Answers log fails bad (f a))
    (hmid : ∀ a, mid a → Yields bad (f a)) :
    Answers log fails bad (x >>= f) := by
  intro s b s'' hrun
  obtain ⟨a, s', hfirst, hrest⟩ := run_bind_eq_ok.mp hrun
  obtain ⟨new, hlog, hfail⟩ := hx s a s' hfirst
  obtain ⟨new', hlog', hfail'⟩ := hf a s' b s'' hrest
  refine ⟨new ++ new', by rw [hlog', hlog, List.append_assoc], ?_⟩
  rintro ⟨e, he, hfails⟩
  rcases List.mem_append.mp he with he | he
  · exact hmid a (hfail ⟨e, he, hfails⟩) s' b s'' hrest
  · exact hfail' ⟨e, he, hfails⟩

/-- A program that appends no failing entry answers for all of them. -/
theorem Answers.of_quiet {v : View σ E K} {x : EStateM ε σ α}
    (hx : Along (Quiet v fun e => ¬ fails e) x) :
    Answers v.log fails bad x := by
  intro s a s' hrun
  obtain ⟨_, new, hlog, hnew⟩ := hx.ok hrun
  refine ⟨new, hlog, ?_⟩
  rintro ⟨e, he, hfails⟩
  exact absurd hfails (hnew e he)

/-- A first part without failing entries needs no check. -/
theorem Answers.after {v : View σ E K} {bad : β → Prop} {x : EStateM ε σ α}
    {f : α → EStateM ε σ β} (hx : Along (Quiet v fun e => ¬ fails e) x)
    (hf : ∀ a, Answers v.log fails bad (f a)) :
    Answers v.log fails bad (x >>= f) := by
  have hquiet : Answers v.log fails (fun _ => False) x := Answers.of_quiet hx
  exact hquiet.bind hf fun _ hnever => hnever.elim

/-- A program whose every result is in `bad` answers for all its entries. -/
theorem Answers.of_yields {v : View σ E K} {A : E → Prop} {x : EStateM ε σ α}
    (hx : Along (Quiet v A) x) (hbad : Yields bad x) :
    Answers v.log fails bad x := by
  intro s a s' hrun
  obtain ⟨_, new, hlog, _⟩ := hx.ok hrun
  exact ⟨new, hlog, fun _ => hbad s a s' hrun⟩

/-- Two readings of one journal name the same new entries. -/
theorem Answers.of_log {x : EStateM ε σ α} (hx : Answers log fails bad x)
    {s s' : σ} {a : α} (hrun : x.run s = .ok a s') {new : List E}
    (hlog : log s' = log s ++ new) {e : E} (he : e ∈ new) (hfails : fails e) :
    bad a := by
  obtain ⟨new', hlog', hbad⟩ := hx s a s' hrun
  have hsame : new = new' := List.append_cancel_left (hlog.symm.trans hlog')
  exact hbad ⟨e, hsame ▸ he, hfails⟩

end Answers

end Journal
