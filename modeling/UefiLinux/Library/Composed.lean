/-
Programs composed of basic actions.  A program that looks at the state only where alike
states agree, and acts on it only through basic actions, inherits from these what
sequencing preserves: how its endings relate to its start, and that alike states lead to
the same ending and to alike states.
-/
import UefiLinux.Library.Progress

namespace Progress

universe u

variable {ε σ α β ρ τ : Type u}

/-- What a composed program may do: tell apart only states that are not alike, take the
basic actions, and stop by itself for the listed reasons. -/
structure Discipline (ε σ : Type u) where
  alike : σ → σ → Prop
  basic : ∀ {α : Type u}, EStateM ε σ α → Prop
  stops : ε → Prop

/-- Some run of a program returns the value. -/
def CanReturn (x : EStateM ε σ α) (a : α) : Prop := ∃ s s', x.run s = .ok a s'

/-- The programs of a discipline.  What follows a first part is looked at only for the
values that the first part can return. -/
inductive Composed (D : Discipline ε σ) : {α : Type u} → EStateM ε σ α → Prop
  | pure {α : Type u} (a : α) : Composed D (pure a)
  | throw {α : Type u} {e : ε} (he : D.stops e) : Composed D (throw e : EStateM ε σ α)
  | basic {α : Type u} {x : EStateM ε σ α} (hx : D.basic x) : Composed D x
  | look {α : Type u} {f : σ → EStateM ε σ α} (hlook : ∀ s t, D.alike s t → f s = f t)
      (hf : ∀ s, Composed D (f s)) : Composed D (get >>= f)
  | bind {α β : Type u} {x : EStateM ε σ α} {f : α → EStateM ε σ β} (hx : Composed D x)
      (hf : ∀ a, CanReturn x a → Composed D (f a)) : Composed D (x >>= f)

section Rules

variable {D : Discipline ε σ}

theorem Composed.ite {c : Prop} [Decidable c] {x y : EStateM ε σ α} (hx : Composed D x)
    (hy : Composed D y) : Composed D (if c then x else y) := by
  split
  · exact hx
  · exact hy

/-- A program followed by one that does not depend on what the first can return. -/
theorem Composed.andThen {x : EStateM ε σ α} {f : α → EStateM ε σ β} (hx : Composed D x)
    (hf : ∀ a, Composed D (f a)) : Composed D (x >>= f) :=
  hx.bind fun a _ => hf a

/-- A loop whose passes keep an invariant of the loop's own state. -/
theorem Composed.loop {stuck : ε} {body : τ → EStateM ε σ (τ ⊕ ρ)} (hstuck : D.stops stuck)
    (I : τ → Prop) (hbody : ∀ t, I t → Composed D (body t))
    (hnext : ∀ t, I t → ∀ t', CanReturn (body t) (.inl t') → I t') (fuel : Nat) {t : τ}
    (ht : I t) : Composed D (loop stuck body fuel t) := by
  induction fuel generalizing t with
  | zero => exact .throw hstuck
  | succ fuel ih =>
      refine (hbody t ht).bind fun next hreturns => ?_
      cases next with
      | inl t' => exact ih (hnext t ht t' hreturns)
      | inr r => exact .pure r

end Rules

/-- A returning run ends `L`-related to its start, a stopped one related as `K` says for
the reason. -/
def Ends (L : σ → σ → Prop) (K : ε → σ → σ → Prop) (x : EStateM ε σ α) : Prop :=
  (∀ s a s', x.run s = .ok a s' → L s s') ∧ ∀ s e s', x.run s = .error e s' → K e s s'

/-- Composed programs end as their basic actions do. -/
theorem Composed.ends {D : Discipline ε σ} {L : σ → σ → Prop} {K : ε → σ → σ → Prop}
    [IsPreorder σ L] (hafter : ∀ {e s s' s''}, L s s' → K e s' s'' → K e s s'')
    (hbasic : ∀ {α : Type u} {x : EStateM ε σ α}, D.basic x → Ends L K x)
    (hstops : ∀ {e} s, D.stops e → K e s s) {x : EStateM ε σ α} (hx : Composed D x) :
    Ends L K x := by
  induction hx with
  | pure a =>
      constructor
      · intro s a' s' hrun
        rw [EStateM.run_pure, EStateM.Result.ok.injEq] at hrun
        exact hrun.2 ▸ refl_of L s
      · intro s e s' hrun
        cases hrun
  | throw he =>
      constructor
      · intro s a s' hrun
        cases hrun
      · intro s e s' hrun
        rw [run_throw, EStateM.Result.error.injEq] at hrun
        obtain ⟨rfl, rfl⟩ := hrun
        exact hstops s he
  | basic hx => exact hbasic hx
  | look _ _ ih => exact ⟨fun s => (ih s).1 s, fun s => (ih s).2 s⟩
  | bind _ _ ihx ihf =>
      constructor
      · intro s b s'' hrun
        obtain ⟨a, s', hfirst, hrest⟩ := run_bind_eq_ok.mp hrun
        exact trans_of L (ihx.1 s a s' hfirst) ((ihf a ⟨s, s', hfirst⟩).1 s' b s'' hrest)
      · intro s e s'' hrun
        rcases run_bind_eq_error.mp hrun with hfirst | ⟨a, s', hfirst, hrest⟩
        · exact ihx.2 s e s'' hfirst
        · exact hafter (ihx.1 s a s' hfirst)
            ((ihf a ⟨s, s', hfirst⟩).2 s' e s'' hrest)

/-- When one relation describes both ways of ending, programs move along it. -/
theorem Ends.along {R : σ → σ → Prop} {x : EStateM ε σ α} (hx : Ends R (fun _ => R) x) :
    Along R x := by
  intro s
  cases hrun : x.run s with
  | ok a s' => exact hx.1 s a s' hrun
  | error e s' => exact hx.2 s e s' hrun

theorem Along.ends {R : σ → σ → Prop} {x : EStateM ε σ α} (hx : Along R x) :
    Ends R (fun _ => R) x := by
  refine ⟨fun s a s' hrun => hx.ok hrun, fun s e s' hrun => ?_⟩
  have hfinal := hx s
  rwa [hrun] at hfinal

/-- Two endings that agree but for the states, which are alike. -/
inductive Matches (R : σ → σ → Prop) :
    EStateM.Result ε σ α → EStateM.Result ε σ α → Prop
  | ok (a : α) {s t : σ} (halike : R s t) : Matches R (.ok a s) (.ok a t)
  | error (e : ε) {s t : σ} (halike : R s t) : Matches R (.error e s) (.error e t)

/-- Runs of the program from alike states have matching endings. -/
def Blind (R : σ → σ → Prop) (x : EStateM ε σ α) : Prop :=
  ∀ s t, R s t → Matches R (x.run s) (x.run t)

/-- A run from the second of two alike states follows the run from the first. -/
theorem Matches.follows {R : σ → σ → Prop} {a : α} {s : σ} {result : EStateM.Result ε σ α}
    (hmatches : Matches R (.ok a s) result) : ∃ t, result = .ok a t ∧ R s t := by
  cases hmatches with
  | ok _ halike => exact ⟨_, rfl, halike⟩

theorem Blind.bind {R : σ → σ → Prop} {x : EStateM ε σ α} {f : α → EStateM ε σ β}
    (hx : Blind R x) (hf : ∀ a, CanReturn x a → Blind R (f a)) : Blind R (x >>= f) := by
  intro s t halike
  have hfirst := hx s t halike
  rw [EStateM.run_bind, EStateM.run_bind]
  cases hs : x.run s with
  | ok a s' =>
      rw [hs] at hfirst
      obtain ⟨t', ht, halike'⟩ := hfirst.follows
      rw [ht]
      exact hf a ⟨s, s', hs⟩ s' t' halike'
  | error e s' =>
      rw [hs] at hfirst
      generalize x.run t = result at hfirst
      cases hfirst with
      | error _ halike' => exact .error e halike'

/-- Composed programs do not tell alike states apart when their basic actions do not. -/
theorem Composed.blind {D : Discipline ε σ}
    (hbasic : ∀ {α : Type u} {x : EStateM ε σ α}, D.basic x → Blind D.alike x)
    {x : EStateM ε σ α} (hx : Composed D x) : Blind D.alike x := by
  induction hx with
  | pure a => exact fun s t halike => .ok a halike
  | throw he => exact fun s t halike => .error _ halike
  | basic hx => exact hbasic hx
  | @look α f hlook hf ih =>
      intro s t halike
      change Matches D.alike ((f s).run s) ((f t).run t)
      rw [← hlook s t halike]
      exact ih s s t halike
  | bind _ _ ihx ihf => exact ihx.bind ihf

end Progress
