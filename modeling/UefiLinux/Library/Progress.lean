/-
Programs with a state and an early exit, read as moves of the state.  A program
may return or stop; the relations below speak about both endings at once.
-/
import Mathlib.Order.Defs.Unbundled

namespace Progress

universe u

variable {ε σ α β ρ τ : Type u}

/-- The state in which a run ends, whether it returned or stopped early. -/
def finalState : EStateM.Result ε σ α → σ
  | .ok _ s => s
  | .error _ s => s

@[simp] theorem finalState_ok (a : α) (s : σ) :
    finalState (.ok a s : EStateM.Result ε σ α) = s := rfl

@[simp] theorem run_throw (e : ε) (s : σ) :
    (throw e : EStateM ε σ α).run s = .error e s := rfl

/-- A returning sequence returned from its first part and from its second. -/
theorem run_bind_eq_ok {x : EStateM ε σ α} {f : α → EStateM ε σ β}
    {s s'' : σ} {b : β} :
    (x >>= f).run s = .ok b s'' ↔
      ∃ a s', x.run s = .ok a s' ∧ (f a).run s' = .ok b s'' := by
  rw [EStateM.run_bind]
  cases hx : x.run s with
  | ok a s' =>
      constructor
      · intro hrest
        exact ⟨a, s', rfl, hrest⟩
      · rintro ⟨_, _, ⟨rfl, rfl⟩, hrest⟩
        exact hrest
  | error e s' => simp

/-- A sequence whose first part returned goes on with its second. -/
theorem run_bind_of_ok {x : EStateM ε σ α} {f : α → EStateM ε σ β}
    {s s' : σ} {a : α} (hx : x.run s = .ok a s') :
    (x >>= f).run s = (f a).run s' := by
  rw [EStateM.run_bind, hx]

/-- A stopped sequence stopped in its first part or in its second. -/
theorem run_bind_eq_error {x : EStateM ε σ α} {f : α → EStateM ε σ β}
    {s s'' : σ} {e : ε} :
    (x >>= f).run s = .error e s'' ↔
      x.run s = .error e s'' ∨
        ∃ a s', x.run s = .ok a s' ∧ (f a).run s' = .error e s'' := by
  rw [EStateM.run_bind]
  cases hx : x.run s with
  | ok a s' =>
      constructor
      · intro hrest
        exact Or.inr ⟨a, s', rfl, hrest⟩
      · rintro (hstop | ⟨_, _, ⟨rfl, rfl⟩, hrest⟩)
        · cases hstop
        · exact hrest
  | error e s' => simp

/-- Repeat `body` until it breaks with a result, at most `fuel` times. -/
def loop (stuck : ε) (body : τ → EStateM ε σ (τ ⊕ ρ)) : Nat → τ → EStateM ε σ ρ
  | 0, _ => throw stuck
  | fuel + 1, t => do
      match ← body t with
      | .inl t' => loop stuck body fuel t'
      | .inr r => pure r

section Loop

variable {stuck : ε} {body : τ → EStateM ε σ (τ ⊕ ρ)} {fuel fuel' : Nat} {t t' : τ}
  {r : ρ} {s s' : σ}

/-- A pass that goes on hands over to the rest of the loop. -/
theorem loop_run_of_inl (hbody : (body t).run s = .ok (.inl t') s') :
    (loop stuck body (fuel + 1) t).run s = (loop stuck body fuel t').run s' := by
  rw [loop, run_bind_of_ok hbody]

/-- A pass that breaks gives the result of the loop. -/
theorem loop_run_of_inr (hbody : (body t).run s = .ok (.inr r) s') :
    (loop stuck body (fuel + 1) t).run s = .ok r s' := by
  rw [loop, run_bind_of_ok hbody]
  rfl

/-- A loop that has returned returns the same with more fuel. -/
theorem loop_run_mono (hle : fuel ≤ fuel')
    (hrun : (loop stuck body fuel t).run s = .ok r s') :
    (loop stuck body fuel' t).run s = .ok r s' := by
  induction fuel generalizing fuel' t s with
  | zero => cases hrun
  | succ fuel ih =>
      obtain ⟨more, rfl⟩ := Nat.exists_eq_add_of_le' (Nat.one_le_of_lt hle)
      rw [loop] at hrun
      obtain ⟨next, s₁, hbody, hrest⟩ := run_bind_eq_ok.mp hrun
      cases next with
      | inl t' =>
          rw [loop_run_of_inl hbody]
          exact ih (Nat.le_of_succ_le_succ hle) hrest
      | inr r' =>
          rw [loop_run_of_inr hbody]
          exact hrest

/-- Two budgets that suffice give the same result. -/
theorem loop_run_unique {r' : ρ} {s'' : σ}
    (hrun : (loop stuck body fuel t).run s = .ok r s')
    (hrun' : (loop stuck body fuel' t).run s = .ok r' s'') : r = r' ∧ s' = s'' := by
  have hmost := loop_run_mono (Nat.le_max_left fuel fuel') hrun
  rw [loop_run_mono (Nat.le_max_right fuel fuel') hrun', EStateM.Result.ok.injEq] at hmost
  exact ⟨hmost.1.symm, hmost.2.symm⟩

/-- So many passes of a loop, each of which goes on, last pass outermost. -/
inductive Passes (body : τ → EStateM ε σ (τ ⊕ ρ)) (t : τ) (s : σ) : Nat → τ → σ → Prop
  | none : Passes body t s 0 t s
  | snoc {k : Nat} {t' t'' : τ} {s' s'' : σ} : Passes body t s k t' s' →
      (body t').run s' = .ok (.inl t'') s'' → Passes body t s (k + 1) t'' s''

/-- After some passes a loop is left with the rest of its budget. -/
theorem Passes.loop_run {k : Nat} (hpasses : Passes body t s k t' s') (fuel : Nat) :
    (loop stuck body (k + fuel) t).run s = (loop stuck body fuel t').run s' := by
  induction hpasses generalizing fuel with
  | none => rw [Nat.zero_add]
  | snoc _ hlast ih =>
      rw [Nat.add_assoc, Nat.add_comm 1 fuel, ih (fuel + 1), loop_run_of_inl hlast]

end Loop

/-- Every ending of `x` leaves the state `R`-related to the state it began in. -/
def Along (R : σ → σ → Prop) (x : EStateM ε σ α) : Prop :=
  ∀ s, R s (finalState (x.run s))

section Along

variable {R : σ → σ → Prop}

theorem Along.ite {c : Prop} [Decidable c] {x y : EStateM ε σ α}
    (hx : Along R x) (hy : Along R y) : Along R (if c then x else y) := by
  split
  · exact hx
  · exact hy

theorem Along.modify {f : σ → σ} (hf : ∀ s, R s (f s)) :
    Along R (modify f : EStateM ε σ PUnit) :=
  fun s => hf s

variable [IsPreorder σ R]

theorem Along.pure (a : α) : Along R (pure a : EStateM ε σ α) :=
  fun s => refl_of R s

theorem Along.throw (e : ε) : Along R (throw e : EStateM ε σ α) :=
  fun s => refl_of R s

theorem Along.get : Along R (get : EStateM ε σ σ) :=
  fun s => refl_of R s

theorem Along.bind {x : EStateM ε σ α} {f : α → EStateM ε σ β}
    (hx : Along R x) (hf : ∀ a, Along R (f a)) : Along R (x >>= f) := by
  intro s
  have hfirst := hx s
  rw [EStateM.run_bind]
  cases hrun : x.run s with
  | ok a s' =>
      rw [hrun] at hfirst
      exact trans_of R hfirst (hf a s')
  | error e s' =>
      rw [hrun] at hfirst
      exact hfirst

theorem Along.loop {stuck : ε} {body : τ → EStateM ε σ (τ ⊕ ρ)}
    (hbody : ∀ t, Along R (body t)) (fuel : Nat) (t : τ) :
    Along R (loop stuck body fuel t) := by
  induction fuel generalizing t with
  | zero => exact Along.throw stuck
  | succ fuel ih =>
      refine (hbody t).bind fun next => ?_
      cases next with
      | inl t' => exact ih t'
      | inr r => exact Along.pure r

end Along

/-- A returning run of a program that moves along `R` ends `R`-related. -/
theorem Along.ok {R : σ → σ → Prop} {x : EStateM ε σ α} (hx : Along R x)
    {s s' : σ} {a : α} (hrun : x.run s = .ok a s') : R s s' := by
  simpa [hrun] using hx s

/-- No run of `x` stops for a reason in `bad`. -/
def Avoids (bad : ε → Prop) (x : EStateM ε σ α) : Prop :=
  ∀ s e s', x.run s = .error e s' → ¬ bad e

section Avoids

variable {bad : ε → Prop}

theorem Avoids.pure (a : α) : Avoids bad (pure a : EStateM ε σ α) := by
  intro s e s' hrun
  simp at hrun

theorem Avoids.throw {e : ε} (he : ¬ bad e) :
    Avoids bad (throw e : EStateM ε σ α) := by
  intro s e' s' hrun
  simp only [run_throw, EStateM.Result.error.injEq] at hrun
  exact hrun.1 ▸ he

theorem Avoids.get : Avoids bad (get : EStateM ε σ σ) := by
  intro s e s' hrun
  cases hrun

theorem Avoids.modify (f : σ → σ) :
    Avoids bad (modify f : EStateM ε σ PUnit) := by
  intro s e s' hrun
  cases hrun

theorem Avoids.bind {x : EStateM ε σ α} {f : α → EStateM ε σ β}
    (hx : Avoids bad x) (hf : ∀ a, Avoids bad (f a)) : Avoids bad (x >>= f) := by
  intro s e s'' hrun
  rcases run_bind_eq_error.mp hrun with hfirst | ⟨a, s', _, hsecond⟩
  · exact hx s e s'' hfirst
  · exact hf a s' e s'' hsecond

theorem Avoids.ite {c : Prop} [Decidable c] {x y : EStateM ε σ α}
    (hx : Avoids bad x) (hy : Avoids bad y) :
    Avoids bad (if c then x else y) := by
  split
  · exact hx
  · exact hy

end Avoids

/-- Every ending of `x` is `R`-related to its start and no stop is `bad`. -/
structure Within (R : σ → σ → Prop) (bad : ε → Prop) (x : EStateM ε σ α) :
    Prop where
  along : Along R x
  avoids : Avoids bad x

section Within

variable {R : σ → σ → Prop} {bad : ε → Prop}

theorem Within.modify {f : σ → σ} (hf : ∀ s, R s (f s)) :
    Within R bad (modify f : EStateM ε σ PUnit) :=
  ⟨Along.modify hf, Avoids.modify f⟩

theorem Within.ite {c : Prop} [Decidable c] {x y : EStateM ε σ α}
    (hx : Within R bad x) (hy : Within R bad y) :
    Within R bad (if c then x else y) :=
  ⟨hx.along.ite hy.along, hx.avoids.ite hy.avoids⟩

variable [IsPreorder σ R]

theorem Within.pure (a : α) : Within R bad (pure a : EStateM ε σ α) :=
  ⟨Along.pure a, Avoids.pure a⟩

theorem Within.throw {e : ε} (he : ¬ bad e) :
    Within R bad (throw e : EStateM ε σ α) :=
  ⟨Along.throw e, Avoids.throw he⟩

theorem Within.bind {x : EStateM ε σ α} {f : α → EStateM ε σ β}
    (hx : Within R bad x) (hf : ∀ a, Within R bad (f a)) :
    Within R bad (x >>= f) :=
  ⟨hx.along.bind fun a => (hf a).along, hx.avoids.bind fun a => (hf a).avoids⟩

end Within

end Progress
