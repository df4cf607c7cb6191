/-
Runs of a system that takes one labelled step after another, with the ways of lifting a
step fact to a run: invariants, moves along a preorder, variants that force an end, and
logs that are cut into what each step has added.
-/
import Mathlib.Data.Set.Defs
import Mathlib.Order.Defs.Unbundled

universe u v w

/-- A run from its first state through the listed labels, last step outermost. -/
inductive Run {σ : Type u} {ι : Type v} (step : ι → σ → σ → Prop) :
    σ → List ι → σ → Prop
  | nil (s : σ) : Run step s [] s
  | snoc {s s' s'' : σ} {labels : List ι} {label : ι} :
      Run step s labels s' → step label s' s'' →
        Run step s (labels ++ [label]) s''

namespace Run

variable {σ : Type u} {ι : Type v} {step : ι → σ → σ → Prop}

/-- What holds at the start and is kept by every step holds after every run. -/
theorem invariant {I : σ → Prop} {s s' : σ} {labels : List ι}
    (hrun : Run step s labels s') (hstart : I s)
    (hstep : ∀ label s s', I s → step label s s' → I s') : I s' := by
  induction hrun with
  | nil => exact hstart
  | snoc _ hlast ih => exact hstep _ _ _ ih hlast

/-- Steps along a preorder make runs along it. -/
theorem along {R : σ → σ → Prop} [IsPreorder σ R] {s s' : σ} {labels : List ι}
    (hrun : Run step s labels s')
    (hstep : ∀ label s s', step label s s' → R s s') : R s s' := by
  induction hrun with
  | nil => exact refl_of R _
  | snoc _ hlast ih => exact trans_of R ih (hstep _ _ _ hlast)

/-- A run goes on where another ended. -/
theorem append {s s' s'' : σ} {labels labels' : List ι} (hfirst : Run step s labels s')
    (hrest : Run step s' labels' s'') : Run step s (labels ++ labels') s'' := by
  induction hrest with
  | nil => rwa [List.append_nil]
  | snoc _ hlast ih =>
      rw [← List.append_assoc]
      exact Run.snoc ih hlast

/-- A run through two lists of labels has a state between them. -/
theorem split {s s'' : σ} {labels labels' : List ι}
    (hrun : Run step s (labels ++ labels') s'') :
    ∃ s', Run step s labels s' ∧ Run step s' labels' s'' := by
  generalize hall : labels ++ labels' = all at hrun
  induction hrun generalizing labels' with
  | nil =>
      obtain ⟨rfl, rfl⟩ := List.append_eq_nil_iff.mp hall
      exact ⟨s, Run.nil s, Run.nil s⟩
  | @snoc s₁ s₂ before label hfirst hlast ih =>
      rcases List.eq_nil_or_concat labels' with rfl | ⟨rest, label', rfl⟩
      · rw [List.append_nil] at hall
        exact ⟨s₂, hall ▸ Run.snoc hfirst hlast, Run.nil s₂⟩
      · rw [List.concat_eq_append, ← List.append_assoc] at hall
        obtain ⟨hbefore, hsame⟩ := List.append_inj' hall rfl
        obtain rfl := List.singleton_inj.mp hsame
        obtain ⟨s', hrun', hrest⟩ := ih hbefore
        rw [List.concat_eq_append]
        exact ⟨s', hrun', Run.snoc hrest hlast⟩

theorem eq_of_nil {s s' : σ} (hrun : Run step s [] s') : s = s' := by
  generalize hall : ([] : List ι) = all at hrun
  cases hrun with
  | nil => rfl
  | snoc _ _ => exact absurd hall (by simp)

theorem single {s s' : σ} {label : ι} (hrun : Run step s [label] s') : step label s s' := by
  generalize hall : [label] = all at hrun
  cases hrun with
  | nil => cases hall
  | @snoc s₁ s₂ before label' hfirst hlast =>
      have hall' : [] ++ [label] = before ++ [label'] := hall
      obtain ⟨hbefore, hsame⟩ := List.append_inj' hall' rfl
      obtain rfl := List.singleton_inj.mp hsame
      subst hbefore
      rwa [hfirst.eq_of_nil]

/-- While the goal is not reached, some step keeps the invariant and makes the variant
smaller; then some run reaches the goal. -/
theorem exists_of_variant {I Goal : σ → Prop} (variant : σ → Nat)
    (hstep : ∀ s, I s → ¬ Goal s → ∃ label s', step label s s' ∧ I s' ∧
      variant s' < variant s) {s : σ} (hstart : I s) :
    ∃ labels s', Run step s labels s' ∧ I s' ∧ Goal s' := by
  induction hbound : variant s using Nat.strongRecOn generalizing s with
  | ind bound ih =>
      by_cases hgoal : Goal s
      · exact ⟨[], s, Run.nil s, hstart, hgoal⟩
      · obtain ⟨label, s₁, hfirst, hkept, hless⟩ := hstep s hstart hgoal
        obtain ⟨labels, s₂, hrest, hend⟩ := ih (variant s₁) (hbound ▸ hless) hkept rfl
        exact ⟨[] ++ [label] ++ labels, s₂, (Run.snoc (Run.nil s) hfirst).append hrest, hend⟩

/-- What a step of one system can do, a step of the other can do from a related state;
then runs of the one are followed by runs of the other. -/
theorem simulate {τ : Type u} {step' : ι → τ → τ → Prop} {R : σ → τ → Prop} {s s' : σ}
    {labels : List ι} (hrun : Run step s labels s')
    (hstep : ∀ label s s' t, R s t → step label s s' → ∃ t', step' label t t' ∧ R s' t')
    {t : τ} (hstart : R s t) : ∃ t', Run step' t labels t' ∧ R s' t' := by
  induction hrun with
  | nil => exact ⟨t, Run.nil t, hstart⟩
  | snoc _ hlast ih =>
      obtain ⟨t', hrun', hrelated⟩ := ih
      obtain ⟨t'', hlast', hrelated'⟩ := hstep _ _ _ t' hrelated hlast
      exact ⟨t'', Run.snoc hrun' hlast', hrelated'⟩

/-- A run of steps that are each a step of a finer system under a finer label. -/
theorem relabel {κ : Type w} {step' : κ → σ → σ → Prop} (coarse : κ → ι) {s s' : σ}
    {labels : List ι} (hrun : Run step s labels s')
    (hstep : ∀ label s s', step label s s' → ∃ k, coarse k = label ∧ step' k s s') :
    ∃ ks : List κ, ks.map coarse = labels ∧ Run step' s ks s' := by
  induction hrun with
  | nil => exact ⟨[], rfl, Run.nil _⟩
  | snoc _ hlast ih =>
      obtain ⟨ks, rfl, hfiner⟩ := ih
      obtain ⟨k, rfl, hfinest⟩ := hstep _ _ _ hlast
      exact ⟨ks ++ [k], List.map_append, hfiner.snoc hfinest⟩

/-- A log to which every step adds its own part ends with the parts in their order. -/
theorem log_eq {E : Type w} (log : σ → List E) (part : ι → List E) {s s' : σ}
    {labels : List ι} (hrun : Run step s labels s')
    (hstep : ∀ label s s', step label s s' → log s' = log s ++ part label) :
    log s' = log s ++ labels.flatMap part := by
  induction hrun with
  | nil => simp
  | snoc _ hlast ih =>
      rw [hstep _ _ _ hlast, ih, List.append_assoc, List.flatMap_append, List.flatMap_singleton]

end Run
