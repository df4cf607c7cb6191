/-
Clocks over journals.  The entries of a journal take time, and a clock advances by at
least as much; a tally adds up what the steps of a run are said to take.
-/
import Mathlib.Algebra.BigOperators.Group.List.Basic
import Mathlib.Algebra.GroupWithZero.Nat
import Mathlib.Data.List.Infix
import UefiLinux.Library.Runs

universe u v w

section Clocks

variable {E : Type u}

/-- Behind the base, the clock advances at every entry by at least what it takes. -/
def Ticks (takes : E → Nat) (clock : List E → Nat) (base log : List E) : Prop :=
  ∀ before e after, log = before ++ e :: after → base <+: before →
    clock before + takes e ≤ clock (before ++ [e])

variable {takes : E → Nat} {clock : List E → Nat} {base log start new : List E}

/-- A clock advances by at least what a stretch of the journal takes. -/
theorem Ticks.sum_le (hticks : Ticks takes clock base log) (hbase : base <+: start)
    (hlog : start ++ new <+: log) : clock start + (new.map takes).sum ≤ clock (start ++ new) := by
  induction new generalizing start with
  | nil => simp
  | cons e rest ih =>
      obtain ⟨after, hafter⟩ := hlog
      have hfirst : clock start + takes e ≤ clock (start ++ [e]) :=
        hticks start e (rest ++ after) (by rw [← hafter]; simp) hbase
      have hbase' : base <+: start ++ [e] := hbase.trans (List.prefix_append _ _)
      have hrest : clock (start ++ [e]) + (rest.map takes).sum ≤ clock (start ++ [e] ++ rest) :=
        ih hbase' ⟨after, by rw [← hafter]; simp⟩
      rw [List.map_cons, List.sum_cons, List.append_cons]
      omega

end Clocks

section Tallies

variable {σ : Type v} {ι : Type w} {E : Type u}

/-- A step that adds an amount to a tally. -/
def Tallied (step : ι → σ → σ → Prop) (amount : ι → σ → Nat) (label : ι)
    (v v' : σ × Nat) : Prop :=
  step label v.1 v'.1 ∧ v'.2 = v.2 + amount label v.1

variable {step : ι → σ → σ → Prop} {amount : ι → σ → Nat} {takes : E → Nat}

/-- Where every step writes entries that take at least its amount, so does a run. -/
theorem tally_le (log : σ → List E)
    (hstep : ∀ label s s', step label s s' →
      ∃ new, log s' = log s ++ new ∧ amount label s ≤ (new.map takes).sum)
    {v v' : σ × Nat} {labels : List ι} (hrun : Run (Tallied step amount) v labels v') :
    ∃ new, log v'.1 = log v.1 ++ new ∧ v'.2 ≤ v.2 + (new.map takes).sum := by
  induction hrun with
  | nil => exact ⟨[], by simp, by simp⟩
  | snoc _ hlast ih =>
      obtain ⟨new, hlog, hle⟩ := ih
      obtain ⟨hdoes, htally⟩ := hlast
      obtain ⟨new', hlog', hle'⟩ := hstep _ _ _ hdoes
      refine ⟨new ++ new', by rw [hlog', hlog, List.append_assoc], ?_⟩
      rw [htally, List.map_append, List.sum_append]
      omega

end Tallies
