/-
# Systems that take steps

A system starts in some states and takes labelled steps. What holds at the start and is kept by
every step holds in all states of `System.Reach` (`System.Reach.invariant`). `System.Run` keeps the
labels; `System.restrict` is the system under a protocol.
-/
import Mathlib

/-- States, labels, where it starts, and which steps it takes. -/
structure System (σ ι : Type*) where
  start : σ → Prop
  step : σ → ι → σ → Prop

namespace System

variable {σ ι : Type*}

/-- The states a run can be in. -/
inductive Reach (S : System σ ι) : σ → Prop
  | start {s : σ} : S.start s → Reach S s
  | step {s s' : σ} {i : ι} : Reach S s → S.step s i s' → Reach S s'

variable {S : System σ ι} {P : σ → Prop} {s s' : σ} {is : List ι}

/-- What holds at the start and is kept by every step holds in every reachable state. -/
theorem Reach.invariant (h : S.Reach s)
    (h0 : ∀ s, S.start s → P s) (hs : ∀ s i s', S.Reach s → P s → S.step s i s' → P s') : P s := by
  induction h with
  | start h => exact h0 _ h
  | step hr hst ih => exact hs _ _ _ hr ih hst

/-- A run with its labels, oldest first. -/
inductive Run (S : System σ ι) : σ → List ι → σ → Prop
  | nil (s : σ) : Run S s [] s
  | cons {s s' s'' : σ} {i : ι} {is : List ι} : S.step s i s' → Run S s' is s'' → Run S s (i :: is) s''

theorem Run.invariant (h : S.Run s is s') (hs : ∀ s i s', P s → S.step s i s' → P s') : P s → P s' := by
  induction h with
  | nil s => exact id
  | cons hst _ ih => exact fun hp => ih (hs _ _ _ hp hst)

theorem Run.snoc {s'' : σ} {i : ι} (h : S.Run s is s') (hst : S.step s' i s'') : S.Run s (is ++ [i]) s'' := by
  induction h with
  | nil s => exact .cons hst (.nil _)
  | cons hs _ ih => exact .cons hs (ih hst)

theorem Run.reach (h : S.Run s is s') (hr : S.Reach s) : S.Reach s' := by
  induction h with
  | nil s => exact hr
  | cons hst _ ih => exact ih (hr.step hst)

/-- Where the steps of a kind are bounded and there is always one, a run ends. -/
theorem Run.exists_end {p : ι → Bool} {D : σ → Prop} {B : ℕ}
    (h : ∀ is s', S.Run s is s' → is.countP p ≤ B ∧ (D s' ∨ ∃ i s'', p i = true ∧ S.step s' i s'')) :
    ∃ is s', S.Run s is s' ∧ D s' := by
  by_contra hnone
  have hlong : ∀ k : ℕ, ∃ is s', S.Run s is s' ∧ is.countP p = k := by
    intro k
    induction k with
    | zero => exact ⟨[], s, .nil s, rfl⟩
    | succ k ih =>
      obtain ⟨is, s', hrun, hk⟩ := ih
      rcases (h is s' hrun).2 with hd | ⟨i, s'', hi, hst⟩
      · exact absurd ⟨is, s', hrun, hd⟩ hnone
      · refine ⟨is ++ [i], s'', hrun.snoc hst, ?_⟩
        rw [List.countP_append, hk, List.countP_singleton, hi]
        rfl
  obtain ⟨is, s', hrun, hk⟩ := hlong (B + 1)
  have := (h is s' hrun).1
  omega

/-- The steps that meet a condition. -/
def restrict (S : System σ ι) (c : σ → ι → Prop) : System σ ι where
  start := S.start
  step s i s' := c s i ∧ S.step s i s'

theorem Reach.of_restrict {c : σ → ι → Prop} (h : (S.restrict c).Reach s) : S.Reach s := by
  induction h with
  | start h => exact .start h
  | step _ hst ih => exact ih.step hst.2

end System
