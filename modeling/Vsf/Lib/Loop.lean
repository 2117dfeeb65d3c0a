/-
# Loops that end with a result

The body of a loop gives the next state or a result. `Loop.Ends next s r` says that the loop, begun
in `s`, ends with `r`; every turn keeps what it ends with (`Loop.ends_inr`), and an invariant says
with which results it can end (`Loop.Ends.invariant`).
-/
import Mathlib

namespace Loop

variable {σ ρ : Type*}

/-- At most so many turns. -/
def run (next : σ → ρ ⊕ σ) : ℕ → σ → Option ρ
  | 0, _ => none
  | fuel + 1, s =>
    match next s with
    | .inl r => some r
    | .inr s' => run next fuel s'

def Ends (next : σ → ρ ⊕ σ) (s : σ) (r : ρ) : Prop := ∃ fuel, run next fuel s = some r

/-- The same after a turn. -/
def Goes (next : σ → ρ ⊕ σ) : ρ ⊕ σ → ρ → Prop
  | .inl r', r => r = r'
  | .inr s, r => Ends next s r

variable {next : σ → ρ ⊕ σ} {s s' : σ} {r r' : ρ}

theorem ends_inl (h : next s = .inl r') : Ends next s r ↔ r = r' := by
  constructor
  · rintro ⟨fuel, hrun⟩
    cases fuel with
    | zero => cases hrun
    | succ fuel =>
      rw [run, h] at hrun
      exact (Option.some.inj hrun).symm
  · rintro rfl
    refine ⟨1, ?_⟩
    rw [run, h]

theorem ends_inr (h : next s = .inr s') : Ends next s r ↔ Ends next s' r := by
  constructor
  · rintro ⟨fuel, hrun⟩
    cases fuel with
    | zero => cases hrun
    | succ fuel =>
      rw [run, h] at hrun
      exact ⟨fuel, hrun⟩
  · rintro ⟨fuel, hrun⟩
    refine ⟨fuel + 1, ?_⟩
    rw [run, h]
    exact hrun

theorem ends_iff : Ends next s r ↔ Goes next (next s) r := by
  cases h : next s with
  | inl r' => exact ends_inl h
  | inr s' => exact ends_inr h

/-- What holds at first and is kept by every turn holds when the loop ends. -/
theorem Ends.invariant {P : σ → Prop} {Q : ρ → Prop} (h : Ends next s r) (h0 : P s) (hend : ∀ s r, P s → next s = .inl r → Q r)
    (hturn : ∀ s s', P s → next s = .inr s' → P s') : Q r := by
  obtain ⟨fuel, hrun⟩ := h
  induction fuel generalizing s with
  | zero => cases hrun
  | succ fuel ih =>
    cases hs : next s with
    | inl r' =>
      rw [run, hs] at hrun
      exact Option.some.inj hrun ▸ hend s r' h0 hs
    | inr s' =>
      rw [run, hs] at hrun
      exact ih (hturn s s' h0 hs) hrun

theorem Ends.unique (h : Ends next s r) (h' : Ends next s r') : r = r' := by
  refine h.invariant (P := fun s => Ends next s r') (Q := fun r => r = r') h' (fun s r hs hr => ?_) fun s s' hs hs' => ?_
  · exact ((ends_inl hr).mp hs).symm
  · exact (ends_inr hs').mp hs

end Loop
