/-
# Tilings of an interval

A list of sets tiles an interval if they are intervals that follow one another from its begin to its
end. They are disjoint, and their union is the interval.
-/
import Mathlib

variable {α : Type*} [LinearOrder α] {a b c : α} {s : Set α} {ss ts : List (Set α)}

/-- The sets follow one another from `a` to `b`. -/
def Tiles (a b : α) : List (Set α) → Prop
  | [] => a = b
  | s :: ss => ∃ m, a ≤ m ∧ s = Set.Ico a m ∧ Tiles m b ss

namespace Tiles

@[simp] theorem nil_iff : Tiles a b [] ↔ a = b := Iff.rfl

theorem single (h : a ≤ b) : Tiles a b [Set.Ico a b] := ⟨b, h, rfl, rfl⟩

theorem le : ∀ {ss : List (Set α)} {a b : α}, Tiles a b ss → a ≤ b
  | [], _, _, h => le_of_eq h
  | _ :: _, _, _, ⟨_, hm, _, h⟩ => hm.trans (le h)

theorem append : ∀ {ss : List (Set α)} {a b : α}, Tiles a b ss → Tiles b c ts → Tiles a c (ss ++ ts)
  | [], _, _, rfl, ht => ht
  | _ :: _, _, _, ⟨m, hm, hs, h⟩, ht => ⟨m, hm, hs, append h ht⟩

theorem map_range {f : ℕ → α} (hf : Monotone f) (n : ℕ) :
    Tiles (f 0) (f n) ((List.range n).map fun i => Set.Ico (f i) (f (i + 1))) := by
  induction n with
  | zero => simp
  | succ n ih =>
    rw [List.range_succ, List.map_append]
    exact ih.append (single (hf (Nat.le_succ n)))

theorem mem_iff : ∀ {ss : List (Set α)} {a b : α}, Tiles a b ss → ∀ x, (∃ s ∈ ss, x ∈ s) ↔ a ≤ x ∧ x < b
  | [], a, _, rfl, x => by
    simp only [List.not_mem_nil, false_and, exists_false, false_iff, not_and, not_lt]
    exact id
  | s :: ss, a, b, ⟨m, hm, hs, h⟩, x => by
    have hb := h.le
    simp only [List.mem_cons, exists_eq_or_imp, h.mem_iff x, hs, Set.mem_Ico]
    constructor
    · rintro (⟨ha, hx⟩ | ⟨ha, hx⟩)
      · exact ⟨ha, hx.trans_le hb⟩
      · exact ⟨hm.trans ha, hx⟩
    · rintro ⟨ha, hx⟩
      rcases lt_or_ge x m with hxm | hxm
      · exact .inl ⟨ha, hxm⟩
      · exact .inr ⟨hxm, hx⟩

theorem subset (h : Tiles a b ss) (hs : s ∈ ss) : s ⊆ Set.Ico a b :=
  fun x hx => (h.mem_iff x).mp ⟨s, hs, hx⟩

theorem pairwise_disjoint : ∀ {ss : List (Set α)} {a b : α}, Tiles a b ss → ss.Pairwise Disjoint
  | [], _, _, _ => List.Pairwise.nil
  | s :: ss, a, b, ⟨m, hm, hs, h⟩ => by
    refine List.pairwise_cons.mpr ⟨?_, h.pairwise_disjoint⟩
    intro t ht
    -- what follows begins where the first one ends
    have htm : t ⊆ Set.Ico m b := h.subset ht
    rw [hs]
    apply Set.disjoint_left.mpr
    intro x hx hxt
    exact absurd hx.2 (not_lt.mpr (htm hxt).1)

end Tiles
