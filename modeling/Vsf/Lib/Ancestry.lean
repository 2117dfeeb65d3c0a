/-
# Ancestors along a pointer

Where every node has one pointer up and the chains end, there are no cycles, so above is an order
(`Linked.Above.antisymm`), with one segment to each node above.
-/
import Mathlib
import Vsf.Lib.Chain

namespace Linked

open List Option

variable {α : Type*} {next : α → Option α} {s t x y q : α} {xs ys : List α} {p r : Option α}

/-- `x` is `s` or above it. -/
def Above (next : α → Option α) (s x : α) : Prop := ∃ xs, Seg next (some s) xs (some x)

theorem Above.refl (next : α → Option α) (s : α) : Above next s s := ⟨[], rfl⟩

theorem above_iff : Above next s x ↔ s = x ∨ ∃ q, next s = some q ∧ Above next q x := by
  constructor
  · rintro ⟨xs, hxs⟩
    cases xs with
    | nil => exact .inl (some.inj hxs)
    | cons y ys =>
      obtain ⟨hy, hys⟩ := seg_cons.mp hxs
      cases hy
      cases hn : next s with
      | none =>
        rw [hn] at hys
        cases ys with
        | nil => cases hys
        | cons z zs => cases hys.1
      | some q =>
        rw [hn] at hys
        exact .inr ⟨q, rfl, ys, hys⟩
  · rintro (rfl | ⟨q, hq, xs, hxs⟩)
    · exact Above.refl next s
    · exact ⟨s :: xs, rfl, hq ▸ hxs⟩

theorem Above.up (hq : next s = some q) (h : Above next q x) : Above next s x := above_iff.mpr (.inr ⟨q, hq, h⟩)

theorem Above.of_ne (h : Above next s x) (hne : s ≠ x) : ∃ q, next s = some q ∧ Above next q x :=
  (above_iff.mp h).resolve_left hne

theorem Seg.trans (h : Seg next p xs r) {q : Option α} (h' : Seg next r ys q) : Seg next p (xs ++ ys) q := seg_append.mpr ⟨r, h, h'⟩

theorem Above.trans (h : Above next s t) (h' : Above next t x) : Above next s x := by
  obtain ⟨xs, hxs⟩ := h
  obtain ⟨ys, hys⟩ := h'
  exact ⟨xs ++ ys, hxs.trans hys⟩

theorem Chain.eq_cons (h : Chain next (some x) xs) : ∃ ys, xs = x :: ys ∧ Chain next (next x) ys := by
  cases xs with
  | nil => cases h
  | cons y ys =>
    obtain ⟨hy, hys⟩ := chain_cons.mp h
    cases hy
    exact ⟨ys, rfl, hys⟩

theorem Seg.mem_chain (h : Seg next p ys (some x)) (hc : Chain next p xs) : ∃ zs, xs = ys ++ x :: zs := by
  induction ys generalizing p xs with
  | nil =>
    obtain rfl : p = some x := h
    obtain ⟨zs, rfl, -⟩ := hc.eq_cons
    exact ⟨zs, rfl⟩
  | cons y ys ih =>
    obtain ⟨rfl, hys⟩ := seg_cons.mp h
    obtain ⟨zs, rfl, hzs⟩ := hc.eq_cons
    obtain ⟨ws, rfl⟩ := ih hys hzs
    exact ⟨ws, rfl⟩

theorem Seg.not_mem (h : Seg next p xs (some x)) {zs : List α} (hc : Chain next p zs) : x ∉ xs := by
  obtain ⟨us, hus⟩ := h.mem_chain hc
  have hnodup := hc.nodup
  rw [hus] at hnodup
  exact fun hm => (nodup_append.mp hnodup).2.2 x hm x mem_cons_self rfl

theorem Seg.unique (h : Seg next p xs r) (h' : Seg next p ys r) {zs : List α} (hc : Chain next p zs) : xs = ys := by
  cases r with
  | none => exact Chain.unique h h'
  | some x =>
    obtain ⟨us, hus⟩ := h.mem_chain hc
    obtain ⟨vs, hvs⟩ := h'.mem_chain hc
    have hx := h.not_mem hc
    have hy := h'.not_mem hc
    -- the node stands at one place of the chain
    rcases append_eq_append_iff.mp (hus.symm.trans hvs) with ⟨ws, hxs, hws⟩ | ⟨ws, hxs, hws⟩
    · cases ws with
      | nil => simpa using hxs.symm
      | cons w ws =>
        obtain rfl : x = w := (List.cons.inj hws).1
        exact absurd (hxs ▸ mem_append_right _ mem_cons_self) hy
    · cases ws with
      | nil => simpa using hxs
      | cons w ws =>
        obtain rfl : x = w := (List.cons.inj hws).1
        exact absurd (hxs ▸ mem_append_right _ mem_cons_self) hx

theorem Above.antisymm (h : Above next s x) (h' : Above next x s) (hc : Chain next (some s) xs) : s = x := by
  obtain ⟨ys, hys⟩ := h
  obtain ⟨zs, hzs⟩ := h'
  have hnil : ys ++ zs = [] := (hys.trans hzs).unique (show Seg next (some s) [] (some s) from rfl) hc
  obtain rfl := (append_eq_nil_iff.mp hnil).1
  exact some.inj hys

/-- The least node above both. -/
structure Lca (next : α → Option α) (s t x : α) : Prop where
  left : Above next s x
  right : Above next t x
  least : ∀ y, Above next s y → Above next t y → Above next x y

theorem lca_above (h : Above next s t) : Lca next s t t := ⟨h, Above.refl next t, fun _ _ hy => hy⟩

theorem lca_below (h : Above next t s) : Lca next s t s := ⟨Above.refl next s, h, fun _ hy _ => hy⟩

theorem lca_sibling (hs : next s = some q) (ht : next t = some q) (hne : s ≠ t) (hc : Chain next (some s) xs) : Lca next s t q := by
  refine ⟨Above.up hs (Above.refl next q), Above.up ht (Above.refl next q), ?_⟩
  intro y hsy hty
  by_cases hy : s = y
  · -- `s` would be above itself
    subst hy
    obtain ⟨q', hq', hup⟩ := hty.of_ne hne.symm
    obtain rfl : q' = q := some.inj (hq'.symm.trans ht)
    obtain ⟨hx, hxs⟩ : ∃ zs, Seg next (some s) (s :: zs) (some s) := by
      obtain ⟨zs, hzs⟩ := hup
      exact ⟨zs, rfl, hs ▸ hzs⟩
    have := hxs.unique (show Seg next (some s) [] (some s) from rfl) hc
    cases this
  · obtain ⟨q', hq', hup⟩ := hsy.of_ne hy
    obtain rfl : q' = q := some.inj (hq'.symm.trans hs)
    exact hup

end Linked
