/-
# Pages of things that are put in their order

Things of some size are put into pages of `cap`, each into the page of the one before it or, where
it does not fit, into the next (`page`, `rest`, `behind`). A reader of one page walks over what
comes before it (`walk_behind`), but puts all from there on that fit into it, `fill`: the page just
when nothing behind it fits (`fill_iff`).
-/
import Mathlib

namespace NextFit

open List

variable {α : Type*} (size : α → ℕ) (cap : ℕ)

/-- What goes into a page with `u` in it, up to the first that does not fit. -/
def page : ℕ → List α → List α
  | _, [] => []
  | u, x :: xs => if u + size x ≤ cap then x :: page (u + size x) xs else []

/-- What comes behind that page. -/
def rest : ℕ → List α → List α
  | _, [] => []
  | u, x :: xs => if u + size x ≤ cap then rest (u + size x) xs else x :: xs

/-- All that fit, also behind one that does not. -/
def fill : ℕ → List α → List α
  | _, [] => []
  | u, x :: xs => if u + size x ≤ cap then x :: fill (u + size x) xs else fill u xs

/-- What comes behind `k` pages. -/
def behind : ℕ → List α → List α
  | 0, xs => xs
  | k + 1, xs => behind k (rest size cap 0 xs)

/-- A walk to the page after `k` more, with `u` in the page it is in. -/
def walk : ℕ → ℕ → List α → List α
  | _, _, [] => []
  | 0, u, x :: xs => if u + size x ≤ cap then x :: walk 0 (u + size x) xs else walk 0 u xs
  | k + 1, u, x :: xs =>
    if u + size x ≤ cap then walk (k + 1) (u + size x) xs
    else if k = 0 then x :: walk k (size x) xs
    else walk k (size x) xs

def total (xs : List α) : ℕ := (xs.map size).sum

/-- How far the things reach, from the beginning of a page with `u` in it. -/
def span : ℕ → List α → ℕ
  | u, [] => u
  | u, x :: xs => if u + size x ≤ cap then span (u + size x) xs else cap + span (size x) xs

variable {size cap} {u : ℕ} {xs : List α}

theorem total_cons (x : α) (xs : List α) : total size (x :: xs) = size x + total size xs := by simp [total]

theorem total_append (xs ys : List α) : total size (xs ++ ys) = total size xs + total size ys := by simp [total]

theorem page_rest (xs : List α) : ∀ u, page size cap u xs ++ rest size cap u xs = xs := by
  induction xs with
  | nil => exact fun _ => rfl
  | cons x xs ih =>
    intro u
    unfold page rest
    split_ifs
    · rw [cons_append, ih]
    · rfl

theorem page_le (xs : List α) : ∀ {u}, u ≤ cap → u + total size (page size cap u xs) ≤ cap := by
  induction xs with
  | nil => exact fun h => h
  | cons x xs ih =>
    intro u hu
    unfold page
    split_ifs with h
    · have := ih h
      rw [total_cons]
      omega
    · exact hu

theorem fill_le (xs : List α) : ∀ {u}, u ≤ cap → u + total size (fill size cap u xs) ≤ cap := by
  induction xs with
  | nil => exact fun h => h
  | cons x xs ih =>
    intro u hu
    unfold fill
    split_ifs with h
    · have := ih h
      rw [total_cons]
      omega
    · exact ih hu

theorem fill_sub (xs : List α) : ∀ u, ∀ x ∈ fill size cap u xs, x ∈ xs := by
  induction xs with
  | nil => exact fun _ _ hx => hx
  | cons y xs ih =>
    intro u x hx
    unfold fill at hx
    split_ifs at hx
    · rcases mem_cons.mp hx with rfl | hx
      · exact mem_cons_self
      · exact mem_cons_of_mem _ (ih _ x hx)
    · exact mem_cons_of_mem _ (ih _ x hx)

/-- **What is filled** is the page, and what fits behind it. -/
theorem fill_eq (xs : List α) : ∀ u, fill size cap u xs =
    page size cap u xs ++ fill size cap (u + total size (page size cap u xs)) (rest size cap u xs) := by
  induction xs with
  | nil => exact fun _ => rfl
  | cons x xs ih =>
    intro u
    by_cases h : u + size x ≤ cap
    · rw [fill, page, rest, if_pos h, if_pos h, if_pos h, ih, total_cons, add_assoc, cons_append]
    · rw [page, rest, if_neg h, if_neg h]
      rfl

theorem fill_nil (xs : List α) : ∀ u, fill size cap u xs = [] ↔ ∀ x ∈ xs, cap < u + size x := by
  induction xs with
  | nil => exact fun _ => ⟨fun _ x hx => absurd hx not_mem_nil, fun _ => rfl⟩
  | cons x xs ih =>
    intro u
    rw [fill, forall_mem_cons]
    by_cases h : u + size x ≤ cap
    · rw [if_pos h]
      exact ⟨fun hx => absurd hx (cons_ne_nil _ _), fun hx => absurd hx.1 (not_lt.mpr h)⟩
    · rw [if_neg h, ih]
      exact ⟨fun hx => ⟨not_le.mp h, hx⟩, fun hx => hx.2⟩

/-- **The page is what is filled** just when nothing behind it fits. -/
theorem fill_iff : fill size cap u xs = page size cap u xs ↔
    ∀ x ∈ rest size cap u xs, cap < u + total size (page size cap u xs) + size x := by
  rw [fill_eq, append_right_eq_self, fill_nil]

/-! ### Where a page begins -/

theorem behind_empty : ∀ k, behind size cap k ([] : List α) = []
  | 0 => rfl
  | k + 1 => behind_empty k

theorem walk_zero (xs : List α) : ∀ u, walk size cap 0 u xs = fill size cap u xs := by
  induction xs with
  | nil => exact fun _ => rfl
  | cons x xs ih =>
    intro u
    rw [walk, fill, ih, ih]

/-- **A walk finds where the page begins**. -/
theorem walk_behind (xs : List α) : ∀ (k u : ℕ), (∀ x ∈ xs, size x ≤ cap) →
    walk size cap (k + 1) u xs = fill size cap 0 (behind size cap k (rest size cap u xs)) := by
  induction xs with
  | nil =>
    intro k u _
    rw [walk, rest, behind_empty]
    rfl
  | cons x xs ih =>
    intro k u hsize
    have hx : 0 + size x ≤ cap := by
      rw [zero_add]
      exact hsize x mem_cons_self
    have hxs : ∀ y ∈ xs, size y ≤ cap := fun y hy => hsize y (mem_cons_of_mem _ hy)
    rw [walk, rest]
    split_ifs with h hk
    · exact ih k _ hxs
    · subst hk
      rw [walk_zero, behind, fill, if_pos hx, zero_add]
    · obtain ⟨j, rfl⟩ := Nat.exists_eq_succ_of_ne_zero hk
      rw [Nat.succ_eq_add_one, ih j _ hxs, behind, rest, if_pos hx, zero_add]

theorem behind_succ (k : ℕ) : ∀ xs : List α, behind size cap (k + 1) xs = rest size cap 0 (behind size cap k xs) := by
  induction k with
  | zero => exact fun _ => rfl
  | succ k ih => exact fun xs => ih (rest size cap 0 xs)

theorem pages_behind (xs : List α) : ∀ n,
    (List.range n).flatMap (fun k => page size cap 0 (behind size cap k xs)) ++ behind size cap n xs = xs
  | 0 => rfl
  | n + 1 => by
    rw [range_succ, flatMap_append, flatMap_singleton, append_assoc, behind_succ, page_rest,
      pages_behind xs n]

theorem rest_sub (xs : List α) : ∀ u, ∀ x ∈ rest size cap u xs, x ∈ xs := by
  intro u x hx
  rw [← page_rest xs u]
  exact mem_append_right _ hx

theorem behind_sub (k : ℕ) : ∀ xs : List α, ∀ x ∈ behind size cap k xs, x ∈ xs := by
  induction k with
  | zero => exact fun _ _ hx => hx
  | succ k ih => exact fun xs x hx => rest_sub xs 0 x (ih _ x hx)

/-! ### How many pages there are -/

theorem span_eq (xs : List α) : ∀ u, (∀ x ∈ xs, size x ≤ cap) → span size cap u xs =
    if rest size cap u xs = [] then u + total size xs else cap + span size cap 0 (rest size cap u xs) := by
  induction xs with
  | nil => exact fun _ _ => rfl
  | cons x xs ih =>
    intro u hsize
    have hx : 0 + size x ≤ cap := by
      rw [zero_add]
      exact hsize x mem_cons_self
    have hxs := ih (u + size x) fun y hy => hsize y (mem_cons_of_mem _ hy)
    by_cases h : u + size x ≤ cap
    · rw [span, rest, if_pos h, if_pos h, hxs, total_cons, add_assoc]
    · have hone : span size cap 0 (x :: xs) = span size cap (size x) xs := by rw [span, if_pos hx, zero_add]
      rw [rest, if_neg h, if_neg (cons_ne_nil _ _), hone, span, if_neg h]

theorem total_le (h : rest size cap u xs = []) (hu : u ≤ cap) : u + total size xs ≤ cap := by
  have hpage : page size cap u xs ++ rest size cap u xs = xs := page_rest xs u
  rw [h, append_nil] at hpage
  have hle : u + total size (page size cap u xs) ≤ cap := page_le xs hu
  rwa [hpage] at hle

theorem total_pos (hpos : ∀ x ∈ xs, 0 < size x) (h : xs ≠ []) : 0 < total size xs := by
  cases xs with
  | nil => exact absurd rfl h
  | cons x xs =>
    have := hpos x mem_cons_self
    rw [total_cons]
    omega

/-- **There are as many pages** as how far the things reach takes. -/
theorem behind_iff (hcap : 0 < cap) (k : ℕ) : ∀ xs : List α, (∀ x ∈ xs, 0 < size x ∧ size x ≤ cap) →
    (behind size cap k xs ≠ [] ↔ k < (span size cap 0 xs + (cap - 1)) / cap) := by
  have hzero : ∀ xs : List α, (∀ x ∈ xs, 0 < size x ∧ size x ≤ cap) → (xs ≠ [] ↔ 0 < (span size cap 0 xs + (cap - 1)) / cap) := by
    intro xs hsize
    have hspan := span_eq xs 0 fun x hx => (hsize x hx).2
    rw [Nat.div_pos_iff]
    constructor
    · intro hne
      have hpos := total_pos (fun x hx => (hsize x hx).1) hne
      refine ⟨hcap, ?_⟩
      split_ifs at hspan
      · omega
      · omega
    · rintro ⟨-, hle⟩ rfl
      rw [span] at hle
      omega
  induction k with
  | zero => exact hzero
  | succ k ih =>
    intro xs hsize
    have hspan := span_eq xs 0 fun x hx => (hsize x hx).2
    have hrest := ih (rest size cap 0 xs) fun x hx => hsize x (rest_sub xs 0 x hx)
    rw [behind, hrest, hspan]
    split_ifs with hnil
    · have hle := total_le hnil (Nat.zero_le cap)
      rw [hnil, span, Nat.zero_add, Nat.div_eq_of_lt (by omega)]
      have hone : (0 + total size xs + (cap - 1)) / cap ≤ 1 := by
        rw [Nat.div_le_iff_le_mul_add_pred hcap]
        omega
      omega
    · rw [add_assoc, add_comm cap, Nat.add_div_right _ hcap]
      omega

theorem behind_nil (hcap : 0 < cap) (hsize : ∀ x ∈ xs, 0 < size x ∧ size x ≤ cap) {n : ℕ}
    (hn : (span size cap 0 xs + (cap - 1)) / cap ≤ n) : behind size cap n xs = [] := by
  by_contra hne
  exact absurd ((behind_iff hcap n xs hsize).mp hne) (not_lt.mpr hn)

theorem fill_empty (hsize : ∀ x ∈ xs, size x ≤ cap) : fill size cap 0 xs = [] ↔ xs = [] := by
  cases xs with
  | nil => exact ⟨fun _ => rfl, fun _ => rfl⟩
  | cons x xs =>
    rw [fill, if_pos (by rw [zero_add]; exact hsize x mem_cons_self)]
    exact ⟨fun h => absurd h (cons_ne_nil _ _), fun h => absurd h (cons_ne_nil _ _)⟩

/-- A list is cut in one place only, for a weight in front. -/
theorem append_total_inj {w : α → ℕ} {xs xs' ys ys' : List α} (hw : ∀ x ∈ xs ++ xs', 0 < w x) (happ : xs ++ xs' = ys ++ ys')
    (h : total w xs = total w ys) : xs = ys ∧ xs' = ys' := by
  have hnil : ∀ {as bs : List α}, (∀ x ∈ bs, 0 < w x) → total w as = total w (as ++ bs) → bs = [] := by
    intro as bs hbs heq
    by_contra hne
    have hpos : 0 < total w bs := total_pos hbs hne
    rw [total_append] at heq
    omega
  rcases append_eq_append_iff.mp happ with ⟨as, rfl, rfl⟩ | ⟨as, rfl, rfl⟩
  · obtain rfl := hnil (fun x hx => hw x (mem_append_right _ (mem_append_left _ hx))) h
    exact ⟨(append_nil xs).symm, rfl⟩
  · obtain rfl := hnil (fun x hx => hw x (mem_append_left _ (mem_append_right _ hx))) h.symm
    exact ⟨append_nil ys, rfl⟩

/-! ### Nothing is filled twice -/

theorem total_flatMap (w : α → ℕ) (f : ℕ → List α) (n : ℕ) :
    total w ((List.range n).flatMap f) = ∑ k ∈ Finset.range n, total w (f k) := by
  induction n with
  | zero => rfl
  | succ n ih => rw [range_succ, flatMap_append, flatMap_singleton, total_append, ih, Finset.sum_range_succ]

/-- **If no more is filled than there is**, then the pages are. -/
theorem filled_page {w : α → ℕ} (hw : ∀ x ∈ xs, 0 < w x) {n : ℕ} (hn : behind size cap n xs = [])
    (h : total w ((List.range n).flatMap fun k => fill size cap 0 (behind size cap k xs)) = total w xs) {k : ℕ} (hk : k < n) :
    fill size cap 0 (behind size cap k xs) = page size cap 0 (behind size cap k xs) := by
  have hpages : (List.range n).flatMap (fun k => page size cap 0 (behind size cap k xs)) ++ behind size cap n xs = xs :=
    pages_behind xs n
  rw [hn, append_nil] at hpages
  have hsum : ∀ k, total w (fill size cap 0 (behind size cap k xs)) = total w (page size cap 0 (behind size cap k xs)) +
      total w (fill size cap (0 + total size (page size cap 0 (behind size cap k xs))) (rest size cap 0 (behind size cap k xs))) := by
    intro k
    rw [← total_append, ← fill_eq]
  have hzero : ∑ k ∈ Finset.range n,
      total w (fill size cap (0 + total size (page size cap 0 (behind size cap k xs))) (rest size cap 0 (behind size cap k xs))) = 0 := by
    have hall := congrArg (total w) hpages
    rw [total_flatMap] at hall h
    simp only [hsum, Finset.sum_add_distrib] at h
    omega
  have hone := Finset.sum_eq_zero_iff.mp hzero k (Finset.mem_range.mpr hk)
  rw [fill_eq, append_right_eq_self]
  by_contra hne
  have hpos : 0 < total w (fill size cap (0 + total size (page size cap 0 (behind size cap k xs)))
      (rest size cap 0 (behind size cap k xs))) :=
    total_pos (fun x hx => hw x (behind_sub k xs x (rest_sub _ 0 x (fill_sub _ _ x hx)))) hne
  omega

end NextFit
