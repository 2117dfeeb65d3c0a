/-
# A list that is read page by page

`window z l a n` is what a reader gets that asks for `n` elements from `a` on, with `z` behind the
end. Windows one behind the other are one (`window_append`); pages give the list back just when each
element is where it should be (`all_windows_iff`).
-/
import Mathlib

namespace Paging

open List

variable {α : Type*} {z : α} {l : List α} {a m n w : ℕ} {L : List (List α)}

def window (z : α) (l : List α) (a n : ℕ) : List α := (List.range n).map fun i => l.getD (a + i) z

@[simp] theorem length_window (z : α) (l : List α) (a n : ℕ) : (window z l a n).length = n := by simp [window]

theorem getD_window {i : ℕ} (hi : i < n) : (window z l a n).getD i z = l.getD (a + i) z := by
  simp [window, List.getD, hi]

theorem window_append (z : α) (l : List α) (a m n : ℕ) : window z l a m ++ window z l (a + m) n = window z l a (m + n) := by
  unfold window
  rw [range_add, map_append, map_map]
  congr 1
  refine map_congr_left fun i _ => ?_
  rw [Function.comp_apply, add_assoc]

/-- **Pages of one size** give the list back, up to where they reach. -/
theorem window_pages (z : α) (l : List α) (p : ℕ) : ∀ n, (List.range n).flatMap (fun k => window z l (k * p) p) = window z l 0 (n * p)
  | 0 => by simp [window]
  | n + 1 => by
    have happ := window_append z l 0 (n * p) p
    rw [zero_add] at happ
    rw [range_succ, flatMap_append, window_pages z l p n, flatMap_singleton, happ, Nat.succ_mul]

theorem length_windows (z : α) (l : List α) (a : ℕ → ℕ) (w : ℕ) : ∀ n, ((List.range n).flatMap fun k => window z l (a k) w).length = n * w
  | 0 => by simp
  | n + 1 => by
    rw [range_succ, flatMap_append, length_append, length_windows z l a w n, flatMap_singleton, length_window,
      Nat.succ_mul]

theorem getD_windows (a : ℕ → ℕ) (hw : 0 < w) : ∀ n {i : ℕ}, i < n * w →
    ((List.range n).flatMap fun k => window z l (a k) w).getD i z = l.getD (a (i / w) + i % w) z
  | 0, i, hi => absurd hi (by simp)
  | n + 1, i, hi => by
    have hlen := length_windows z l a w n
    rw [range_succ, flatMap_append, flatMap_singleton]
    by_cases hlt : i < n * w
    · rw [getD_append _ _ _ _ (by rw [hlen]; exact hlt), getD_windows a hw n hlt]
    · rw [Nat.succ_mul] at hi
      obtain ⟨j, rfl⟩ := Nat.exists_eq_add_of_le (not_lt.mp hlt)
      have hj : j < w := by omega
      have hdiv : (n * w + j) / w = n := by
        rw [mul_comm, Nat.mul_add_div hw, Nat.div_eq_of_lt hj, add_zero]
      have hmod : (n * w + j) % w = j := by
        rw [Nat.mul_comm, Nat.mul_add_mod, Nat.mod_eq_of_lt hj]
      rw [getD_append_right _ _ _ _ (by rw [hlen]; omega), hlen, Nat.add_sub_cancel_left, getD_window hj, hdiv, hmod]

/-- **Windows from anywhere give the list** just when each element is in its place. -/
theorem all_windows_iff (a : ℕ → ℕ) (hw : 0 < w) (hn : l.length ≤ n * w) :
    ((List.range n).flatMap fun k => window z l (a k) w).take l.length = l ↔
      ∀ i < l.length, l.getD (a (i / w) + i % w) z = l.getD i z := by
  have hlen := length_windows z l a w n
  constructor
  · intro heq i hi
    have hget := congrArg (fun t : List α => t.getD i z) heq
    rw [← getD_windows a hw n (hi.trans_le hn), ← hget]
    simp [List.getD, hi]
  · intro hall
    refine ext_getElem (by rw [length_take, hlen]; omega) fun i hi hi' => ?_
    have hget := getD_windows (z := z) (l := l) a hw n (hi'.trans_le hn)
    rw [hall i hi', getD_eq_getElem _ _ hi', getD_eq_getElem _ _ (by rw [hlen]; omega)] at hget
    rw [getElem_take, hget]

theorem window_drop (z : α) (l : List α) (a n : ℕ) : window z (l.drop a) 0 n = window z l a n := by
  unfold window
  refine map_congr_left fun i _ => ?_
  simp [List.getD, getElem?_drop]

theorem window_eq (z : α) (l : List α) (n : ℕ) : (l ++ List.replicate n z).take n = window z l 0 n := by
  refine ext_getElem (by simp) fun i hi _ => ?_
  simp only [window, getElem_map, getElem_range, getElem_take, zero_add]
  by_cases hl : i < l.length
  · rw [getElem_append_left hl, getD_eq_getElem _ _ hl]
  · rw [getElem_append_right (by omega), getElem_replicate, getD_eq_default _ _ (by omega)]

theorem window_take (h : n ≤ m) : window z (l.take m) 0 n = window z l 0 n := by
  unfold window
  refine map_congr_left fun i hi => ?_
  have hn := List.mem_range.mp hi
  simp [List.getD, show i < m by omega]

/-- A window that reaches the end of the list has all there is. -/
theorem window_window (h : l.length ≤ w) (n : ℕ) : window z (window z l 0 w) 0 n = window z l 0 n := by
  unfold window
  refine map_congr_left fun i _ => ?_
  rw [zero_add]
  by_cases hw : i < w
  · simp [List.getD, hw]
  · rw [getD_eq_default _ _ (by simpa using hw), getD_eq_default _ _ (by omega)]

theorem flatten_drop : ∀ {L : List (List α)}, (∀ x ∈ L, x.length = w) → ∀ a, (L.drop a).flatten = L.flatten.drop (w * a)
  | [], _, a => by simp
  | x :: L, h, 0 => by simp
  | x :: L, h, a + 1 => by
    have hx := h x mem_cons_self
    have hall : x.drop (w * (a + 1)) = [] := drop_of_length_le (by rw [hx, Nat.mul_succ]; omega)
    rw [drop_succ_cons, flatten_drop (fun y hy => h y (mem_cons_of_mem _ hy)) a, flatten_cons, drop_append,
      hall, nil_append, hx, Nat.mul_succ, Nat.add_sub_cancel]

theorem flatten_take : ∀ {L : List (List α)}, (∀ x ∈ L, x.length = w) → ∀ a, (L.take a).flatten = L.flatten.take (w * a)
  | [], _, a => by simp
  | x :: L, h, 0 => by simp
  | x :: L, h, a + 1 => by
    have hx := h x mem_cons_self
    have hall : x.take (w * (a + 1)) = x := take_of_length_le (by rw [hx, Nat.mul_succ]; omega)
    rw [take_succ_cons, flatten_cons, flatten_take (fun y hy => h y (mem_cons_of_mem _ hy)) a, flatten_cons,
      take_append, hall, hx, Nat.mul_succ, Nat.add_sub_cancel]

theorem length_pieces : ∀ {L : List (List α)}, (∀ x ∈ L, x.length = w) → L.flatten.length = w * L.length
  | [], _ => rfl
  | x :: L, h => by
    rw [flatten_cons, length_append, h x mem_cons_self, length_pieces fun y hy => h y (mem_cons_of_mem _ hy),
      length_cons, Nat.mul_succ, add_comm]

theorem window_pieces (h : ∀ x ∈ L, x.length = w) (a q : ℕ) :
    window z ((L.drop a).take q).flatten 0 (w * q) = window z L.flatten (w * a) (w * q) := by
  rw [flatten_take (fun x hx => h x (mem_of_mem_drop hx)), window_take (le_refl _), flatten_drop h, window_drop]

end Paging
