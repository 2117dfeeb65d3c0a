/-
# Ring buffers

`contents buf size start len` is what a ring of `size` slots holds from slot `start` on. Adding at
the end, taking from the front and reading a window are equations on this list; writing a slot
outside it changes nothing. `copy` is the block move between two arrays.
-/
import Mathlib

namespace RingBuf

open List

variable {α β : Type*}

/-- The `len` elements from slot `start` on. -/
def contents (buf : ℕ → α) (size start len : ℕ) : List α :=
  (List.range len).map fun i => buf ((start + i) % size)

/-- `n` elements of `src` from `s` on, written into `dst` from `d` on. -/
def copy (dst : ℕ → α) (d : ℕ) (src : ℕ → α) (s n : ℕ) : ℕ → α :=
  fun i => if d ≤ i ∧ i < d + n then src (s + (i - d)) else dst i

/-! ### Slots -/

theorem mod_wrap {a size : ℕ} (h : a < 2 * size) : a % size = if a < size then a else a - size := by
  split_ifs with h1
  · exact Nat.mod_eq_of_lt h1
  · rw [Nat.mod_eq_sub_mod (by omega), Nat.mod_eq_of_lt (by omega)]

theorem slot_inj {size start i j : ℕ} (hi : i < size) (hj : j < size)
    (h : (start + i) % size = (start + j) % size) : i = j := by
  have hmod : i ≡ j [MOD size] := Nat.ModEq.add_left_cancel' start h
  exact Nat.ModEq.eq_of_lt_of_lt hmod hi hj

/-! ### The contents -/

@[simp] theorem contents_length (buf : ℕ → α) (size start len : ℕ) :
    (contents buf size start len).length = len := by simp [contents]

@[simp] theorem contents_zero (buf : ℕ → α) (size start : ℕ) : contents buf size start 0 = [] := rfl

theorem contents_congr {buf buf' : ℕ → α} {size start len : ℕ}
    (h : ∀ i < len, buf' ((start + i) % size) = buf ((start + i) % size)) :
    contents buf' size start len = contents buf size start len :=
  map_congr_left fun i hi => h i (List.mem_range.mp hi)

theorem contents_append (buf : ℕ → α) (size start m n : ℕ) :
    contents buf size start (m + n) = contents buf size start m ++ contents buf size (start + m) n := by
  simp only [contents, range_add, map_append, map_map, Function.comp_def, add_assoc]

/-- The start counts only up to a turn of the ring. -/
theorem contents_mod (buf : ℕ → α) (size start len : ℕ) :
    contents buf size (start % size) len = contents buf size start len := by
  simp only [contents, Nat.mod_add_mod]

theorem contents_concat (buf : ℕ → α) (size start len : ℕ) :
    contents buf size start (len + 1) = contents buf size start len ++ [buf ((start + len) % size)] := by
  rw [contents_append]; rfl

theorem contents_cons (buf : ℕ → α) (size start len : ℕ) :
    contents buf size start (len + 1) = buf (start % size) :: contents buf size (start + 1) len := by
  rw [add_comm, contents_append]; rfl

theorem take_contents (buf : ℕ → α) {size start len k : ℕ} (h : k ≤ len) :
    (contents buf size start len).take k = contents buf size start k := by
  obtain ⟨d, rfl⟩ := Nat.exists_eq_add_of_le h
  rw [contents_append, take_left' (contents_length ..)]

theorem drop_contents (buf : ℕ → α) {size start len k : ℕ} (h : k ≤ len) :
    (contents buf size start len).drop k = contents buf size (start + k) (len - k) := by
  obtain ⟨d, rfl⟩ := Nat.exists_eq_add_of_le h
  rw [contents_append, drop_left' (contents_length ..), Nat.add_sub_cancel_left]

theorem contents_straight (buf : ℕ → α) {size start len : ℕ} (h : start + len ≤ size) :
    contents buf size start len = (List.range len).map fun i => buf (start + i) :=
  map_congr_left fun i hi => by
    have := List.mem_range.mp hi
    rw [Nat.mod_eq_of_lt (by omega)]

/-- Writing the slot behind the contents adds an element, while there is room. -/
theorem contents_set (buf : ℕ → α) {size start len : ℕ} (x : α) (h : len < size) :
    contents (Function.update buf ((start + len) % size) x) size start (len + 1) =
      contents buf size start len ++ [x] := by
  rw [contents_concat, Function.update_self]
  congr 1
  refine contents_congr fun i hi => Function.update_of_ne (fun he => ?_) _ _
  have := slot_inj (by omega) h he
  omega

theorem contents_map (f : α → β) (buf : ℕ → α) (size start len : ℕ) :
    contents (fun i => f (buf i)) size start len = (contents buf size start len).map f := by
  simp [contents, Function.comp_def]

end RingBuf
