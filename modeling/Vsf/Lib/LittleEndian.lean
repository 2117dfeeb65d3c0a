/-
# Words in a list of bytes

Words of 16 and 32 bits, the low byte first, read from a list of bytes and written over a part of
it.
-/
import Mathlib

namespace LE

open List

/-- The byte at `i`. -/
def get8 (b : List UInt8) (i : ℕ) : UInt8 := b.getD i 0

def get16 (b : List UInt8) (i : ℕ) : UInt16 := UInt16.ofNat ((get8 b i).toNat + 256 * (get8 b (i + 1)).toNat)

def get32 (b : List UInt8) (i : ℕ) : UInt32 :=
  UInt32.ofNat ((get8 b i).toNat + 256 * (get8 b (i + 1)).toNat + 65536 * (get8 b (i + 2)).toNat +
    16777216 * (get8 b (i + 3)).toNat)

def bytes16 (v : UInt16) : List UInt8 := [UInt8.ofNat v.toNat, UInt8.ofNat (v.toNat / 256)]

def bytes32 (v : UInt32) : List UInt8 :=
  [UInt8.ofNat v.toNat, UInt8.ofNat (v.toNat / 256), UInt8.ofNat (v.toNat / 65536), UInt8.ofNat (v.toNat / 16777216)]

/-- `bs` in place of what stands at `i`. -/
def put (b : List UInt8) (i : ℕ) (bs : List UInt8) : List UInt8 := b.take i ++ bs ++ b.drop (i + bs.length)

variable {b bs : List UInt8} {i j : ℕ}

@[simp] theorem bytes16_length (v : UInt16) : (bytes16 v).length = 2 := rfl

@[simp] theorem bytes32_length (v : UInt32) : (bytes32 v).length = 4 := rfl

theorem get8_append_right (xs ys : List UInt8) (i : ℕ) : get8 (xs ++ ys) (xs.length + i) = get8 ys i := by
  unfold get8
  rw [getD_append_right _ _ _ _ (Nat.le_add_right ..), Nat.add_sub_cancel_left]

theorem get8_append_left {xs ys : List UInt8} (h : i < xs.length) : get8 (xs ++ ys) i = get8 xs i := by
  unfold get8
  rw [getD_append _ _ _ _ h]

theorem get16_bytes16 (v : UInt16) (rest : List UInt8) : get16 (bytes16 v ++ rest) 0 = v := by
  apply UInt16.toNat_inj.mp
  simp only [get16, get8, bytes16, cons_append, getD_cons_zero, getD_cons_succ, zero_add,
    UInt8.toNat_ofNat', UInt16.toNat_ofNat']
  have := v.toNat_lt
  omega

theorem get32_bytes32 (v : UInt32) (rest : List UInt8) : get32 (bytes32 v ++ rest) 0 = v := by
  apply UInt32.toNat_inj.mp
  simp only [get32, get8, bytes32, cons_append, getD_cons_zero, getD_cons_succ, zero_add,
    UInt8.toNat_ofNat', UInt32.toNat_ofNat']
  have := v.toNat_lt
  omega

theorem get32_append_right (xs ys : List UInt8) (i : ℕ) : get32 (xs ++ ys) (xs.length + i) = get32 ys i := by
  unfold get32
  simp only [add_assoc, get8_append_right]

@[simp] theorem length_words (ws : List UInt32) : (ws.flatMap bytes32).length = 4 * ws.length := by
  simp [length_flatMap, mul_comm]

theorem get32_words : ∀ (ws : List UInt32) (k : ℕ), k < ws.length → get32 (ws.flatMap bytes32) (4 * k) = ws.getD k 0
  | [], k, h => absurd h (Nat.not_lt_zero _)
  | w :: ws, 0, _ => by
    rw [flatMap_cons]
    exact get32_bytes32 w _
  | w :: ws, k + 1, h => by
    have hk : 4 * (k + 1) = (bytes32 w).length + 4 * k := by
      rw [bytes32_length]
      omega
    rw [flatMap_cons, hk, get32_append_right, getD_cons_succ]
    exact get32_words ws k (Nat.lt_of_succ_lt_succ h)

/-! ### Writing over a part -/

@[simp] theorem length_put (h : i + bs.length ≤ b.length) : (put b i bs).length = b.length := by
  simp only [put, length_append, length_take, length_drop]
  omega

theorem put_all (h : bs.length = b.length) : put b 0 bs = bs := by
  simp [put, h]

theorem getElem?_put (h : i + bs.length ≤ b.length) (j : ℕ) :
    (put b i bs)[j]? = if i ≤ j ∧ j < i + bs.length then bs[j - i]? else b[j]? := by
  have hi : (b.take i).length = i := by
    rw [length_take]
    omega
  unfold put
  rw [append_assoc]
  by_cases hj : j < i
  · rw [getElem?_append_left (hi.symm ▸ hj), getElem?_take_of_lt hj, if_neg (by omega)]
  · rw [getElem?_append_right (by omega), hi]
    by_cases hjb : j < i + bs.length
    · rw [getElem?_append_left (by omega), if_pos ⟨by omega, hjb⟩]
    · rw [getElem?_append_right (by omega), getElem?_drop, if_neg (by omega)]
      congr 1
      omega

/-- What was there before is gone exactly if all bytes are written over. -/
theorem put_congr_iff {n : ℕ} (h : bs.length ≤ n) :
    (∀ b b' : List UInt8, b.length = n → b'.length = n → put b 0 bs = put b' 0 bs) ↔ bs.length = n := by
  constructor
  · intro hall
    by_contra hne
    have hn : bs.length < n := lt_of_le_of_ne h hne
    have heq := hall (List.replicate n 0) (List.replicate n 1) length_replicate length_replicate
    have hlast := congrArg (fun b : List UInt8 => b[bs.length]?) heq
    rw [getElem?_put (by simpa using h), getElem?_put (by simpa using h), if_neg (by omega), if_neg (by omega),
      getElem?_replicate_of_lt hn, getElem?_replicate_of_lt hn] at hlast
    exact absurd hlast (by decide)
  · intro hlen b b' hb hb'
    rw [put_all (hlen.trans hb.symm), put_all (hlen.trans hb'.symm)]

theorem get8_eq_getElem? (b : List UInt8) (i : ℕ) : get8 b i = b[i]?.getD 0 := getD_eq_getElem?_getD ..

/-! ### Fields that are put at fixed places -/

/-- `f` puts `field` into a list of `n` bytes at least, and leaves the others. -/
structure Puts (n : ℕ) (f : List UInt8 → List UInt8) (field : ℕ → Option UInt8) : Prop where
  length : ∀ b : List UInt8, n ≤ b.length → (f b).length = b.length
  get : ∀ b : List UInt8, n ≤ b.length → ∀ j, (f b)[j]? = (field j).or b[j]?

theorem puts_put {n : ℕ} (h : i + bs.length ≤ n) :
    Puts n (fun b => put b i bs) fun j => if i ≤ j ∧ j < i + bs.length then bs[j - i]? else none := by
  constructor
  · intro b hb
    exact length_put (h.trans hb)
  · intro b hb j
    rw [getElem?_put (h.trans hb)]
    split_ifs with hj
    · rw [getElem?_eq_getElem (by omega), Option.some_or]
    · rw [Option.none_or]

theorem Puts.comp {n : ℕ} {f g : List UInt8 → List UInt8} {F G : ℕ → Option UInt8} (hg : Puts n g G) (hf : Puts n f F) :
    Puts n (fun b => g (f b)) fun j => (G j).or (F j) := by
  constructor
  · intro b hb
    rw [hg.length _ (hf.length b hb ▸ hb), hf.length b hb]
  · intro b hb j
    rw [hg.get _ (hf.length b hb ▸ hb), hf.get b hb, Option.or_assoc]

end LE
