/-
# A byte memory with 32-bit words

Memory is a byte at each address, a 32-bit word four of them, the low one first. `Same P m m'` says
that `m'` differs from `m` at most where `P` holds, `Holds m a bs` that `bs` stand at `a`, and
`Agree m m' a b` that the memories are the same from `a` up to `b`.
-/
import Mathlib

namespace ByteMem

open List Function

abbrev Mem := ℕ → UInt8

/-- The half word at `a`. -/
def load16 (m : Mem) (a : ℕ) : ℕ := (m a).toNat + 256 * (m (a + 1)).toNat

/-- The word at `a`. -/
def load32 (m : Mem) (a : ℕ) : ℕ :=
  (m a).toNat + 256 * (m (a + 1)).toNat + 65536 * (m (a + 2)).toNat + 16777216 * (m (a + 3)).toNat

theorem load16_lt (m : Mem) (a : ℕ) : load16 m a < 2 ^ 16 := by
  have h0 := (m a).toNat_lt
  have h1 := (m (a + 1)).toNat_lt
  unfold load16
  omega

theorem load32_lt (m : Mem) (a : ℕ) : load32 m a < 2 ^ 32 := by
  have h0 := (m a).toNat_lt
  have h1 := (m (a + 1)).toNat_lt
  have h2 := (m (a + 2)).toNat_lt
  have h3 := (m (a + 3)).toNat_lt
  unfold load32
  omega

/-- What a byte of a word says of its low `t` bits. -/
theorem byte_modEq {t k x y : ℕ} (h : 8 * k < t → x = y) : 2 ^ (8 * k) * x ≡ 2 ^ (8 * k) * y [MOD 2 ^ t] := by
  by_cases hk : 8 * k < t
  · rw [h hk]
  · have hdvd : 2 ^ t ∣ 2 ^ (8 * k) := pow_dvd_pow 2 (not_lt.mp hk)
    exact (Nat.modEq_zero_iff_dvd.mpr (hdvd.mul_right x)).trans (Nat.modEq_zero_iff_dvd.mpr (hdvd.mul_right y)).symm

theorem load32_bits {m m' : Mem} {a a' s n : ℕ} (h : ∀ k < 4, 8 * k < s + n → m (a + k) = m' (a' + k)) :
    load32 m a / 2 ^ s % 2 ^ n = load32 m' a' / 2 ^ s % 2 ^ n := by
  have hk : ∀ k < 4, 2 ^ (8 * k) * (m (a + k)).toNat ≡ 2 ^ (8 * k) * (m' (a' + k)).toNat [MOD 2 ^ (s + n)] :=
    fun k hk => byte_modEq fun hlt => by rw [h k hk hlt]
  have hsum := (((hk 0 (by decide)).add (hk 1 (by decide))).add (hk 2 (by decide))).add (hk 3 (by decide))
  have heq : ∀ (m : Mem) (a : ℕ), load32 m a = 2 ^ (8 * 0) * (m (a + 0)).toNat + 2 ^ (8 * 1) * (m (a + 1)).toNat +
      2 ^ (8 * 2) * (m (a + 2)).toNat + 2 ^ (8 * 3) * (m (a + 3)).toNat := by
    intro m a
    simp [load32]
  rw [← heq, ← heq] at hsum
  rw [← Nat.mod_mul_right_div_self, ← Nat.mod_mul_right_div_self, ← pow_add]
  exact congrArg (· / 2 ^ s) hsum

/-- The `n` bits from bit `pos` on, the low one of each byte first. -/
def bits (m : Mem) (pos n : ℕ) : ℕ := load32 m (pos / 8) / 2 ^ (pos % 8) % 2 ^ n

theorem bits_lt (m : Mem) (pos n : ℕ) : bits m pos n < 2 ^ n := Nat.mod_lt _ (Nat.two_pow_pos _)

theorem bits_same {m m' : Mem} {pos pos' n : ℕ} (hpos : pos % 8 = pos' % 8)
    (h : ∀ k < 4, 8 * k < pos % 8 + n → m (pos / 8 + k) = m' (pos' / 8 + k)) : bits m pos n = bits m' pos' n := by
  unfold bits
  rw [← hpos]
  exact load32_bits h

theorem bits_mod (m : Mem) (pos : ℕ) {r n : ℕ} (h : r ≤ n) : bits m pos n % 2 ^ r = bits m pos r :=
  Nat.mod_mod_of_dvd _ (pow_dvd_pow 2 h)

theorem bits_div (m : Mem) {pos r n : ℕ} (h : pos % 8 + r = 8) (hr : r ≤ n) (hn : n - r ≤ 24) :
    bits m pos n / 2 ^ r = bits m (pos + r) (n - r) := by
  have hbyte : ∀ a : ℕ, load32 m a / 2 ^ 8 = load32 m (a + 1) % 2 ^ 24 := by
    intro a
    have h0 := (m a).toNat_lt
    have h1 := (m (a + 1)).toNat_lt
    have h2 := (m (a + 2)).toNat_lt
    have h3 := (m (a + 3)).toNat_lt
    have hnext : load32 m (a + 1) =
      (m (a + 1)).toNat + 256 * (m (a + 2)).toNat + 65536 * (m (a + 3)).toNat + 16777216 * (m (a + 4)).toNat := rfl
    rw [hnext]
    unfold load32
    omega
  have hdiv : (pos + r) / 8 = pos / 8 + 1 := by omega
  have hmod : (pos + r) % 8 = 0 := by omega
  unfold bits
  rw [hdiv, hmod, Nat.pow_zero, Nat.div_one, ← Nat.add_sub_cancel' hr, pow_add, Nat.mod_mul_right_div_self,
    Nat.div_div_eq_div_mul, ← pow_add, h, hbyte, Nat.mod_mod_of_dvd _ (Nat.pow_dvd_pow 2 (by omega)), Nat.add_sub_cancel_left]

theorem join_eq_iff {r n e low x : ℕ} (hr : r ≤ n) (hn : n ≤ 32) (he : e < 2 ^ n) (hlow : low < 2 ^ r) :
    (low ||| x * 2 ^ r % 2 ^ 32) % 2 ^ n = e ↔ low = e % 2 ^ r ∧ x % 2 ^ (n - r) = e / 2 ^ r := by
  have hhigh : x * 2 ^ r % 2 ^ 32 = 2 ^ r * (x % 2 ^ (32 - r)) := by
    rw [mul_comm, ← Nat.mul_mod_mul_left, ← pow_add, Nat.add_sub_cancel' (hr.trans hn)]
  have hjoin : (low ||| x * 2 ^ r % 2 ^ 32) % 2 ^ n = low + 2 ^ r * (x % 2 ^ (n - r)) := by
    rw [hhigh, Nat.or_comm, ← Nat.two_pow_add_eq_or_of_lt hlow, ← Nat.add_sub_cancel' hr, pow_add, Nat.mod_mul,
      Nat.mul_add_mod, Nat.mod_eq_of_lt hlow, Nat.mul_add_div (Nat.two_pow_pos _), Nat.div_eq_of_lt hlow, Nat.add_zero,
      Nat.mod_mod_of_dvd _ (Nat.pow_dvd_pow 2 (by omega)), Nat.add_sub_cancel_left]
  rw [hjoin]
  constructor
  · rintro rfl
    rw [Nat.add_mul_mod_self_left, Nat.mod_eq_of_lt hlow, Nat.add_mul_div_left _ _ (Nat.two_pow_pos _),
      Nat.div_eq_of_lt hlow, zero_add]
    exact ⟨rfl, rfl⟩
  · rintro ⟨rfl, hx⟩
    rw [hx]
    exact Nat.mod_add_div _ _

/-- Write the word `v` at `a`. -/
def store32 (m : Mem) (a v : ℕ) : Mem := fun i =>
  if a ≤ i ∧ i < a + 4 then UInt8.ofNat (v / 256 ^ (i - a)) else m i

/-- The memories agree wherever `P` does not hold. -/
def Same (P : ℕ → Prop) (m m' : Mem) : Prop := ∀ i, ¬ P i → m' i = m i

theorem load32_store32 (m : Mem) (a : ℕ) {v : ℕ} (h : v < 2 ^ 32) : load32 (store32 m a v) a = v := by
  unfold load32 store32
  simp only [UInt8.toNat_ofNat', show a ≤ a ∧ a < a + 4 by omega, show a ≤ a + 1 ∧ a + 1 < a + 4 by omega,
    show a ≤ a + 2 ∧ a + 2 < a + 4 by omega, show a ≤ a + 3 ∧ a + 3 < a + 4 by omega, and_self, ↓reduceIte,
    Nat.sub_self, Nat.add_sub_cancel_left]
  omega

/-! ### Memories that agree outside a set of addresses -/

theorem Same.refl (P : ℕ → Prop) (m : Mem) : Same P m m := fun _ _ => rfl

theorem Same.trans {P : ℕ → Prop} {m m' m'' : Mem} (h : Same P m m') (h' : Same P m' m'') :
    Same P m m'' := fun i hi => (h' i hi).trans (h i hi)

theorem Same.mono {P Q : ℕ → Prop} {m m' : Mem} (h : Same P m m') (hPQ : ∀ i, P i → Q i) :
    Same Q m m' := fun i hi => h i fun hp => hi (hPQ i hp)

theorem Same.load32 {P : ℕ → Prop} {m m' : Mem} (h : Same P m m') {a : ℕ}
    (ha : ∀ i, a ≤ i → i < a + 4 → ¬ P i) : load32 m' a = load32 m a := by
  unfold ByteMem.load32
  rw [h a (ha a (by omega) (by omega)), h (a + 1) (ha _ (by omega) (by omega)),
    h (a + 2) (ha _ (by omega) (by omega)), h (a + 3) (ha _ (by omega) (by omega))]

theorem same_store32 (m : Mem) (a v : ℕ) : Same (fun i => a ≤ i ∧ i < a + 4) m (store32 m a v) :=
  fun _ hi => if_neg hi

/-! ### Words one behind the other -/

/-- The words from `a` on. -/
def storeWords (m : Mem) (a : ℕ) : List ℕ → Mem
  | [] => m
  | w :: ws => storeWords (store32 m a w) (a + 4) ws

theorem same_storeWords : ∀ (ws : List ℕ) (m : Mem) (a : ℕ), Same (fun i => a ≤ i ∧ i < a + 4 * ws.length) m (storeWords m a ws)
  | [], m, _ => Same.refl _ m
  | w :: ws, m, a => by
    have hhead := (same_store32 m a w).mono (Q := fun i => a ≤ i ∧ i < a + 4 * (w :: ws).length) fun i hi => by
      rw [length_cons]
      omega
    have htail := (same_storeWords ws (store32 m a w) (a + 4)).mono (Q := fun i => a ≤ i ∧ i < a + 4 * (w :: ws).length) fun i hi => by
      rw [length_cons]
      omega
    exact hhead.trans htail

theorem load32_storeWords : ∀ (ws : List ℕ) (m : Mem) (a k : ℕ), (∀ w ∈ ws, w < 2 ^ 32) → k < ws.length →
    load32 (storeWords m a ws) (a + 4 * k) = ws.getD k 0
  | [], _, _, _, _, hk => absurd hk (Nat.not_lt_zero _)
  | w :: ws, m, a, 0, hlt, _ => by
    have hrest := same_storeWords ws (store32 m a w) (a + 4)
    calc load32 (storeWords m a (w :: ws)) (a + 4 * 0) = load32 (store32 m a w) a := hrest.load32 fun i _ hi => by omega
      _ = w := load32_store32 m a (hlt w mem_cons_self)
  | w :: ws, m, a, k + 1, hlt, hk => by
    have ih := load32_storeWords ws (store32 m a w) (a + 4) k (fun x hx => hlt x (mem_cons_of_mem _ hx)) (Nat.lt_of_succ_lt_succ hk)
    have hidx : a + 4 * (k + 1) = a + 4 + 4 * k := by ring
    rw [hidx]
    exact ih

/-! ### Bytes that stand at an address -/

/-- The bytes `bs` stand at `a`. -/
def Holds (m : Mem) (a : ℕ) (bs : List UInt8) : Prop := ∀ i (h : i < bs.length), m (a + i) = bs[i]

/-- The memories are the same from `a` up to `b`. -/
def Agree (m m' : Mem) (a b : ℕ) : Prop := ∀ i, a ≤ i → i < b → m i = m' i

variable {m m' : Mem} {a b c : ℕ} {bs cs : List UInt8}

theorem holds_nil (m : Mem) (a : ℕ) : Holds m a [] := fun _ h => absurd h (Nat.not_lt_zero _)

theorem holds_append : Holds m a (bs ++ cs) ↔ Holds m a bs ∧ Holds m (a + bs.length) cs := by
  constructor
  · intro h
    refine ⟨fun i hi => ?_, fun i hi => ?_⟩
    · rw [h i (by rw [length_append]; omega), getElem_append_left hi]
    · rw [Nat.add_assoc, h (bs.length + i) (by rw [length_append]; omega), getElem_append_right (Nat.le_add_right ..)]
      simp
  · rintro ⟨hb, hc⟩ i hi
    by_cases hlt : i < bs.length
    · rw [getElem_append_left hlt, hb i hlt]
    · rw [getElem_append_right (not_lt.mp hlt), ← hc (i - bs.length) (by rw [length_append] at hi; omega)]
      congr 1
      omega

theorem holds_cons {x : UInt8} : Holds m a (x :: bs) ↔ m a = x ∧ Holds m (a + 1) bs := by
  rw [← singleton_append, holds_append]
  refine and_congr ⟨fun h => h 0 (by simp), fun h i hi => ?_⟩ Iff.rfl
  obtain rfl : i = 0 := by simpa using hi
  exact h

theorem Holds.update (h : Holds m a bs) {x : ℕ} (hx : ¬ (a ≤ x ∧ x < a + bs.length)) (v : UInt8) :
    Holds (Function.update m x v) a bs := by
  intro i hi
  rw [update_of_ne (by omega)]
  exact h i hi

theorem Agree.holds (h : Agree m m' a b) (hb : a + bs.length ≤ b) : Holds m a bs ↔ Holds m' a bs :=
  forall₂_congr fun i hi => by rw [h (a + i) (Nat.le_add_right ..) (by omega)]

theorem Agree.mono (h : Agree m m' a b) (hc : a ≤ c) : Agree m m' c b := fun i hi hib => h i (hc.trans hi) hib

theorem Agree.update (h : Agree m m' a b) {x : ℕ} {v : UInt8} (hx : a ≤ x → x < b → m' x = v) :
    Agree (Function.update m x v) m' a b := by
  intro i hi hib
  by_cases hix : i = x
  · subst hix
    rw [update_self, hx hi hib]
  · rw [update_of_ne hix]
    exact h i hi hib

end ByteMem
