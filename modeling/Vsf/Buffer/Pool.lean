/-
# A pool of items

A pool has an array of flags and one of items; `vsfpool_alloc` takes the first item whose flag is
clear. The storage is laid out with `sizeof(type)`, but the code rounds the size up to 4; and the
bytes of the flags that are cleared are `(num + 31) >> 3`, too many when the last word stands for
more than 8 items.
-/
import Mathlib
import Vsf.Buffer.Bittool
import Vsf.Lib.System

namespace Vsf
namespace Pool

open ByteMem Bittool

/-- `VSFPOOL_DEFINE`: the place of the object, `sizeof(type)`, `num`, and the padding. Objects are below
half of the memory. -/
structure Decl where
  addr : ℕ
  size : ℕ
  num : ℕ
  pad : ℕ
  size_pos : 0 < size
  num_pos : 0 < num
  fits : 16 + 4 * ((num + 31) / 32) + pad + num * size < 2 ^ 31
  space : addr + (16 + 4 * ((num + 31) / 32) + pad + num * size) ≤ 2 ^ 32

namespace Decl

section

variable (d : Decl)

/-- The words of `mskarr`. -/
def words : ℕ := (d.num + 31) / 32

/-- `pool.flags`. -/
def flags : ℕ := d.addr + 16

/-- `pool.buffer`. -/
def buffer : ℕ := d.flags + 4 * d.words + d.pad

/-- `pool.item_size`, as `vsfpool_init` leaves it. -/
def itemSize : UInt32 := (UInt32.ofNat d.size + 3) &&& ~~~3

/-- `vsfpool_init`. -/
def init (m : Mem) : Mem := fun a => if d.flags ≤ a ∧ a < d.flags + (d.num + 31) / 8 then 0 else m a

/-- `(uint8_t *)pool->buffer + index * pool->item_size`. -/
def item (index : UInt32) : ℕ := (d.buffer + (index * d.itemSize).toNat) % 2 ^ 32

/-- `vsfpool_alloc`. -/
def alloc (m : Mem) : Mem × Option ℕ :=
  let index := UInt32.ofInt (mskarrFfz m d.flags d.words)
  if index.toNat < d.num then (mskarrSet m d.flags index.toNat, some (d.item index)) else (m, none)

/-- `vsfpool_free`. -/
def free (m : Mem) (p : ℕ) : Mem × Bool :=
  let index := (UInt32.ofNat p - UInt32.ofNat d.buffer) / d.itemSize
  if index.toNat < d.num then (mskarrClr m d.flags index.toNat, true) else (m, false)

/-- The memory, and the items that were taken and not given back. -/
structure State where
  mem : Mem
  live : List ℕ

inductive Op
  | alloc
  | free (p : ℕ)
  | use (p a : ℕ) (v : UInt8)

/-- An item that is live is given back, or written to. -/
inductive Step (d : Decl) : State → Op → State → Prop
  | null {s : State} (h : (d.alloc s.mem).2 = none) : Step d s .alloc { s with mem := (d.alloc s.mem).1 }
  | alloc {s : State} {p : ℕ} (h : (d.alloc s.mem).2 = some p) :
      Step d s .alloc { mem := (d.alloc s.mem).1, live := p :: s.live }
  | free {s : State} {p : ℕ} (h : p ∈ s.live) : Step d s (.free p) { mem := (d.free s.mem p).1, live := s.live.erase p }
  | use {s : State} {p a : ℕ} {v : UInt8} (h : p ∈ s.live) (ha : p ≤ a ∧ a < p + d.size) :
      Step d s (.use p a v) { s with mem := Function.update s.mem a v }

/-- A pool after `VSFPOOL_INIT`, whatever was in the memory. -/
def system : System State Op where
  start s := ∃ m, s = { mem := d.init m, live := [] }
  step := Step d

/-- The item at `p` can be had. -/
def Available (m : Mem) (p : ℕ) : Prop := ∃ k < d.num, flag m d.flags k = false ∧ d.item (UInt32.ofNat k) = p

/-- What is asked of a pool. -/
structure Right : Prop where
  init : ∀ m a, ¬(d.flags ≤ a ∧ a < d.flags + 4 * d.words) → d.init m a = m a
  null : ∀ s, d.system.Reach s → ((d.alloc s.mem).2 = none ↔ s.live.length = d.num)
  item : ∀ s, d.system.Reach s → ∀ p, (d.alloc s.mem).2 = some p →
    p ∉ s.live ∧ d.buffer ≤ p ∧ p + d.size ≤ d.buffer + d.num * d.size ∧ ∀ q ∈ s.live, p + d.size ≤ q ∨ q + d.size ≤ p
  free : ∀ s, d.system.Reach s → ∀ p ∈ s.live, (d.free s.mem p).2 = true ∧ ¬d.Available s.mem p ∧
    ∀ q, d.Available (d.free s.mem p).1 q ↔ d.Available s.mem q ∨ q = p

end

variable {d : Decl} {m : Mem}

theorem le_words (d : Decl) : d.num ≤ 32 * d.words := by
  unfold words
  omega

theorem num_le (d : Decl) : d.num ≤ d.num * d.size := Nat.le_mul_of_pos_right _ d.size_pos

theorem size_le (d : Decl) : d.size ≤ d.num * d.size := Nat.le_mul_of_pos_left _ d.num_pos

theorem toNat_itemSize (d : Decl) : d.itemSize.toNat = (d.size + 3) / 4 * 4 := by
  have hfits := d.fits
  have hle := d.size_le
  have hsum : (UInt32.ofNat d.size + 3).toNat = d.size + 3 := by
    rw [UInt32.toNat_add, UInt32.toNat_ofNat', show (3 : UInt32).toNat = 3 from rfl]
    omega
  rw [itemSize, toNat_and_not_three, hsum]

/-! ### What the operations do -/

theorem ofInt_natCast (k : ℕ) : UInt32.ofInt (k : ℤ) = UInt32.ofNat k := by
  apply UInt32.toNat_inj.mp
  rw [UInt32.ofInt, UInt32.toNat_ofNat', UInt32.toNat_ofNat']
  omega

theorem alloc_cases (d : Decl) (m : Mem) : (d.alloc m = (m, none) ∧ ∀ k < d.num, flag m d.flags k = true) ∨
      ∃ k < d.num, d.alloc m = (mskarrSet m d.flags k, some (d.item (UInt32.ofNat k))) ∧ flag m d.flags k = false ∧
        ∀ j < k, flag m d.flags j = true := by
  have hfits := d.fits
  have hnum := d.num_le
  have hlast : d.words = (d.num + 31) / 32 := rfl
  rcases mskarrFfz_cases m d.flags d.words with ⟨hf, hall⟩ | ⟨k, hk, hf, h0, hlow⟩
  · refine .inl ⟨?_, fun k hk => hall k (by omega)⟩
    rw [alloc, hf]
    refine if_neg ?_
    show ¬2 ^ 32 - 1 < d.num
    omega
  · have hindex : (UInt32.ofNat k).toNat = k := by
      rw [UInt32.toNat_ofNat', Nat.mod_eq_of_lt (by omega)]
    rw [alloc, hf, ofInt_natCast]
    simp only [hindex]
    by_cases hkn : k < d.num
    · refine .inr ⟨k, hkn, if_pos hkn, h0, hlow⟩
    · refine .inl ⟨if_neg hkn, fun j hj => hlow j (by omega)⟩

variable {k : ℕ} {s : State}

theorem free_eq {p : ℕ} (h : ((UInt32.ofNat p - UInt32.ofNat d.buffer) / d.itemSize).toNat = k) (hk : k < d.num) :
    d.free m p = (mskarrClr m d.flags k, true) := by
  subst h
  exact if_pos hk

theorem flag_init (hk : k < 32 * d.words) : flag (d.init m) d.flags k = false := by
  refine flag_zero (n := d.words) ?_ hk
  intro a hle hlt
  refine if_pos ⟨hle, ?_⟩
  have hlast : d.words = (d.num + 31) / 32 := rfl
  omega

/-! ### A pool that fits its storage -/

/-- The size is a multiple of 4, or there is one item only. -/
def Strides (d : Decl) : Prop := 4 ∣ d.size ∨ d.num = 1

theorem mul_itemSize (h : d.Strides) {k : ℕ} (hk : k < d.num) : k * d.itemSize.toNat = k * d.size := by
  rcases h with h | h
  · rw [toNat_itemSize]
    congr 1
    omega
  · obtain rfl : k = 0 := by omega
    rw [Nat.zero_mul, Nat.zero_mul]

theorem item_eq (h : d.Strides) {k : ℕ} (hk : k < d.num) : d.item (UInt32.ofNat k) = d.buffer + k * d.size := by
  have hspace := d.space
  have hnum := d.num_le
  have hmul : (k + 1) * d.size ≤ d.num * d.size := Nat.mul_le_mul_right _ hk
  rw [Nat.add_mul, Nat.one_mul] at hmul
  have hpos := d.size_pos
  have hb : d.buffer = d.addr + 16 + 4 * ((d.num + 31) / 32) + d.pad := rfl
  have hprod : (UInt32.ofNat k * d.itemSize).toNat = k * d.size := by
    rw [UInt32.toNat_mul, UInt32.toNat_ofNat', Nat.mod_eq_of_lt (a := k) (by omega), mul_itemSize h hk,
      Nat.mod_eq_of_lt (by omega)]
  rw [item, hprod, Nat.mod_eq_of_lt (by omega)]

theorem index_eq (h : d.Strides) {k : ℕ} (hk : k < d.num) :
    ((UInt32.ofNat (d.buffer + k * d.size) - UInt32.ofNat d.buffer) / d.itemSize).toNat = k := by
  have hfits := d.fits
  have hmul : (k + 1) * d.size ≤ d.num * d.size := Nat.mul_le_mul_right _ hk
  rw [Nat.add_mul, Nat.one_mul] at hmul
  have hpos := d.size_pos
  have hdiff : UInt32.ofNat (d.buffer + k * d.size) - UInt32.ofNat d.buffer = UInt32.ofNat (k * d.size) := by
    rw [UInt32.ofNat_add, UInt32.add_comm, UInt32.add_sub_cancel]
  have hisz : 0 < d.itemSize.toNat := by
    rw [toNat_itemSize]
    omega
  rw [hdiff, UInt32.toNat_div, UInt32.toNat_ofNat', Nat.mod_eq_of_lt (by omega), ← mul_itemSize h hk,
    Nat.mul_div_cancel _ hisz]

theorem item_apart {j : ℕ} (h : j ≠ k) :
    d.buffer + j * d.size + d.size ≤ d.buffer + k * d.size ∨ d.buffer + k * d.size + d.size ≤ d.buffer + j * d.size := by
  rcases Nat.lt_or_gt_of_ne h with hlt | hlt
  · have := Nat.mul_le_mul_right d.size (show j + 1 ≤ k from hlt)
    rw [Nat.add_mul, Nat.one_mul] at this
    exact .inl (by omega)
  · have := Nat.mul_le_mul_right d.size (show k + 1 ≤ j from hlt)
    rw [Nat.add_mul, Nat.one_mul] at this
    exact .inr (by omega)

theorem item_inj {j : ℕ} (h : d.buffer + j * d.size = d.buffer + k * d.size) : j = k := by
  have hpos := d.size_pos
  by_contra hne
  rcases item_apart (d := d) hne with hlt | hlt <;> omega

/-- The items that are live are those whose flag is set. -/
structure Inv (d : Decl) (s : State) : Prop where
  nodup : s.live.Nodup
  live : ∀ p, p ∈ s.live ↔ ∃ k < d.num, flag s.mem d.flags k = true ∧ d.buffer + k * d.size = p

theorem Inv.length (h : d.Inv s) : s.live.length = d.num ↔ ∀ k < d.num, flag s.mem d.flags k = true := by
  have hinj : Function.Injective fun k : ℕ => d.buffer + k * d.size := fun _ _ => item_inj
  have hcard : s.live.length = ((Finset.range d.num).filter fun k => flag s.mem d.flags k = true).card := by
    rw [← List.toFinset_card_of_nodup h.nodup, ← Finset.card_image_of_injective ((Finset.range d.num).filter _) hinj]
    congr 1
    ext p
    simp only [List.mem_toFinset, h.live, Finset.mem_image, Finset.mem_filter, Finset.mem_range, and_assoc]
  rw [hcard]
  constructor
  · intro heq k hk
    have hall := Finset.filter_card_eq (heq.trans (Finset.card_range d.num).symm)
    exact hall k (Finset.mem_range.mpr hk)
  · intro hall
    rw [Finset.filter_true_of_mem fun k hk => hall k (Finset.mem_range.mp hk), Finset.card_range]

theorem Inv.start (m : Mem) : d.Inv { mem := d.init m, live := [] } where
  nodup := List.nodup_nil
  live p := by
    constructor
    · intro hp
      cases hp
    · rintro ⟨k, hk, hf, -⟩
      have hwords := d.le_words
      rw [flag_init (by omega)] at hf
      cases hf

theorem Inv.alloc (h : d.Inv s) {k : ℕ} (hk : k < d.num) (h0 : flag s.mem d.flags k = false) :
    d.buffer + k * d.size ∉ s.live ∧
      d.Inv { mem := mskarrSet s.mem d.flags k, live := (d.buffer + k * d.size) :: s.live } := by
  have hnot : d.buffer + k * d.size ∉ s.live := by
    intro hp
    obtain ⟨j, _, hf, hj⟩ := (h.live _).mp hp
    rw [item_inj hj, h0] at hf
    cases hf
  refine ⟨hnot, List.nodup_cons.mpr ⟨hnot, h.nodup⟩, fun p => ?_⟩
  simp only [List.mem_cons, flag_mskarrSet]
  constructor
  · rintro (rfl | hp)
    · exact ⟨k, hk, if_pos rfl, rfl⟩
    · obtain ⟨j, hj, hf, hjp⟩ := (h.live p).mp hp
      exact ⟨j, hj, by rw [hf, ite_self], hjp⟩
  · rintro ⟨j, hj, hf, rfl⟩
    by_cases hjk : j = k
    · exact .inl (hjk ▸ rfl)
    · rw [if_neg hjk] at hf
      exact .inr ((h.live _).mpr ⟨j, hj, hf, rfl⟩)

theorem Inv.free {s : State} (h : d.Inv s) {k : ℕ} (hp : d.buffer + k * d.size ∈ s.live) :
    d.Inv { mem := mskarrClr s.mem d.flags k, live := s.live.erase (d.buffer + k * d.size) } := by
  refine ⟨h.nodup.erase _, fun p => ?_⟩
  simp only [h.nodup.mem_erase_iff, flag_mskarrClr, h.live]
  constructor
  · rintro ⟨hne, j, hj, hf, rfl⟩
    have hjk : j ≠ k := by
      rintro rfl
      exact hne rfl
    exact ⟨j, hj, by rw [if_neg hjk, hf], rfl⟩
  · rintro ⟨j, hj, hf, rfl⟩
    have hjk : j ≠ k := by
      rintro rfl
      rw [if_pos rfl] at hf
      cases hf
    rw [if_neg hjk] at hf
    exact ⟨fun heq => hjk (item_inj heq), j, hj, hf, rfl⟩

theorem Inv.use (h : d.Inv s) {p a : ℕ} {v : UInt8} (hp : p ∈ s.live) (ha : p ≤ a) :
    d.Inv { s with mem := Function.update s.mem a v } := by
  obtain ⟨k, -, -, rfl⟩ := (h.live p).mp hp
  have hwords := d.le_words
  have hb : d.buffer = d.flags + 4 * d.words + d.pad := rfl
  have hflag : ∀ j < d.num, flag (Function.update s.mem a v) d.flags j = flag s.mem d.flags j := fun j hj =>
    flag_congr (n := d.words) (fun i _ hi => Function.update_of_ne (by omega) v s.mem) (by omega)
  refine ⟨h.nodup, fun q => ?_⟩
  rw [h.live]
  constructor
  · rintro ⟨j, hj, hf, hq⟩
    exact ⟨j, hj, (hflag j hj).trans hf, hq⟩
  · rintro ⟨j, hj, hf, hq⟩
    exact ⟨j, hj, (hflag j hj).symm.trans hf, hq⟩

theorem Inv.index (h : d.Inv s) (hs : d.Strides) {p : ℕ} (hp : p ∈ s.live) :
    ∃ k < d.num, p = d.buffer + k * d.size ∧ flag s.mem d.flags k = true ∧
      d.free s.mem p = (mskarrClr s.mem d.flags k, true) := by
  obtain ⟨k, hk, hf, rfl⟩ := (h.live p).mp hp
  exact ⟨k, hk, rfl, hf, free_eq (index_eq hs hk) hk⟩

theorem Inv.reach (hs : d.Strides) {s : State} (h : d.system.Reach s) : d.Inv s := by
  refine h.invariant ?_ ?_
  · rintro s ⟨m, rfl⟩
    exact .start m
  · intro s i s' _ hinv hstep
    cases hstep with
    | null hnone =>
      rcases alloc_cases d s.mem with ⟨ha, -⟩ | ⟨k, hk, ha, -, -⟩
      · rw [ha]
        exact hinv
      · rw [ha] at hnone
        cases hnone
    | alloc hsome =>
      rcases alloc_cases d s.mem with ⟨ha, -⟩ | ⟨k, hk, ha, h0, -⟩
      · rw [ha] at hsome
        cases hsome
      · rw [ha] at hsome ⊢
        obtain rfl := Option.some.inj hsome
        rw [item_eq hs hk]
        exact (hinv.alloc hk h0).2
    | free hp =>
      obtain ⟨k, hk, rfl, -, hfree⟩ := hinv.index hs hp
      rw [hfree]
      exact hinv.free hp
    | use hp ha => exact hinv.use hp ha.1

theorem available_iff (hs : d.Strides) {q : ℕ} :
    d.Available m q ↔ ∃ k < d.num, flag m d.flags k = false ∧ d.buffer + k * d.size = q := by
  unfold Available
  refine exists_congr fun k => and_congr_right fun hk => ?_
  rw [item_eq hs hk]

/-- A pool whose items have the size of the storage and whose flags are all cleared. -/
theorem right_of_strides (hs : d.Strides) (hw : (d.num - 1) % 32 < 8) : d.Right where
  init m a ha := by
    have hnum := d.num_pos
    have hlast : d.words = (d.num + 31) / 32 := rfl
    exact if_neg (by omega)
  null s hr := by
    rw [(Inv.reach hs hr).length]
    rcases alloc_cases d s.mem with ⟨ha, hall⟩ | ⟨k, hk, ha, h0, -⟩
    · rw [ha]
      exact iff_of_true rfl hall
    · rw [ha]
      refine iff_of_false (by simp) fun hall => ?_
      rw [hall k hk] at h0
      cases h0
  item s hr p hp := by
    have hinv := Inv.reach hs hr
    rcases alloc_cases d s.mem with ⟨ha, -⟩ | ⟨k, hk, ha, h0, -⟩
    · rw [ha] at hp
      cases hp
    rw [ha, item_eq hs hk] at hp
    obtain rfl := Option.some.inj hp
    have hmul : (k + 1) * d.size ≤ d.num * d.size := Nat.mul_le_mul_right _ hk
    rw [Nat.add_mul, Nat.one_mul] at hmul
    refine ⟨(hinv.alloc hk h0).1, Nat.le_add_right .., by omega, ?_⟩
    intro q hq
    obtain ⟨j, -, hf, rfl⟩ := (hinv.live q).mp hq
    refine item_apart ?_
    rintro rfl
    rw [h0] at hf
    cases hf
  free s hr p hp := by
    obtain ⟨k, hk, rfl, hf, hfree⟩ := (Inv.reach hs hr).index hs hp
    refine ⟨by rw [hfree], ?_, ?_⟩
    · rw [available_iff hs]
      rintro ⟨j, -, hj, heq⟩
      rw [item_inj heq, hf] at hj
      cases hj
    · intro q
      rw [hfree, available_iff hs, available_iff hs]
      simp only [flag_mskarrClr]
      constructor
      · rintro ⟨j, hj, hfj, rfl⟩
        by_cases hjk : j = k
        · exact .inr (hjk ▸ rfl)
        · rw [if_neg hjk] at hfj
          exact .inl ⟨j, hj, hfj, rfl⟩
      · rintro (⟨j, hj, hfj, rfl⟩ | rfl)
        · exact ⟨j, hj, by rw [hfj, ite_self], rfl⟩
        · exact ⟨k, hk, if_pos rfl, rfl⟩

/-! ### A pool that does not -/

theorem cleared_of_right (h : d.Right) : (d.num - 1) % 32 < 8 := by
  by_contra hge
  have hlast : d.words = (d.num + 31) / 32 := rfl
  -- the byte behind the flags is cleared
  have hkept := h.init (fun _ => 1) (d.flags + 4 * d.words) (by omega)
  rw [init, if_pos ⟨by omega, by omega⟩] at hkept
  cases hkept

theorem alloc_next (hk : k < d.num) (hf : ∀ j < 32 * d.words, flag m d.flags j = decide (j < k)) :
    d.alloc m = (mskarrSet m d.flags k, some (d.item (UInt32.ofNat k))) := by
  have hwords := d.le_words
  have hclear : flag m d.flags k = false := by
    rw [hf k (by omega), decide_eq_false (lt_irrefl k)]
  rcases alloc_cases d m with ⟨-, hall⟩ | ⟨i, hi, ha, h0, hlow⟩
  · rw [hall k hk] at hclear
    cases hclear
  · have hik : i = k := by
      rw [hf i (by omega), decide_eq_false_iff_not] at h0
      rcases lt_or_ge k i with hlt | hge
      · rw [hlow k hlt] at hclear
        cases hclear
      · omega
    rw [ha, hik]

theorem exists_taken (d : Decl) : ∀ k ≤ d.num, ∃ s, d.system.Reach s ∧
    ∀ j < 32 * d.words, flag s.mem d.flags j = decide (j < k)
  | 0, _ => by
    refine ⟨_, .start ⟨fun _ => 0, rfl⟩, fun j hj => ?_⟩
    rw [decide_eq_false (Nat.not_lt_zero j)]
    exact flag_init hj
  | k + 1, hk => by
    obtain ⟨s, hr, hf⟩ := exists_taken d k (Nat.le_of_succ_le hk)
    have ha := alloc_next hk hf
    have hstep : Step d s .alloc { mem := (d.alloc s.mem).1, live := d.item (UInt32.ofNat k) :: s.live } :=
      .alloc (by rw [ha])
    refine ⟨_, hr.step (i := .alloc) hstep, fun j hj => ?_⟩
    show flag (d.alloc s.mem).1 d.flags j = decide (j < k + 1)
    rw [ha, flag_mskarrSet, hf j hj]
    split_ifs with hjk
    · rw [decide_eq_true (by omega)]
    · congr 1
      exact propext ⟨fun h => by omega, fun h => by omega⟩

theorem item_inside (h : d.Right) {k : ℕ} (hk : k < d.num) :
    d.buffer ≤ d.item (UInt32.ofNat k) ∧ d.item (UInt32.ofNat k) + d.size ≤ d.buffer + d.num * d.size := by
  obtain ⟨s, hr, hf⟩ := exists_taken d k hk.le
  obtain ⟨-, hlo, hhi, -⟩ := h.item s hr _ (by rw [alloc_next hk hf])
  exact ⟨hlo, hhi⟩

theorem steps_fit (h : d.Right) : ∀ k < d.num, k * d.itemSize.toNat + d.size ≤ d.num * d.size
  | 0, _ => by
    rw [Nat.zero_mul, zero_add]
    exact d.size_le
  | k + 1, hk => by
    have ih := steps_fit h k (Nat.lt_of_succ_lt hk)
    obtain ⟨hlo, hhi⟩ := item_inside h hk
    have hspace := d.space
    have hnum := d.num_le
    have hisz := d.toNat_itemSize
    have hmul : (k + 1) * d.itemSize.toNat = k * d.itemSize.toNat + d.itemSize.toNat := Nat.succ_mul ..
    have hprod : (UInt32.ofNat (k + 1) * d.itemSize).toNat = (k + 1) * d.itemSize.toNat := by
      rw [UInt32.toNat_mul, UInt32.toNat_ofNat', Nat.mod_eq_of_lt (a := k + 1) (by omega), Nat.mod_eq_of_lt (by omega)]
    rw [item, hprod] at hlo hhi
    omega

theorem strides_of_right (h : d.Right) : d.Strides := by
  by_contra hnot
  unfold Strides at hnot
  push Not at hnot
  have hnum := d.num_pos
  have hisz := d.toNat_itemSize
  have hlast := steps_fit h (d.num - 1) (by omega)
  -- a step is longer than an item
  have hlong : d.size + 1 ≤ d.itemSize.toNat := by omega
  have hmul := Nat.mul_le_mul_left (d.num - 1) hlong
  have hsplit : d.num * d.size = (d.num - 1) * d.size + d.size := by
    rw [← Nat.succ_mul, Nat.succ_eq_add_one, Nat.sub_add_cancel hnum]
  rw [Nat.mul_add, Nat.mul_one] at hmul
  omega

/-- **A pool is a set of its items** exactly if the size is a multiple of 4 or there is one item, and the
last word of flags is for 8 at most. -/
theorem pool_right (d : Decl) : d.Right ↔ (4 ∣ d.size ∨ d.num = 1) ∧ (d.num - 1) % 32 < 8 :=
  ⟨fun h => ⟨strides_of_right h, cleared_of_right h⟩, fun h => right_of_strides h.1 h.2⟩

/-- Sixteen items of 24 bytes. -/
def sixteen : Decl :=
  { addr := 0x20000000, size := 24, num := 16, pad := 0
    size_pos := by decide, num_pos := by decide, fits := by decide, space := by decide }

/-- The first byte of the first item is cleared. -/
theorem pool_sixteen : ¬sixteen.Right := by
  intro h
  have hkept := h.init (fun _ => 1) sixteen.buffer (by decide)
  rw [init, if_pos (by decide)] at hkept
  cases hkept

end Decl

end Pool
end Vsf
