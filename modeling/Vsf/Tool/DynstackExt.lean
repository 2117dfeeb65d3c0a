/-
# Many words on a stack

`vsf_dynstack_push_ext` pushes words item by item, and `vsf_dynstack_pop_ext` pops them from the
last back. A turn of the second takes what the turn of the first left there (`Popped`), so the words
come back (`ext_round_trip`). Neither takes anything back: when the second item can not be had, the
first one is moved (`ext_kept_iff`).
-/
import Mathlib
import Vsf.Tool.Dynstack

namespace Vsf
namespace Dynstack

open ByteMem Malloc List Option UInt32
open Dynarr (Config Good Inv Keeps item)

variable (c : Config) (A : Allocator) (s : Dynstack)

/-! ### The functions -/

/-- `item_size`, in words. -/
def wordSize : ℕ := (c.stride >>> 2).toNat

/-- `(len + 3) >> 2`. -/
def wordNum (len : UInt32) : ℕ := ((len + 3) >>> 2).toNat

/-- `num`, in items. -/
def itemNum (num : ℕ) : ℕ := (num + wordSize c - 1) / wordSize c

/-- The loop of `vsf_dynstack_push_ext`, of the bytes at `item`. -/
def pushExtLoop : ℕ → Dynstack → List UInt8 → Option (Err × Dynstack)
  | 0, s, _ => some (.none, s)
  | num + 1, s, item =>
    (s.push c A (item.take c.stride.toNat) 1).bind fun r =>
      match r with
      | (.none, s) => pushExtLoop num s (item.drop (4 * wordSize c))
      | (.fail, s) => some (.fail, s)

/-- `vsf_dynstack_push_ext`; there is no division by 0. -/
def pushExt (ptr : List UInt8) (len : UInt32) : Option (Err × Dynstack) :=
  if wordSize c = 0 then none else pushExtLoop c A (itemNum c (wordNum len)) s ptr

/-- `*item-- = out[i - 1]`, and so on down to `out[0]`. -/
def copyLoop (out : ℕ) : ℕ → ℕ → ℕ → Mem → ℕ × ℕ × Mem
  | 0, num, item, m => (num, item, m)
  | i + 1, num, item, m =>
    if 0 < num then copyLoop out i (num - 1) (item - 4) (store32 m item (load32 m (out + 4 * i))) else (num, item, m)

/-- The loop of `vsf_dynstack_pop_ext`; a turn takes a word at least. -/
def popExtLoop : ℕ → ℕ → ℕ → Dynstack → Option (Err × Dynstack)
  | 0, num, _, s => if num = 0 then some (.none, s) else none
  | f + 1, num, item, s =>
    if num = 0 then some (.none, s)
    else
      let out := (s.pop c 1).1.getD 0
      let s := (s.pop c 1).2
      if out = 0 then some (.fail, s)
      else if wordSize c = 0 then none
      else
        let r := copyLoop out (if num % wordSize c ≠ 0 then num % wordSize c else wordSize c) num item s.var.mem
        popExtLoop f r.1 r.2.1 { s with var := { s.var with mem := r.2.2 } }

/-- `vsf_dynstack_pop_ext`, to `ptr`. -/
def popExt (ptr : ℕ) (len : UInt32) : Option (Err × Dynstack) :=
  if wordNum len ≠ 0 then popExtLoop c (wordNum len) (wordNum len) (ptr + 4 * (wordNum len - 1)) s else some (.none, s)

variable {c : Config} {A : Allocator} {s s' : Dynstack} {v : Dynarr} {x src : List UInt8} {xs ys : List (List UInt8)} {m : Mem}
  {ts bs : List ℕ} {q num : ℕ}

theorem four_mul_wordSize (c : Config) : 4 * wordSize c = c.stride.toNat := by
  obtain ⟨r, hr⟩ := Dynarr.four_dvd_stride c
  rw [wordSize, UInt32.toNat_shiftRight, show (2 : UInt32).toNat % 32 = 2 from rfl, Nat.shiftRight_eq_div_pow]
  omega

theorem itemNum_zero (c : Config) : itemNum c 0 = 0 := by
  rw [itemNum, zero_add]
  rcases Nat.eq_zero_or_pos (wordSize c) with hzero | hpos
  · rw [hzero, Nat.div_zero]
  · exact Nat.div_eq_of_lt (by omega)

/-! ### A turn -/

/-- The words at `o` are copied to `q`, from behind. -/
theorem copyLoop_eq {o : ℕ} : ∀ {i n : ℕ} {m : Mem}, i ≤ n → (q + 4 * n ≤ o ∨ o + 4 * i ≤ q + 4 * (n - i)) →
    ∃ m', copyLoop o i n (q + 4 * n - 4) m = (n - i, q + 4 * (n - i) - 4, m') ∧
      ∀ a, m' a = if q + 4 * (n - i) ≤ a ∧ a < q + 4 * n then m (o + (a - (q + 4 * (n - i)))) else m a
  | 0, n, m, _, _ => ⟨m, rfl, fun a => by rw [Nat.sub_zero, if_neg (by omega)]⟩
  | i + 1, n, m, hi, hapart => by
    obtain ⟨m', hloop, hm'⟩ := copyLoop_eq (o := o) (i := i) (n := n - 1)
      (m := store32 m (q + 4 * n - 4) (load32 m (o + 4 * i))) (by omega) (by omega)
    refine ⟨m', ?_, fun a => ?_⟩
    · rw [copyLoop, if_pos (by omega), show q + 4 * n - 4 - 4 = q + 4 * (n - 1) - 4 by omega, hloop,
        show n - 1 - i = n - (i + 1) by omega]
    · have hword : ∀ k < 4, UInt8.ofNat (load32 m (o + 4 * i) / 256 ^ k) = m (o + 4 * i + k) := by
        intro k hk
        have h0 := (m (o + 4 * i)).toNat_lt
        have h1 := (m (o + 4 * i + 1)).toNat_lt
        have h2 := (m (o + 4 * i + 2)).toNat_lt
        have h3 := (m (o + 4 * i + 3)).toNat_lt
        apply UInt8.toNat_inj.mp
        rw [UInt8.toNat_ofNat', load32]
        rcases Nat.eq_zero_or_pos k with rfl | hpos
        · rw [Nat.pow_zero, Nat.div_one]
          show _ = (m (o + 4 * i)).toNat
          omega
        · interval_cases k <;> omega
      rw [hm', show n - 1 - i = n - (i + 1) by omega]
      by_cases hin : q + 4 * (n - (i + 1)) ≤ a ∧ a < q + 4 * n
      · rw [if_pos hin]
        by_cases hlast : a < q + 4 * (n - 1)
        · rw [if_pos ⟨hin.1, hlast⟩, store32, if_neg (by omega)]
        · rw [if_neg (by omega), store32, if_pos (by omega), hword _ (by omega)]
          congr 1
          omega
      · rw [if_neg hin, if_neg (by omega), store32, if_neg (by omega)]

/-- No block that is in use lies in the `num` words at `q`. -/
def Clear (v : Dynarr) (q num : ℕ) : Prop := ∀ b ∈ v.heap.live, q + 4 * num ≤ b.addr ∨ b.addr + b.size ≤ q

theorem Stored.outside (h : Stored c v) (hm : ∀ b ∈ v.heap.live, ∀ a, b.addr ≤ a → a < b.addr + b.size → m a = v.mem a) :
    Stored c { v with mem := m } ∧ Keeps c v { v with mem := m } := by
  rcases h with ⟨hfits, ts, bs, hgood⟩ | ⟨hvoid, hinv, hlen⟩
  · have hlaid : Dynarr.Laid c m v.root ts bs := hgood.inv.laid.congr (hm _ hgood.inv.root_block) fun t ht => by
      have htable := hm _ (hgood.inv.table_block ht)
      rwa [hfits.toNat_tableSize] at htable
    have hgood' : Good c { v with mem := m } ts bs :=
      ⟨⟨hlaid, hgood.inv.ok, hgood.inv.blocks, hgood.inv.nodup, hgood.inv.once⟩, hgood.tight, hgood.buffers, hgood.length⟩
    exact ⟨.inl ⟨hfits, ts, bs, hgood'⟩, hgood.keeps hgood' hfits (fun _ _ _ => rfl) fun p hp => hm _ (hgood.inv.buffer_block hp)⟩
  · have hlaid : Dynarr.Laid c m v.root [] [] := hinv.laid.congr (hm _ hinv.root_block) fun t ht => absurd ht not_mem_nil
    refine ⟨.inr ⟨hvoid, ⟨hlaid, hinv.ok, hinv.blocks, hinv.nodup, hinv.once⟩, hlen⟩, fun pos hpos => ?_⟩
    rw [hlen] at hpos
    exact absurd hpos UInt32.not_lt_zero

theorem get_id (hle : s.sp ≤ s.var.length) {i : UInt32} (hlt : i < s.sp) :
    ∃ id, id < s.var.length ∧ ∀ v : Dynarr, Dynstack.get c ⟨v, s.sp⟩ i = v.get c id := by
  refine ⟨(s.sp - i - 1).toUInt16.toUInt32, ?_, fun v => if_neg (UInt32.not_le.mpr hlt)⟩
  rw [lt_iff_toNat_lt] at hlt ⊢
  rw [le_iff_toNat_le] at hle
  have hsub : (s.sp - i).toNat = s.sp.toNat - i.toNat :=
    UInt32.toNat_sub_of_le _ _ (by rw [le_iff_toNat_le]; omega)
  have hone : (1 : UInt32) ≤ s.sp - i := by
    rw [le_iff_toNat_le, hsub, show (1 : UInt32).toNat = 1 from rfl]
    omega
  have hmod := Nat.mod_le (s.sp - i - 1).toNat (2 ^ 16)
  rw [UInt32.toNat_sub_of_le _ _ hone, hsub, show (1 : UInt32).toNat = 1 from rfl] at hmod
  rw [UInt16.toNat_toUInt32, toNat_toUInt16, UInt32.toNat_sub_of_le _ _ hone, hsub, show (1 : UInt32).toNat = 1 from rfl]
  omega

/-- How many words a turn takes. -/
def turnSize (c : Config) (num : ℕ) : ℕ := if num % wordSize c ≠ 0 then num % wordSize c else wordSize c

/-- What is there after a turn: the last words are those of the item. -/
structure Popped (c : Config) (s : Dynstack) (q num : ℕ) (m : Mem) (out : ℕ) : Prop where
  get : s.get c 0 = some out
  bytes : ∀ a, m a = if q + 4 * (num - turnSize c num) ≤ a ∧ a < q + 4 * num then
    s.var.mem (out + (a - (q + 4 * (num - turnSize c num)))) else s.var.mem a
  stored : Stored c { s.var with mem := m }
  keeps : Keeps c s.var { s.var with mem := m }

theorem toNat_pred {sp : UInt32} (h : 0 < sp.toNat) : (sp - 1).toNat = sp.toNat - 1 :=
  UInt32.toNat_sub_of_le _ _ (by rw [le_iff_toNat_le]; exact h)

theorem turnSize_le (hW : 0 < wordSize c) (hnum : 0 < num) :
    0 < turnSize c num ∧ turnSize c num ≤ num ∧ turnSize c num ≤ wordSize c ∧ itemNum c (num - turnSize c num) + 1 = itemNum c num := by
  have hdm := Nat.div_add_mod num (wordSize c)
  have hlt := Nat.mod_lt num hW
  have hitem : ∀ k r, r ≤ wordSize c → 0 < r → itemNum c (wordSize c * k + r) = k + 1 ∧ itemNum c (wordSize c * k) = k := by
    intro k r hr hpos
    constructor
    · rw [itemNum, show wordSize c * k + r + wordSize c - 1 = wordSize c * (k + 1) + (r - 1) by rw [Nat.mul_succ]; omega,
        Nat.mul_add_div hW, Nat.div_eq_of_lt (by omega), Nat.add_zero]
    · rw [itemNum, Nat.add_sub_assoc hW, Nat.mul_add_div hW, Nat.div_eq_of_lt (by omega), Nat.add_zero]
  unfold turnSize
  by_cases hmod : num % wordSize c ≠ 0
  · rw [if_pos hmod]
    have heq := hitem (num / wordSize c) (num % wordSize c) hlt.le (pos_of_ne_zero hmod)
    rw [hdm] at heq
    refine ⟨pos_of_ne_zero hmod, Nat.mod_le .., hlt.le, ?_⟩
    rw [heq.1, show num - num % wordSize c = wordSize c * (num / wordSize c) by omega, heq.2]
  · rw [if_neg hmod]
    have hpos : 0 < num / wordSize c := by
      rcases eq_zero_or_pos (num / wordSize c) with hzero | hpos
      · rw [hzero] at hdm
        omega
      · exact hpos
    obtain ⟨k, hk⟩ := Nat.exists_eq_succ_of_ne_zero hpos.ne'
    rw [hk, Nat.mul_succ] at hdm
    have heq := hitem k (wordSize c) le_rfl hW
    refine ⟨hW, by omega, le_rfl, ?_⟩
    rw [show num = wordSize c * k + wordSize c by omega, Nat.add_sub_cancel, heq.1, heq.2]

/-- **A turn of `vsf_dynstack_pop_ext`** pops an item and copies its words. -/
theorem Stored.pop_turn (h : Stored c s.var) (hle : s.sp ≤ s.var.length) (hsp : 0 < s.sp.toNat) (hW : 0 < wordSize c) (hnum : 0 < num)
    (hclear : Clear s.var q num) (f : ℕ) : ∃ m out, Popped c s q num m out ∧ popExtLoop c (f + 1) num (q + 4 * num - 4) s =
      popExtLoop c f (num - turnSize c num) (q + 4 * (num - turnSize c num) - 4) ⟨{ s.var with mem := m }, s.sp - 1⟩ := by
  obtain ⟨hpos, hle', hsize, -⟩ := turnSize_le hW hnum
  obtain ⟨id, hid, hget⟩ := get_id (c := c) hle (i := 0) (by rw [lt_iff_toNat_lt]; exact hsp)
  have hget0 : s.get c 0 = s.var.get c id := hget s.var
  obtain ⟨hfits, ts, bs, hgood⟩ : c.Fits ∧ ∃ ts bs, Good c s.var ts bs := by
    refine h.resolve_right ?_
    rintro ⟨-, -, hlen⟩
    rw [hlen] at hid
    exact UInt32.not_lt_zero hid
  have hlt := lt_of_lt_of_le (lt_iff_toNat_lt.mp hid) hgood.le_mul.1
  rw [hgood.inv.get hfits hgood.le_mul.1 hid] at hget0
  obtain ⟨hfirst, hlast⟩ := Dynarr.item_inside hfits bs id.toNat
  have hapart := hclear _ (hgood.inv.buffer_block (Dynarr.buffer_mem hlt))
  have hstride := four_mul_wordSize c
  dsimp only at hapart
  obtain ⟨m, hloop, hm⟩ := copyLoop_eq (q := q) (o := item c bs id.toNat) (m := s.var.mem) hle' (by omega)
  have houter := h.outside (m := m) fun b hb a hlo hhi => by
    have hout := hclear b hb
    rw [hm, if_neg (by omega)]
  refine ⟨m, _, ⟨hget0, hm, houter.1, houter.2⟩, ?_⟩
  have hpop : s.pop c 1 = (some (item c bs id.toNat), { s with sp := s.sp - 1 }) := by
    rw [Dynstack.pop, if_pos ⟨by rw [le_iff_toNat_le]; exact hsp, by decide⟩]
    exact congrArg (·, _) hget0
  have hplace : 0 < item c bs id.toNat :=
    lt_of_lt_of_le (hgood.inv.ok.inside _ (hgood.inv.buffer_block (Dynarr.buffer_mem hlt))).1 hfirst
  rw [popExtLoop, if_neg hnum.ne', hpop]
  simp only [getD_some, if_neg hplace.ne', if_neg hW.ne']
  rw [show (if num % wordSize c ≠ 0 then num % wordSize c else wordSize c) = turnSize c num from rfl, hloop]

/-! ### What was pushed is popped -/

/-- The bytes as items. -/
def chunks (size : ℕ) : ℕ → List UInt8 → List (List UInt8)
  | 0, _ => []
  | k + 1, src => src.take size :: chunks size k (src.drop size)

theorem chunks_flatten (size : ℕ) : ∀ (k : ℕ) (src : List UInt8), src.length = k * size → (chunks size k src).flatten = src
  | 0, src, h => by
    rw [Nat.zero_mul] at h
    rw [eq_nil_of_length_eq_zero h, chunks, flatten_nil]
  | k + 1, src, h => by
    rw [Nat.succ_mul] at h
    rw [chunks, flatten_cons, chunks_flatten size k _ (by rw [length_drop]; omega), take_append_drop]

theorem chunks_length (size : ℕ) : ∀ (k : ℕ) (src : List UInt8), (chunks size k src).length = k
  | 0, _ => rfl
  | k + 1, src => by rw [chunks, length_cons, chunks_length size k]

theorem pushExtLoop_held : ∀ {k : ℕ} {s s' : Dynstack} {xs : List (List UInt8)} {src : List UInt8}, Held c s xs → Stored c s.var →
    xs.length + k ≤ 2 ^ 16 → src.length = k * c.stride.toNat → pushExtLoop c A k s src = some (.none, s') →
    Held c s' ((chunks c.stride.toNat k src).reverse ++ xs) ∧ Stored c s'.var
  | 0, s, s', xs, src, h, hstored, _, _, hpush => by
    obtain ⟨-, rfl⟩ : Err.none = Err.none ∧ s = s' := by simpa [pushExtLoop] using hpush
    exact ⟨h, hstored⟩
  | k + 1, s, s', xs, src, h, hstored, hdepth, hsrc, hpush => by
    rw [Nat.succ_mul] at hsrc
    have hsp := h.sp
    have hx : (src.take c.stride.toNat).length = c.stride.toNat := by
      rw [length_take]
      omega
    obtain ⟨e, s1, heq, hstored1, hcases⟩ := h.push (A := A) hstored (by omega) hx (.inl (by omega))
    rw [pushExtLoop, heq, bind_some, four_mul_wordSize] at hpush
    rcases hcases with ⟨rfl, -, hheld⟩ | ⟨rfl, -⟩
    · have hrest := pushExtLoop_held hheld hstored1 (by rw [length_cons]; omega) (by rw [length_drop]; omega) hpush
      rw [chunks, reverse_cons, append_assoc]
      exact hrest
    · cases hpush

theorem popExtLoop_held (hW : 0 < wordSize c) (ys : List (List UInt8)) : ∀ {f n : ℕ} {s : Dynstack}, n ≤ f →
    itemNum c n = ys.length → Held c s (ys.reverse ++ xs) → Stored c s.var → ys.length + xs.length ≤ 2 ^ 16 → Clear s.var q n →
    ∃ s', popExtLoop c f n (q + 4 * n - 4) s = some (.none, s') ∧ Held c s' xs ∧
      ∀ a, s'.var.mem a = if q ≤ a ∧ a < q + 4 * n then ys.flatten.getD (a - q) 0 else s.var.mem a := by
  induction ys using List.reverseRecOn with
  | nil =>
    intro f n s hf hitems h hstored hdepth hclear
    obtain rfl : n = 0 := by
      by_contra hne
      have hturn := turnSize_le hW (pos_of_ne_zero hne)
      rw [length_nil] at hitems
      omega
    refine ⟨s, ?_, h, fun a => by rw [if_neg (by omega)]⟩
    cases f <;> simp [popExtLoop]
  | append_singleton ys y ih =>
    intro f n s hf hitems h hstored hdepth hclear
    rw [length_append, length_singleton] at hitems hdepth
    have hnum : 0 < n := by
      rcases eq_zero_or_pos n with rfl | hnum
      · rw [itemNum_zero] at hitems
        omega
      · exact hnum
    obtain ⟨hpos, hle, hsize, hsucc⟩ := turnSize_le hW hnum
    rw [reverse_append, reverse_singleton, singleton_append, cons_append] at h
    have hsp : s.sp.toNat = ys.length + xs.length + 1 := by
      rw [h.sp]
      simp
    obtain ⟨f, rfl⟩ := Nat.exists_eq_add_of_lt (show 0 < f by omega)
    rw [zero_add] at hf ⊢
    obtain ⟨m, out, hpop, hloop⟩ := hstored.pop_turn h.le (by omega) hW hnum hclear f
    obtain ⟨-, hheld⟩ := h.pop 1
    rw [show (1 : UInt32).toNat = 1 from rfl, if_pos (by simp), drop_succ_cons, drop_zero, Dynstack.pop,
      if_pos ⟨by rw [le_iff_toNat_le]; show 1 ≤ s.sp.toNat; omega, by decide⟩] at hheld
    have hsub : (s.sp - 1).toNat = ys.length + xs.length := by
      rw [toNat_pred (by omega), hsp]
      rfl
    have hheld' : Held c ⟨{ s.var with mem := m }, s.sp - 1⟩ (ys.reverse ++ xs) :=
      hheld.keeps hpop.keeps hheld.le (by show (s.sp - 1).toNat ≤ _; omega)
    -- the item that is copied is the last one
    obtain ⟨o, ho, hholds⟩ := h.getElem (i := 0) (by simp)
    have hget : s.get c 0 = some o := by
      rw [get_eq (by omega) (by rw [lt_iff_toNat_lt, hsp]; exact Nat.succ_pos _)]
      exact ho
    obtain rfl : o = out := some.inj (hget.symm.trans hpop.get)
    have hy : y.length = c.stride.toNat := h.size y mem_cons_self
    have hitems' : itemNum c (n - turnSize c n) = ys.length := by omega
    obtain ⟨s', hrest, hheld2, hmem⟩ := ih (f := f) (n := n - turnSize c n) (by omega) hitems' hheld' hpop.stored (by omega)
      fun b hb => (hclear b hb).imp (fun hend => by omega) id
    refine ⟨s', hloop.trans hrest, hheld2, fun a => ?_⟩
    have hflat : ys.flatten.length = 4 * (n - turnSize c n) := by
      have hall : ∀ z ∈ ys, z.length = c.stride.toNat := fun z hz => h.size z (by simp [hz])
      have hdm : n - turnSize c n = wordSize c * ys.length := by
        have hmod : (n - turnSize c n) % wordSize c = 0 := by
          unfold turnSize
          split_ifs with hz
          · rw [show n - n % wordSize c = wordSize c * (n / wordSize c) by have := Nat.div_add_mod n (wordSize c); omega,
              Nat.mul_mod_right]
          · rw [Nat.mod_eq_sub_mod (by unfold turnSize at hle; rw [if_neg hz] at hle; exact hle)] at hz
            exact not_not.mp hz
        rw [← hitems', itemNum, Nat.add_sub_assoc hW, ← Nat.div_add_mod (n - turnSize c n) (wordSize c), hmod, Nat.add_zero,
          Nat.mul_add_div hW, Nat.div_eq_of_lt (a := wordSize c - 1) (by omega), Nat.add_zero]
      rw [length_flatten, map_congr_left hall, map_const', sum_replicate, hdm, ← four_mul_wordSize, smul_eq_mul]
      ring
    rw [hmem, flatten_append, flatten_singleton]
    by_cases hin : q ≤ a ∧ a < q + 4 * n
    · rw [if_pos hin]
      by_cases hlow : a < q + 4 * (n - turnSize c n)
      · rw [if_pos ⟨hin.1, hlow⟩, getD_append _ _ _ _ (by omega)]
      · have hidx : a - q - ys.flatten.length = a - (q + 4 * (n - turnSize c n)) := by omega
        have hstride := four_mul_wordSize c
        have hlt : a - (q + 4 * (n - turnSize c n)) < y.length := by omega
        rw [if_neg (by omega), getD_append_right _ _ _ _ (by omega), hidx]
        show m a = _
        rw [hpop.bytes, if_pos (by omega), hholds _ hlt, getD_eq_getElem _ _ hlt]
        rfl
    · rw [if_neg hin, if_neg (by omega)]
      show m a = _
      rw [hpop.bytes, if_neg (by omega)]

/-- What is pushed can be popped, in order; nothing else is written, and the items below stay. -/
def RoundTrips (c : Config) (A : Allocator) (s : Dynstack) (xs : List (List UInt8)) : Prop :=
  ∀ (len : UInt32) (src : List UInt8) (s' : Dynstack) (q : ℕ), src.length = itemNum c ((len.toNat + 3) / 4) * c.stride.toNat →
    xs.length + itemNum c ((len.toNat + 3) / 4) ≤ 2 ^ 16 → q + 4 * ((len.toNat + 3) / 4) ≤ 2 ^ 32 →
    Clear s'.var q ((len.toNat + 3) / 4) → s.pushExt c A src len = some (.none, s') →
    ∃ s'', s'.popExt c q len = some (.none, s'') ∧ Holds s''.var.mem q (src.take (4 * ((len.toNat + 3) / 4))) ∧
      (∀ a, a < q ∨ q + 4 * ((len.toNat + 3) / 4) ≤ a → s''.var.mem a = s'.var.mem a) ∧ s''.sp = s.sp ∧ Held c s'' xs

/-- **Words that are pushed come back**, where the array can hold what it is to hold. -/
theorem ext_round_trip (h : Held c s xs) (hstored : Stored c s.var) : RoundTrips c A s xs := by
  intro len src s' q hsrc hdepth hq hclear hpush
  have hW : 0 < wordSize c := by
    by_contra hzero
    rw [pushExt, if_pos (by omega)] at hpush
    cases hpush
  rw [pushExt, if_neg hW.ne'] at hpush
  have hlt := len.toNat_lt
  by_cases hwrap : len.toNat + 3 < 2 ^ 32
  · have hnum : wordNum len = (len.toNat + 3) / 4 := by
      rw [wordNum, UInt32.toNat_shiftRight, UInt32.toNat_add, show (2 : UInt32).toNat % 32 = 2 from rfl,
        show (3 : UInt32).toNat = 3 from rfl, Nat.mod_eq_of_lt hwrap, Nat.shiftRight_eq_div_pow]
    rw [hnum] at hpush
    generalize (len.toNat + 3) / 4 = num at *
    obtain ⟨hheld, hstored'⟩ := pushExtLoop_held h hstored hdepth hsrc hpush
    have hlen : (chunks c.stride.toNat (itemNum c num) src).length = itemNum c num := chunks_length ..
    have hdm := Nat.div_add_mod (num + wordSize c - 1) (wordSize c)
    have hmod := Nat.mod_lt (num + wordSize c - 1) hW
    have hfull : 4 * num ≤ src.length := by
      have hmul : itemNum c num * c.stride.toNat = 4 * (wordSize c * itemNum c num) := by
        rw [← four_mul_wordSize]
        ring
      rw [hsrc, hmul, itemNum]
      omega
    obtain ⟨s'', hpop, hheld', hmem⟩ := popExtLoop_held hW _ le_rfl hlen.symm hheld hstored' (by rw [hlen]; omega) hclear
    rw [chunks_flatten _ _ _ hsrc] at hmem
    refine ⟨s'', ?_, fun i hi => ?_, fun a ha => ?_, ?_, hheld'⟩
    · rw [popExt, hnum]
      by_cases hzero : num = 0
      · subst hzero
        rw [if_neg (by simp), ← hpop]
        rfl
      · rw [if_pos hzero, show q + 4 * (num - 1) = q + 4 * num - 4 by omega, hpop]
    · rw [length_take] at hi
      rw [hmem, if_pos (by omega), Nat.add_sub_cancel_left, getElem_take, getD_eq_getElem _ _ (by omega)]
    · rw [hmem, if_neg (by omega)]
    · apply UInt32.toNat_inj.mp
      rw [hheld'.sp, h.sp]
  · -- so many words are the whole memory, and there is no room for the stack
    obtain ⟨b, hb, hin⟩ : ∃ b ∈ s'.var.heap.live, 0 < b.size ∧ b.addr + b.size ≤ 2 ^ 32 := by
      have hnum : wordNum len = 0 := by
        rw [wordNum, UInt32.toNat_shiftRight, UInt32.toNat_add, show (2 : UInt32).toNat % 32 = 2 from rfl,
          show (3 : UInt32).toNat = 3 from rfl, Nat.shiftRight_eq_div_pow]
        omega
      rw [hnum, itemNum_zero] at hpush
      obtain ⟨-, rfl⟩ : Err.none = Err.none ∧ s = s' := by simpa [pushExtLoop] using hpush
      rcases hstored with ⟨-, ts, bs, hgood⟩ | ⟨-, hinv, -⟩
      · exact ⟨_, hgood.inv.root_block, Nat.succ_pos 3, (hgood.inv.ok.inside _ hgood.inv.root_block).2.2.2⟩
      · exact ⟨_, hinv.root_block, Nat.succ_pos 3, (hinv.ok.inside _ hinv.root_block).2.2.2⟩
    have hout := hclear b hb
    omega

/-- Three words, in items of two. -/
theorem ext_round_trip_three : ∃ s' s'', pushExt ⟨8, 1, 1⟩ (.placed fun n => 0x1000 * (n + 1)) ⟨Dynarr.init 0x100 fun _ => 0xFF, 0⟩
      [1, 2, 3, 4, 5, 6, 7, 8, 9, 10, 11, 12, 13, 14, 15, 16] 10 = some (.none, s') ∧
    s'.popExt ⟨8, 1, 1⟩ 0x8000 10 = some (.none, s'') ∧ Holds s''.var.mem 0x8000 [1, 2, 3, 4, 5, 6, 7, 8, 9, 10, 11, 12] := by
  let c : Config := ⟨8, 1, 1⟩
  let A : Allocator := .placed fun n => 0x1000 * (n + 1)
  let s : Dynstack := ⟨Dynarr.init 0x100 fun _ => 0xFF, 0⟩
  have hfits : c.Fits := ⟨by decide, by decide, by decide, by decide⟩
  have h : (s.pushExt c A [1, 2, 3, 4, 5, 6, 7, 8, 9, 10, 11, 12, 13, 14, 15, 16] 10).map
      (fun r => (r.1, r.2.var.heap.live)) = some (.none, [⟨0x2000, 16⟩, ⟨0x1000, 12⟩, ⟨0x100, 4⟩]) := by
    decide +kernel
  obtain ⟨⟨e, s'⟩, hpush, h⟩ := map_eq_some_iff.mp h
  obtain ⟨rfl, hlive⟩ : e = .none ∧ s'.var.heap.live = [⟨0x2000, 16⟩, ⟨0x1000, 12⟩, ⟨0x100, 4⟩] := by simpa using h
  have hclear : Clear s'.var 0x8000 3 := by
    intro b hb
    rw [hlive] at hb
    revert b
    decide
  obtain ⟨s'', hpop, hholds, -⟩ := ext_round_trip (A := A) (⟨rfl, UInt32.le_refl _, nofun, nofun⟩ : Held c s [])
    (.init (.inl hfits) (by decide) (by decide) (by decide) _) 10 _ s' 0x8000 (by decide) (by decide) (by decide) hclear hpush
  exact ⟨s', s'', hpush, hpop, hholds⟩

/-- **The words do not come back** when a table is too large for 32 bits: that of 2³⁰ buffers is got as 4
bytes, its first link where the item is put. -/
theorem ext_overlaps : ¬∀ (c : Config) (A : Allocator) (u : DynstackUse), 0 < c.itemSize → 4 ∣ c.itemSize.toNat →
    (DynstackUse.system c A).Reach u → RoundTrips c A u.stack u.items := by
  intro hall
  let c : Config := ⟨4, 0, 30⟩
  let A : Allocator := .placed fun n => 0x1000 + 4 * n
  let u : DynstackUse := ⟨⟨Dynarr.init 0x100 fun _ => 0xFF, 0⟩, []⟩
  have hright := hall c A u (by decide) (by decide) (.start ⟨_, _, by decide, by decide, by decide, rfl⟩)
  have h : ((u.stack.pushExt c A [0, 0, 0, 0] 4).map fun r => (r.1, r.2.var.heap.live, (r.2.popExt c 0x2000 4).map Prod.fst)) =
      some (.none, [⟨0x1004, 4⟩, ⟨0x1000, 4⟩, ⟨0x100, 4⟩], some .fail) := by
    decide +kernel
  obtain ⟨⟨e, s'⟩, hpush, h⟩ := map_eq_some_iff.mp h
  obtain ⟨rfl, hlive, hfail⟩ : e = .none ∧ s'.var.heap.live = [⟨0x1004, 4⟩, ⟨0x1000, 4⟩, ⟨0x100, 4⟩] ∧
      (s'.popExt c 0x2000 4).map Prod.fst = some .fail := by
    simpa using h
  have hclear : Clear s'.var 0x2000 1 := by
    intro b hb
    rw [hlive] at hb
    revert b
    decide
  obtain ⟨s'', hpop, -⟩ := hright 4 [0, 0, 0, 0] s' 0x2000 (by decide) (by decide) (by decide) hclear hpush
  rw [hpop] at hfail
  cases hfail

/-! ### What a failure leaves -/

theorem Inv.items_le (h : Inv c v ts bs) (hfits : c.Fits) : bs.length * c.perBuffer ≤ 2 ^ 30 := by
  have hstride := four_mul_wordSize c
  have hpos := hfits.stride
  have hspace : ∀ i, i < bs.length * c.perBuffer → item c bs i / 4 < 2 ^ 30 := by
    intro i hi
    obtain ⟨-, hlast⟩ := Dynarr.item_inside hfits bs i
    obtain ⟨-, -, -, hend⟩ := h.ok.inside _ (h.buffer_block (Dynarr.buffer_mem hi))
    dsimp only at hend
    omega
  have hcard := Finset.card_le_card_of_injOn (s := Finset.range (bs.length * c.perBuffer)) (t := Finset.range (2 ^ 30))
    (fun i => item c bs i / 4) (fun i hi => Finset.mem_coe.mpr (Finset.mem_range.mpr (hspace i (Finset.mem_range.mp hi)))) (by
      intro i hi j hj heq
      by_contra hne
      have hapart := h.items_apart hfits (Finset.mem_range.mp hi) (Finset.mem_range.mp hj) hne
      dsimp only at heq
      omega)
  rwa [Finset.card_range, Finset.card_range] at hcard

theorem Stored.room (h : Stored c s.var) (hle : s.sp ≤ s.var.length) :
    (s.sp + 1).toNat = s.sp.toNat + 1 ∧ s.sp.toNat + 1 + c.perBuffer - 1 < 2 ^ 32 := by
  have hB : c.perBuffer ≤ 2 ^ 31 := Nat.pow_le_pow_right (by decide) (Nat.le_of_lt_succ h.bitlen)
  rw [le_iff_toNat_le] at hle
  have hsp : s.sp.toNat ≤ 2 ^ 30 := by
    rcases h with ⟨hfits, ts, bs, hgood⟩ | ⟨-, -, hlen⟩
    · exact hle.trans (hgood.le_mul.1.trans (Inv.items_le hgood.inv hfits))
    · rw [hlen] at hle
      exact hle.trans (Nat.zero_le _)
  refine ⟨?_, by omega⟩
  rw [UInt32.toNat_add, show (1 : UInt32).toNat = 1 from rfl, Nat.mod_eq_of_lt (by omega)]

theorem Stored.put {sp : UInt32} (h : Stored c v) (hpos : 0 < sp) (hle : sp ≤ v.length) (hx : x.length = c.stride.toNat) :
    ∃ m, pushLoop c x 1 ⟨v, sp⟩ = ⟨{ v with mem := m }, sp⟩ ∧ Stored c { v with mem := m } := by
  obtain ⟨id, hid, hget⟩ := get_id (c := c) (s := ⟨v, sp⟩) hle hpos
  rcases h with ⟨hfits, ts, bs, hgood⟩ | ⟨-, -, hlen⟩
  · have hlt := lt_of_lt_of_le (lt_iff_toNat_lt.mp hid) hgood.le_mul.1
    obtain ⟨hfirst, hlast⟩ := Dynarr.item_inside hfits bs id.toNat
    have hinv : Inv c { v with mem := memcpy v.mem (item c bs id.toNat) x } ts bs :=
      hgood.inv.write hfits (Dynarr.buffer_mem hlt) fun a ha => memcpy_out (by omega)
    refine ⟨_, ?_, .inl ⟨hfits, ts, bs, hinv, hgood.tight, hgood.buffers, hgood.length⟩⟩
    rw [pushLoop, pushLoop, show UInt32.ofNat (0 + 1) - 1 = 0 from rfl, hget v, hgood.inv.get hfits hgood.le_mul.1 hid]
    rfl
  · rw [show Dynarr.length _ = 0 from hlen] at hid
    exact absurd hid UInt32.not_lt_zero

/-- **An item is pushed** on a stack of any depth. -/
theorem Stored.push (h : Stored c s.var) (hle : s.sp ≤ s.var.length) (hx : x.length = c.stride.toNat) :
    ∃ e s', s.push c A x 1 = some (e, s') ∧ Stored c s'.var ∧ s'.sp ≤ s'.var.length := by
  obtain ⟨hsucc, hroom⟩ := h.room hle
  have hpos : 0 < s.sp + 1 := by
    rw [lt_iff_toNat_lt, hsucc]
    exact Nat.succ_pos _
  unfold Dynstack.push
  by_cases hgrow : s.var.length < s.sp + 1
  · rw [if_pos hgrow]
    obtain ⟨e, v, hset, hstored, -, ⟨rfl, hlen, -⟩ | ⟨rfl, hlonger⟩⟩ := h.setSize (A := A) hgrow (by rw [hsucc]; exact hroom)
    · have hle' : s.sp + 1 ≤ v.length := by
        rw [hlen]
        exact UInt32.le_refl _
      obtain ⟨m, hloop, hput⟩ := hstored.put hpos hle' hx
      rw [hset]
      exact ⟨.none, _, congrArg (fun s => some (Err.none, s)) hloop, hput, hle'⟩
    · rw [hset]
      exact ⟨.fail, _, rfl, hstored, UInt32.le_trans hle hlonger⟩
  · rw [if_neg hgrow]
    obtain ⟨m, hloop, hput⟩ := h.put hpos (UInt32.not_lt.mp hgrow) hx
    exact ⟨.none, _, congrArg (fun s => some (Err.none, s)) hloop, hput, UInt32.not_lt.mp hgrow⟩

/-- Every stack that is reached has its items in its array. -/
theorem reach_stored {u : DynstackUse} (hc : c.Fits ∨ c.Void) (hr : (DynstackUse.system c A).Reach u) :
    Stored c u.stack.var ∧ u.stack.sp ≤ u.stack.var.length := by
  refine hr.invariant (P := fun u => Stored c u.stack.var ∧ u.stack.sp ≤ u.stack.var.length) ?_ ?_
  · rintro _ ⟨root, m, hpos, hdvd, hle, rfl⟩
    exact ⟨.init hc hpos hdvd hle m, UInt32.le_refl _⟩
  · rintro u op u' - ⟨hstored, hle⟩ ⟨hl, he⟩
    cases op with
    | push x =>
      obtain ⟨e, s, hpush, hkept⟩ := hstored.push (A := A) hle hl
      rw [DynstackUse.exec, hpush] at he
      obtain rfl := some.inj he
      exact hkept
    | pop num =>
      obtain rfl := some.inj he
      show Stored c (u.stack.pop c num).2.var ∧ (u.stack.pop c num).2.sp ≤ (u.stack.pop c num).2.var.length
      unfold Dynstack.pop
      split_ifs with hpop
      · refine ⟨hstored, ?_⟩
        have hsub := UInt32.toNat_sub_of_le _ _ hpop.1
        rw [le_iff_toNat_le] at hle ⊢
        dsimp only
        omega
      · exact ⟨hstored, hle⟩

/-- The depth is the same, and so are the items. -/
def Kept (c : Config) (s s' : Dynstack) : Prop := s'.sp = s.sp ∧ ∀ offset, offset < s.sp → s'.get c offset = s.get c offset ∧
  ∀ p, s.get c offset = some p → ∀ a, p ≤ a → a < p + c.stride.toNat → s'.var.mem a = s.var.mem a

theorem Kept.refl (c : Config) (s : Dynstack) : Kept c s s := ⟨rfl, fun _ _ => ⟨rfl, fun _ _ _ _ _ => rfl⟩⟩

/-- So many calls of `vsf_dynstack_push` have each pushed an item of the bytes. -/
inductive Pushed (c : Config) (A : Allocator) : ℕ → Dynstack → List UInt8 → Dynstack → List UInt8 → Prop
  | zero (s : Dynstack) (src : List UInt8) : Pushed c A 0 s src s src
  | succ {k : ℕ} {s s₁ s' : Dynstack} {src src' : List UInt8} (hpush : s.push c A (src.take c.stride.toNat) 1 = some (.none, s₁))
      (hrest : Pushed c A k s₁ (src.drop (4 * wordSize c)) s' src') : Pushed c A (k + 1) s src s' src'

theorem push_none (h : s.push c A x 1 = some (.none, s')) : s'.sp = s.sp + 1 := by
  obtain ⟨⟨e, v⟩, -, heq⟩ := map_eq_some_iff.mp h
  cases e with
  | none =>
    obtain ⟨-, rfl⟩ := Prod.ext_iff.mp heq
    rfl
  | notEnoughResources => cases heq

theorem push_fail (h : s.push c A x 1 = some (.fail, s')) : s.var.length < s.sp + 1 ∧
    ∃ v, s.var.setSize c A (s.sp + 1) = some (.notEnoughResources, v) ∧ s' = { s with var := v } := by
  obtain ⟨⟨e, v⟩, hset, heq⟩ := map_eq_some_iff.mp h
  cases e with
  | none => cases heq
  | notEnoughResources =>
    obtain ⟨-, rfl⟩ := Prod.ext_iff.mp heq
    split_ifs at hset with hgrow
    · exact ⟨hgrow, v, hset, rfl⟩
    · cases hset

theorem Pushed.sp {k : ℕ} {src' : List UInt8} (h : Pushed c A k s src s' src') : s'.sp = s.sp + UInt32.ofNat k := by
  induction h with
  | zero s src => exact (UInt32.add_zero s.sp).symm
  | succ hpush hrest ih =>
    rw [ih, push_none hpush, ofNat_add, UInt32.add_assoc, UInt32.add_comm 1]
    rfl

theorem pushExtLoop_fail {n : ℕ} : pushExtLoop c A n s src = some (.fail, s') ↔
    ∃ k < n, ∃ s₁ src₁, Pushed c A k s src s₁ src₁ ∧ s₁.push c A (src₁.take c.stride.toNat) 1 = some (.fail, s') := by
  induction n generalizing s src with
  | zero => simp [pushExtLoop]
  | succ n ih =>
    rw [pushExtLoop, bind_eq_some_iff]
    constructor
    · rintro ⟨⟨e, s₁⟩, hpush, hrest⟩
      cases e with
      | none =>
        obtain ⟨k, hk, s₂, src₂, hpushed, hfail⟩ := ih.mp hrest
        exact ⟨k + 1, Nat.succ_lt_succ hk, s₂, src₂, .succ hpush hpushed, hfail⟩
      | fail =>
        obtain rfl : s₁ = s' := by simpa using hrest
        exact ⟨0, Nat.succ_pos n, s, src, .zero s src, hpush⟩
    · rintro ⟨k, hk, s₁, src₁, hpushed, hfail⟩
      cases hpushed with
      | zero => exact ⟨_, hfail, rfl⟩
      | succ hpush hrest => exact ⟨_, hpush, ih.mpr ⟨_, Nat.lt_of_succ_lt_succ hk, s₁, src₁, hrest, hfail⟩⟩

/-- A push that fails first leaves the items alone. -/
theorem Stored.push_kept (h : Stored c s.var) (hle : s.sp ≤ s.var.length) (hfail : s.push c A x 1 = some (.fail, s')) : Kept c s s' := by
  obtain ⟨hgrow, v, hset, rfl⟩ := push_fail hfail
  obtain ⟨hsucc, hroom⟩ := h.room hle
  obtain ⟨e, v', hset', -, hkeeps, hcases⟩ := h.setSize (A := A) hgrow (by rw [hsucc]; exact hroom)
  rw [hset] at hset'
  cases hset'
  refine ⟨rfl, fun offset hoff => ?_⟩
  obtain ⟨id, hid, hget⟩ := get_id (c := c) hle hoff
  have hlonger : s.var.length ≤ v.length := by
    rcases hcases with ⟨he, -⟩ | ⟨-, hlonger⟩
    · cases he
    · exact hlonger
  obtain ⟨hsame, hbytes⟩ := hkeeps id hid (UInt32.lt_of_lt_of_le hid hlonger)
  rw [show s.get c offset = s.var.get c id from hget s.var]
  exact ⟨(hget v).trans hsame, hbytes⟩

theorem popExtLoop_empty (hsp : s.sp = 0) (hnum : 0 < num) (f p : ℕ) : popExtLoop c (f + 1) num p s = some (.fail, s) := by
  have hpop : s.pop c 1 = (none, s) := if_neg fun h => by
    rw [hsp] at h
    exact absurd h.1 (by decide)
  rw [popExtLoop, if_neg hnum.ne', hpop]
  rfl

/-- Either there are enough items, or all of them are popped. -/
theorem popExtLoop_depth (hW : 0 < wordSize c) : ∀ {f n : ℕ} {s : Dynstack}, n ≤ f → Stored c s.var → s.sp ≤ s.var.length →
    Clear s.var q n → ∃ e s', popExtLoop c f n (q + 4 * n - 4) s = some (e, s') ∧
      (itemNum c n ≤ s.sp.toNat ∧ e = .none ∨ s.sp.toNat < itemNum c n ∧ e = .fail ∧ s'.sp = 0) := by
  intro f
  induction f with
  | zero =>
    intro n s hf _ _ _
    obtain rfl := Nat.le_zero.mp hf
    exact ⟨.none, s, if_pos rfl, .inl ⟨by rw [itemNum_zero]; exact Nat.zero_le _, rfl⟩⟩
  | succ f ih =>
    intro n s hf h hle hclear
    rcases Nat.eq_zero_or_pos n with rfl | hnum
    · exact ⟨.none, s, if_pos rfl, .inl ⟨by rw [itemNum_zero]; exact Nat.zero_le _, rfl⟩⟩
    · obtain ⟨hpos, hturn, -, hitem⟩ := turnSize_le hW hnum
      rcases eq_zero_or_pos s.sp.toNat with hzero | hsp
      · have hsp : s.sp = 0 := UInt32.toNat_inj.mp hzero
        exact ⟨.fail, s, popExtLoop_empty hsp hnum f _, .inr ⟨by omega, rfl, hsp⟩⟩
      · obtain ⟨m, out, hpop, hloop⟩ := h.pop_turn hle hsp hW hnum hclear f
        have hpred := toNat_pred hsp
        have hle' : s.sp - 1 ≤ s.var.length := by
          rw [le_iff_toNat_le] at hle ⊢
          omega
        obtain ⟨e, s', hrest, hcases⟩ := ih (n := n - turnSize c n) (s := ⟨{ s.var with mem := m }, s.sp - 1⟩) (by omega) hpop.stored hle'
          fun b hb => (hclear b hb).imp (fun hend => by omega) id
        dsimp only at hcases
        rw [hpred] at hcases
        refine ⟨e, s', hloop.trans hrest, ?_⟩
        rcases hcases with ⟨henough, rfl⟩ | ⟨hfew, rfl, hsp'⟩
        · exact .inl ⟨by omega, rfl⟩
        · exact .inr ⟨by omega, rfl, hsp'⟩

/-- **A failure leaves the stack** when nothing had been pushed or popped. -/
theorem ext_kept_iff (h : Stored c s.var) (hle : s.sp ≤ s.var.length) (ptr : List UInt8) (len : UInt32) :
    ((∀ s', s.pushExt c A ptr len = some (.fail, s') → Kept c s s') ↔
      ∀ k s₁ src₁ s₂, 0 < k → k < itemNum c (wordNum len) → Pushed c A k s ptr s₁ src₁ →
        s₁.push c A (src₁.take c.stride.toNat) 1 ≠ some (.fail, s₂)) ∧
    ∀ q, Clear s.var q (wordNum len) → ((∀ s', s.popExt c q len = some (.fail, s') → Kept c s s') ↔
      ¬(0 < s.sp.toNat ∧ s.sp.toNat < itemNum c (wordNum len))) := by
  constructor
  · have hpushExt : ∀ s', s.pushExt c A ptr len = some (.fail, s') ↔
        pushExtLoop c A (itemNum c (wordNum len)) s ptr = some (.fail, s') := by
      intro s'
      unfold pushExt
      split_ifs with hW
      · rw [itemNum, hW, Nat.div_zero]
        simp [pushExtLoop]
      · exact Iff.rfl
    simp only [hpushExt]
    constructor
    · intro hkept k s₁ src₁ s₂ hpos hk hpushed hfail
      have hsp := (hkept s₂ (pushExtLoop_fail.mpr ⟨k, hk, s₁, src₁, hpushed, hfail⟩)).1
      obtain ⟨-, v, -, rfl⟩ := push_fail hfail
      have hnum : itemNum c (wordNum len) < 2 ^ 32 := by
        have hwords : wordNum len ≤ 2 ^ 30 := by
          have hlt := (len + 3).toNat_lt
          rw [wordNum, UInt32.toNat_shiftRight, show (2 : UInt32).toNat % 32 = 2 from rfl, Nat.shiftRight_eq_div_pow]
          omega
        have hstride := four_mul_wordSize c
        have hlt := c.stride.toNat_lt
        refine Nat.lt_of_le_of_lt (Nat.div_le_self _ _) ?_
        omega
      have hadd : (s.sp + UInt32.ofNat k).toNat = s.sp.toNat := congrArg UInt32.toNat (hpushed.sp.symm.trans hsp)
      have hlt := s.sp.toNat_lt
      rw [UInt32.toNat_add, toNat_ofNat'] at hadd
      omega
    · intro hall s' hfail
      obtain ⟨k, hk, s₁, src₁, hpushed, hpush⟩ := pushExtLoop_fail.mp hfail
      cases hpushed with
      | zero => exact h.push_kept hle hpush
      | succ hfirst hrest => exact absurd hpush (hall _ _ _ _ (Nat.succ_pos _) hk (.succ hfirst hrest))
  · intro q hclear
    unfold popExt
    by_cases hzero : wordNum len = 0
    · rw [if_neg (not_not.mpr hzero), hzero]
      refine iff_of_true (fun s' hs' => by simp at hs') ?_
      rw [itemNum_zero]
      exact fun h => Nat.not_lt_zero _ h.2
    · rw [if_pos hzero]
      obtain ⟨f, hf⟩ := Nat.exists_eq_succ_of_ne_zero hzero
      rcases eq_zero_or_pos s.sp.toNat with hsp | hsp
      · refine iff_of_true (fun s' hs' => ?_) (by omega)
        rw [hf, popExtLoop_empty (UInt32.toNat_inj.mp hsp) (Nat.succ_pos f)] at hs'
        obtain rfl : s = s' := by simpa using hs'
        exact .refl c s
      · have hW : 0 < wordSize c := by
          rcases h with ⟨hfits, -⟩ | ⟨-, -, hlen⟩
          · have hpos := hfits.stride
            have hstride := four_mul_wordSize c
            omega
          · rw [hlen, le_iff_toNat_le] at hle
            exact absurd hsp (not_lt.mpr hle)
        obtain ⟨e, s', hpop, hcases⟩ := popExtLoop_depth hW le_rfl h hle hclear
        rw [show q + 4 * (wordNum len - 1) = q + 4 * wordNum len - 4 by omega, hpop]
        rcases hcases with ⟨henough, rfl⟩ | ⟨hfew, rfl, hsp'⟩
        · exact iff_of_true (fun s' hs' => by simp at hs') (by omega)
        · refine iff_of_false (fun hkept => ?_) (not_not.mpr ⟨hsp, hfew⟩)
          have hsame := (hkept s' rfl).1
          rw [← hsame, hsp'] at hsp
          exact lt_irrefl _ hsp

/-- A stack of one item, with memory for no other: two items are pushed, and the first fails. -/
theorem ext_kept_refused : ∃ s, Dynstack.push ⟨4, 0, 1⟩ (.placed fun n => if n < 2 then 0x1000 * (n + 1) else 0)
      ⟨Dynarr.init 0x100 fun _ => 0xFF, 0⟩ [1, 2, 3, 4] 1 = some (.none, s) ∧
    ∃ s', s.pushExt ⟨4, 0, 1⟩ (.placed fun n => if n < 2 then 0x1000 * (n + 1) else 0) [5, 6, 7, 8, 9, 10, 11, 12] 8 = some (.fail, s') ∧
      Kept ⟨4, 0, 1⟩ s s' := by
  let c : Config := ⟨4, 0, 1⟩
  let A : Allocator := .placed fun n => if n < 2 then 0x1000 * (n + 1) else 0
  have h : ((Dynstack.push c A ⟨Dynarr.init 0x100 fun _ => 0xFF, 0⟩ [1, 2, 3, 4] 1).bind fun r =>
      (r.2.pushExt c A [5, 6, 7, 8, 9, 10, 11, 12] 8).bind fun r' => (r.2.push c A [5, 6, 7, 8] 1).map fun r'' => (r.1, r'.1, r''.1)) =
      some (.none, .fail, .fail) := by
    decide
  obtain ⟨⟨e, s⟩, hpush, h⟩ := bind_eq_some_iff.mp h
  obtain ⟨⟨e', s'⟩, hext, h⟩ := bind_eq_some_iff.mp h
  obtain ⟨⟨e'', s''⟩, hfirst, h⟩ := map_eq_some_iff.mp h
  obtain ⟨rfl, rfl, rfl⟩ : e = .none ∧ e' = .fail ∧ e'' = .fail := by simpa using h
  obtain ⟨e, s₁, hpush', hstored, hle⟩ := (Stored.init (c := c) (.inl ⟨by decide, by decide, by decide, by decide⟩) (by decide : 0 < 0x100)
    (by decide) (by decide) fun _ => 0xFF).push (s := ⟨_, 0⟩) (A := A) (UInt32.le_refl _) (x := [1, 2, 3, 4]) (by decide)
  obtain rfl : s = s₁ := congrArg Prod.snd (some.inj (hpush.symm.trans hpush'))
  refine ⟨s, hpush, s', hext, (ext_kept_iff hstored hle _ 8).1.mpr (fun k s₁ src₁ s₂ hpos _ hpushed => ?_) s' hext⟩
  cases hpushed with
  | zero => exact absurd hpos (lt_irrefl 0)
  | succ hnone _ =>
    rw [show take c.stride.toNat [5, 6, 7, 8, 9, 10, 11, 12] = ([5, 6, 7, 8] : List UInt8) by decide] at hnone
    cases hnone.symm.trans hfirst
/-- **An item is lost** when two are popped of a stack of one. -/
theorem pop_ext_breaks : ¬∀ (c : Config) (A : Allocator) (u : DynstackUse), c.Fits → (DynstackUse.system c A).Reach u → ∀ len,
    (∀ ptr s', u.stack.pushExt c A ptr len = some (.fail, s') → Kept c u.stack s') ∧
    ∀ q, Clear u.stack.var q (wordNum len) → ∀ s', u.stack.popExt c q len = some (.fail, s') → Kept c u.stack s' := by
  intro hall
  let c : Config := ⟨4, 1, 1⟩
  let A : Allocator := .placed fun n => 0x1000 * (n + 1)
  let start : DynstackUse := ⟨⟨Dynarr.init 0x100 fun _ => 0xFF, 0⟩, []⟩
  have h : (start.exec c A (.push [1, 2, 3, 4])).map (fun u => (u.stack.sp, u.stack.var.heap.live,
      (u.stack.popExt c 0x8000 8).map fun r => (r.1, r.2.sp))) = some (1, [⟨0x2000, 8⟩, ⟨0x1000, 12⟩, ⟨0x100, 4⟩], some (.fail, 0)) := by
    decide +kernel
  obtain ⟨u, hu, h⟩ := map_eq_some_iff.mp h
  obtain ⟨hsp, hlive, hpop⟩ : u.stack.sp = 1 ∧ u.stack.var.heap.live = [⟨0x2000, 8⟩, ⟨0x1000, 12⟩, ⟨0x100, 4⟩] ∧
      (u.stack.popExt c 0x8000 8).map (fun r => (r.1, r.2.sp)) = some (.fail, 0) := by
    simpa using h
  obtain ⟨⟨e, s'⟩, hfail, hs'⟩ := map_eq_some_iff.mp hpop
  obtain ⟨rfl, hempty⟩ : e = .fail ∧ s'.sp = 0 := by simpa using hs'
  have hreach : (DynstackUse.system c A).Reach u :=
    .step (i := .push [1, 2, 3, 4]) (.start ⟨_, _, by decide, by decide, by decide, rfl⟩)
      ⟨by show [1, 2, 3, 4].length = c.stride.toNat; decide, hu⟩
  have hclear : Clear u.stack.var 0x8000 (wordNum 8) := by
    intro b hb
    rw [hlive] at hb
    revert b
    decide
  have hsame := ((hall c A u ⟨by decide, by decide, by decide, by decide⟩ hreach 8).2 0x8000 hclear s' hfail).1
  rw [hempty, hsp] at hsame
  exact absurd hsame (by decide)

end Dynstack
end Vsf
