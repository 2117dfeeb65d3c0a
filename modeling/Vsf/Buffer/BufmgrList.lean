/-
# The lists of the buffer manager

A list is the chain of headers from its head (`nextOf`). The headers do not overlap (`Hdrs`), so
`vsf_bufmgr_remove_mcb` and `vsf_bufmgr_insert_mcb` change nothing but link words of the list
(`nextWords`).
-/
import Mathlib
import Vsf.Buffer.Bufmgr

namespace Vsf
namespace Bufmgr

open ByteMem Linked List Function

/-! ### Headers that do not overlap -/

/-- Two headers side by side. -/
def Apart (a b : ℕ) : Prop := a + mcbSize ≤ b ∨ b + mcbSize ≤ a

variable {a b v L x n : ℕ} {S xs : List ℕ} {f g : Field} {P : ℕ → Prop} {m m' : Mem} {p : Option ℕ}

theorem Apart.symm (h : Apart a b) : Apart b a := Or.symm h

/-- Headers not at `NULL`, in the address space, no two overlapping. -/
structure Hdrs (S : List ℕ) : Prop where
  pos : ∀ h ∈ S, 0 < h
  lt : ∀ h ∈ S, h + mcbSize < 2 ^ 32
  apart : ∀ a ∈ S, ∀ b ∈ S, a ≠ b → Apart a b

theorem Hdrs.mono {T : List ℕ} (h : Hdrs S) (hT : ∀ a ∈ T, a ∈ S) : Hdrs T where
  pos a ha := h.pos a (hT a ha)
  lt a ha := h.lt a (hT a ha)
  apart a ha b hb := h.apart a (hT a ha) b (hT b hb)

theorem Field.offset_add_le (f : Field) : f.offset + 4 ≤ mcbSize := by cases f <;> decide

theorem Field.offset_apart (h : f ≠ g) : f.offset + 4 ≤ g.offset ∨ g.offset + 4 ≤ f.offset := by
  revert h; cases f <;> cases g <;> decide

/-- The bytes of a field. -/
def word (a : ℕ) (f : Field) (i : ℕ) : Prop := a + f.offset ≤ i ∧ i < a + f.offset + 4

theorem same_set (m : Mem) (a : ℕ) (f : Field) (v : ℕ) : Same (word a f) m (set m a f v) :=
  same_store32 m (a + f.offset) v

theorem get_set_self (m : Mem) (a : ℕ) (f : Field) {v : ℕ} (h : v < 2 ^ 32) : get (set m a f v) a f = v :=
  load32_store32 m _ h

theorem get_same (h : Same P m m') {a : ℕ} {f : Field}
    (ha : ∀ i, word a f i → ¬ P i) : get m' a f = get m a f :=
  h.load32 fun i h1 h2 => ha i ⟨h1, h2⟩

/-- Writing a field changes no other field of the header, and none of a header apart. -/
theorem get_set (hab : a ≠ b → Apart a b) (hne : a ≠ b ∨ f ≠ g) : get (set m a f v) b g = get m b g := by
  have hf := f.offset_add_le
  have hg := g.offset_add_le
  refine get_same (same_set m a f v) fun i hi hc => ?_
  unfold word at hi hc
  by_cases h : a = b
  · subst h
    have := Field.offset_apart (hne.resolve_left (· rfl))
    omega
  · have := hab h
    unfold Apart at this
    omega

/-! ### Links -/

/-- The header the link of `a` leads to, `none` for the end of the list. -/
def nextOf (m : Mem) (a : ℕ) : Option ℕ := if listNext m a = 0 then none else some (listNext m a)

/-- The link words of the headers `S`. -/
def nextWords (S : List ℕ) (i : ℕ) : Prop := ∃ h ∈ S, word h .next i

theorem nextOf_eq_some (h : nextOf m a = some b) : listNext m a = b ∧ b ≠ 0 := by
  unfold nextOf at h
  split_ifs at h with h0
  obtain rfl : listNext m a = b := Option.some.inj h
  exact ⟨rfl, h0⟩

theorem nextOf_eq_none (h : nextOf m a = none) : listNext m a = 0 := by
  unfold nextOf at h
  split_ifs at h with h0
  exact h0

theorem nextOf_congr (h : get m' a .next = get m a .next) : nextOf m' a = nextOf m a := by
  unfold nextOf listNext
  rw [h]

theorem nextOf_insert (m : Mem) (a : ℕ) {b : ℕ} (hb : 0 < b) (hlt : b + mcbSize < 2 ^ 32) :
    nextOf (sllistInsert m a b) a = some b := by
  have hv : b + Field.next.offset < 2 ^ 32 := by have := Field.next.offset_add_le; omega
  have hl : listNext (sllistInsert m a b) a = b := by
    unfold listNext sllistInsert getContainer u32
    rw [get_set_self _ _ _ hv, if_neg (by omega)]
    have : Field.next.offset = 8 := rfl
    omega
  unfold nextOf
  rw [hl, if_neg (by omega)]

theorem nextOf_initNode (m : Mem) (a : ℕ) : nextOf (sllistInitNode m a) a = none := by
  unfold nextOf listNext sllistInitNode getContainer
  rw [get_set_self _ _ _ (by norm_num), if_pos rfl, if_pos rfl]

theorem nextOf_set_next (hab : Apart a b) (hne : a ≠ b) : nextOf (set m a .next v) b = nextOf m b :=
  nextOf_congr (get_set (fun _ => hab) (.inl hne))

theorem same_insert (m : Mem) {S : List ℕ} {a : ℕ} (ha : a ∈ S) (b : ℕ) :
    Same (nextWords S) m (sllistInsert m a b) :=
  (same_set m a .next _).mono fun _ hi => ⟨a, ha, hi⟩

theorem same_initNode (m : Mem) {S : List ℕ} {a : ℕ} (ha : a ∈ S) : Same (nextWords S) m (sllistInitNode m a) :=
  (same_set m a .next _).mono fun _ hi => ⟨a, ha, hi⟩

theorem get_nextWords (h : Same (nextWords S) m m')
    (ha : ∀ b ∈ S, a ≠ b → Apart a b) (hf : f ≠ .next) : get m' a f = get m a f := by
  refine get_same h fun i hi ⟨b, hb, hw⟩ => ?_
  have h1 := f.offset_add_le
  have h2 := Field.next.offset_add_le
  unfold word at hi hw
  by_cases hab : a = b
  · subst hab
    have := Field.offset_apart hf
    omega
  · have := ha b hb hab
    unfold Apart at this
    omega

theorem chain_same (h : Chain (nextOf m) p xs)
    (hs : Same P m m') (hP : ∀ x ∈ xs, ∀ i, word x .next i → ¬ P i) : Chain (nextOf m') p xs :=
  h.congr fun x hx => nextOf_congr (get_same hs (hP x hx))

/-- The chain of a list is shorter than the address space. -/
theorem chain_length (h : Chain (nextOf m) p S) (hS : Hdrs S) : S.length ≤ walkFuel := by
  have hsub : S ⊆ List.range (2 ^ 32) := fun a ha => by
    have := hS.lt a ha
    exact List.mem_range.mpr (by omega)
  have := (h.nodup.subperm hsub).length_le
  rw [length_range] at this
  exact this

/-! ### Removing -/

/-- The loop stands at `y` and the header to remove is behind it. -/
theorem removeLoop_spec : ∀ (f : ℕ) (m : Mem) (as : List ℕ) (y : ℕ) (bs : List ℕ),
    Chain (nextOf m) (some L) (as ++ y :: bs) → Hdrs (as ++ y :: bs) → x ∈ bs → bs.length < f →
    ∃ m', removeLoop x f m y (listNext m y) = some m' ∧
      Chain (nextOf m') (some L) (as ++ y :: bs.erase x) ∧ Same (nextWords (as ++ y :: bs)) m m' := by
  intro f
  induction f with
  | zero => intro m as y bs _ _ _ hf; omega
  | succ f ih =>
    intro m as y bs h hH hx hf
    obtain ⟨r, -, -, hy⟩ := chain_append.mp h
    rcases bs with _ | ⟨z, bs⟩
    · cases hx
    obtain ⟨hz, hbs⟩ := chain_cons.mp hy
    obtain ⟨hnz, hz0⟩ := nextOf_eq_some hz
    have hnd := (nodup_append.mp h.nodup).2.1
    unfold removeLoop
    rw [hnz, if_neg hz0]
    by_cases hzx : z = x
    · subst hzx
      have hmy : y ∈ as ++ y :: z :: bs := by simp
      have hmz : z ∈ as ++ y :: z :: bs := by simp
      have hyz : y ≠ z := fun he => (nodup_cons.mp hnd).1 (he ▸ mem_cons_self)
      rw [if_pos rfl, erase_cons_head]
      set m1 := if listNext m z ≠ 0 then sllistInsert m y (listNext m z) else sllistInitNode m y with hm1
      have hs1 : Same (nextWords (as ++ y :: z :: bs)) m m1 := by
        rw [hm1]
        split_ifs
        · exact same_insert m hmy _
        · exact same_initNode m hmy
      have hn1 : nextOf m1 y = nextOf m z := by
        rw [hm1]
        rcases hb : nextOf m z with _ | w
        · rw [if_neg (not_not.mpr (nextOf_eq_none hb)), nextOf_initNode]
        · obtain ⟨hw, hw0⟩ := nextOf_eq_some hb
          have hwm : w ∈ as ++ y :: z :: bs := by
            rw [hb] at hbs
            rcases bs with _ | ⟨b, bs⟩
            · cases hbs
            · obtain rfl : w = b := Option.some.inj hbs.1
              simp
          rw [if_pos (by rw [hw]; exact hw0), hw, nextOf_insert m y (hH.pos w hwm) (hH.lt w hwm)]
      have hn2 : ∀ b ∈ as ++ y :: z :: bs, b ≠ y → nextOf m1 b = nextOf m b := fun b hb hby => by
        have hap := hH.apart y hmy b hb (Ne.symm hby)
        rw [hm1]
        split_ifs
        · exact nextOf_set_next hap (Ne.symm hby)
        · exact nextOf_set_next hap (Ne.symm hby)
      refine ⟨_, rfl, ?_, hs1.trans (same_initNode m1 hmz)⟩
      refine h.unlink.congr fun b hb => ?_
      have hbz : b ≠ z := fun he => by
        subst he
        rcases mem_append.mp hb with hb | hb
        · exact (nodup_append.mp h.nodup).2.2 b hb b (by simp) rfl
        · rcases mem_cons.mp hb with hb | hb
          · exact hyz hb.symm
          · exact (nodup_cons.mp (nodup_cons.mp hnd).2).1 hb
      have hbm : b ∈ as ++ y :: z :: bs := by
        rcases mem_append.mp hb with hb | hb
        · exact mem_append_left _ hb
        · rcases mem_cons.mp hb with rfl | hb <;> simp_all
      rw [sllistInitNode, nextOf_set_next (hH.apart z hmz b hbm (Ne.symm hbz)) (Ne.symm hbz)]
      by_cases hby : b = y
      · rw [hby, hn1, update_self]
      · rw [hn2 b hbm hby, update_of_ne hby]
    · rw [if_neg hzx]
      have hstep : as ++ y :: z :: bs = (as ++ [y]) ++ z :: bs := by simp
      have hx' : x ∈ bs := (mem_cons.mp hx).resolve_left (Ne.symm hzx)
      obtain ⟨m', h1, h2, h3⟩ := ih m (as ++ [y]) z bs (hstep ▸ h) (hstep ▸ hH) hx'
        (by simp only [length_cons] at hf; omega)
      refine ⟨m', h1, ?_, hstep ▸ h3⟩
      rw [erase_cons_tail (by simpa using hzx)]
      simpa using h2

/-- **`vsf_bufmgr_remove_mcb` takes its header off the list**, writing link words only. -/
theorem removeMcb_spec (h : Chain (nextOf m) (some L) (L :: xs)) (hH : Hdrs (L :: xs)) (hx : x ∈ xs) :
    ∃ m', removeMcb m L x = some m' ∧ Chain (nextOf m') (some L) (L :: xs.erase x) ∧
      Same (nextWords (L :: xs)) m m' := by
  have hf := chain_length h hH
  exact removeLoop_spec walkFuel m [] L xs h hH hx (by simpa using hf)

/-! ### Inserting -/

/-- The order of the lists: by payload size. -/
abbrev SizeLe (m : Mem) (a b : ℕ) : Prop := get m a .size ≤ get m b .size

/-- The loop stands at `y` and the header to insert belongs behind it. -/
theorem insertLoop_spec : ∀ (f : ℕ) (m : Mem) (as : List ℕ) (y : ℕ) (bs : List ℕ),
    Chain (nextOf m) (some L) (as ++ y :: bs) → n ∉ as ++ y :: bs → Hdrs (n :: (as ++ y :: bs)) →
    bs.length < f →
    ∃ m', insertLoop n f m y (listNext m y) = some m' ∧
      Chain (nextOf m') (some L) (as ++ y :: bs.orderedInsert (SizeLe m) n) ∧
      Same (nextWords (n :: (as ++ y :: bs))) m m' := by
  intro f
  induction f with
  | zero => intro m as y bs _ _ _ hf; omega
  | succ f ih =>
    intro m as y bs h hn hH hf
    have hmn : n ∈ n :: (as ++ y :: bs) := mem_cons_self
    have hmy : y ∈ n :: (as ++ y :: bs) := by simp
    have hny : n ≠ y := fun he => hn (he ▸ by simp)
    have hpos := hH.pos n hmn
    have hlt := hH.lt n hmn
    obtain ⟨r, -, -, hy⟩ := chain_append.mp h
    -- the two links written, seen from every header of the list
    have hlinks : ∀ v, ∀ b ∈ as ++ y :: n :: bs,
        nextOf (set (sllistInsert m y n) n .next v) b =
          if b = n then nextOf (set (sllistInsert m y n) n .next v) n
          else if b = y then some n else nextOf m b := fun v b hb => by
      have hbm : b ∈ n :: (as ++ y :: bs) := by
        simp only [mem_append, mem_cons] at hb ⊢; tauto
      split_ifs with hbn hby
      · rw [hbn]
      · rw [nextOf_set_next (hH.apart n hmn b hbm (Ne.symm hbn)) (Ne.symm hbn), hby, nextOf_insert m y hpos hlt]
      · rw [nextOf_set_next (hH.apart n hmn b hbm (Ne.symm hbn)) (Ne.symm hbn), sllistInsert,
          nextOf_set_next (hH.apart y hmy b hbm (Ne.symm hby)) (Ne.symm hby)]
    have hlink := h.link hn
    unfold insertLoop
    rcases bs with _ | ⟨z, bs⟩
    · rw [if_pos (nextOf_eq_none hy)]
      refine ⟨_, rfl, ?_, (same_insert m hmy n).trans (same_initNode _ hmn)⟩
      refine hlink.congr fun b hb => ?_
      rw [sllistInitNode, hlinks 0 b hb]
      split_ifs with hbn hby
      · subst hbn
        rw [update_of_ne hny, update_self]
        exact nextOf_initNode _ b
      · rw [hby, update_self]
      · rw [update_of_ne hby, update_of_ne hbn]
    · obtain ⟨hz, hbs⟩ := chain_cons.mp hy
      obtain ⟨hnz, hz0⟩ := nextOf_eq_some hz
      have hmz : z ∈ n :: (as ++ y :: z :: bs) := by simp
      rw [hnz, if_neg hz0, orderedInsert_cons]
      by_cases hle : get m n .size ≤ get m z .size
      · rw [if_pos hle, if_pos hle]
        refine ⟨_, rfl, ?_, (same_insert m hmy n).trans (same_insert _ hmn z)⟩
        refine hlink.congr fun b hb => ?_
        unfold sllistInsert at hlinks ⊢
        rw [hlinks _ b hb]
        split_ifs with hbn hby
        · subst hbn
          rw [update_of_ne hny, update_self]
          exact nextOf_insert _ b (hH.pos z hmz) (hH.lt z hmz)
        · rw [hby, update_self]
        · rw [update_of_ne hby, update_of_ne hbn]
      · rw [if_neg hle, if_neg hle]
        have hstep : as ++ y :: z :: bs = (as ++ [y]) ++ z :: bs := by simp
        obtain ⟨m', h1, h2, h3⟩ := ih m (as ++ [y]) z bs (hstep ▸ h) (hstep ▸ hn) (hstep ▸ hH)
          (by simp only [length_cons] at hf; omega)
        refine ⟨m', h1, by simpa using h2, hstep ▸ h3⟩

/-- **`vsf_bufmgr_insert_mcb` inserts by size**, writing link words only. -/
theorem insertMcb_spec (h : Chain (nextOf m) (some L) (L :: xs)) (hn : n ∉ L :: xs) (hH : Hdrs (n :: L :: xs)) :
    ∃ m', insertMcb m L n = some m' ∧
      Chain (nextOf m') (some L) (L :: xs.orderedInsert (SizeLe m) n) ∧
      Same (nextWords (n :: L :: xs)) m m' := by
  have hf := chain_length h (hH.mono fun a ha => mem_cons_of_mem _ ha)
  exact insertLoop_spec walkFuel m [] L xs h hn hH (by simpa using hf)

end Bufmgr
end Vsf
