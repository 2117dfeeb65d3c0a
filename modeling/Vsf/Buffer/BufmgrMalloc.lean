/-
# What vsf_bufmgr_malloc_aligned does to the heap

The call carves its result out of the first free tile that fits (`Carve`), splitting it in front
when the aligned payload leaves room there, and behind when something is left. `malloc_spec` says
that the call is this move, that it returns, and that other payloads keep their bytes.
-/
import Mathlib
import Vsf.Buffer.BufmgrHeap

namespace Vsf
namespace Bufmgr

open ByteMem Linked List Option

variable {r : Region}

/-! ### Writing a header into a payload -/

section
variable {m m' : Mem} {l rt : List Tile} {ls : Lst → List ℕ} {x s : ℕ} {k : Kind}

theorem keeps_payload {P : ℕ → Prop} (h : Tiled r r.buf (l ++ ⟨x, s, k⟩ :: rt) (r.buf + r.size))
    (hs : Same P m m') (hP : ∀ i, P i → r.dataStart x ≤ i ∧ i < r.dataStart x + s) :
    Keeps r (l ++ rt) m m' := by
  intro t ht i h1 h2
  refine hs i fun hp => ?_
  obtain ⟨h3, h4⟩ := hP i hp
  have hxt : (⟨x, s, k⟩ : Tile) ∈ l ++ ⟨x, s, k⟩ :: rt := mem_mid.mpr (.inl rfl)
  have ht' : t ∈ l ++ (⟨x, s, k⟩ : Tile) :: rt := mem_mid.mpr (.inr ht)
  have h5 := dataStart_ge r t.mcb
  have h6 := dataStart_ge r x
  rcases h.sep ht' hxt with rfl | h7 | h7
  · exact h.mcb_ne ht rfl
  · unfold Tile.fin at h2 h7; simp only at h7; omega
  · unfold Tile.fin at h7; simp only at h7; omega

/-- The payload address and size of a new header inside the payload of `x`. -/
theorem HeapInv.new_header (h : HeapInv r m (l ++ ⟨x, s, k⟩ :: rt) ls) (n v v' : ℕ)
    (hn : n + mcbSize ≤ s) (hv : v < 2 ^ 32) (hv' : v' < 2 ^ 32) :
    let a := r.dataStart x + n
    let m' := set (set m a .buffer v) a .size v'
    HeapInv r m' (l ++ ⟨x, s, k⟩ :: rt) ls ∧ Keeps r (l ++ rt) m m' ∧ get m' a .buffer = v ∧
      get m' a .size = v' ∧ ∀ f, get m' x f = get m x f := by
  intro a m'
  have hx := dataStart_ge r x
  have hxa : Apart x a := .inl (by omega)
  have hin : ∀ f i, word a f i → r.dataStart x ≤ i ∧ i < r.dataStart x + s := fun f i hi => by
    have := f.offset_add_le
    unfold word at hi
    omega
  have hs : Same (fun i => r.dataStart x ≤ i ∧ i < r.dataStart x + s) m m' :=
    ((same_set m a .buffer v).mono (hin .buffer)).trans ((same_set _ a .size v').mono (hin .size))
  refine ⟨h.payload hs fun i hi => ⟨_, mem_mid.mpr (.inl rfl), hi⟩, keeps_payload h.tiled hs fun i hi => hi,
    ?_, get_set_self _ _ _ hv', fun f => ?_⟩
  · rw [get_set (fun hne => absurd rfl hne) (.inr (by decide)), get_set_self _ _ _ hv]
  · have hne : a ≠ x := by have hm : mcbSize = 12 := rfl; omega
    rw [get_set (fun _ => hxa.symm) (.inl hne), get_set (fun _ => hxa.symm) (.inl hne)]

theorem HeapInv.fin_lt (h : HeapInv r m (l ++ ⟨x, s, k⟩ :: rt) ls) :
    0 < x ∧ x + mcbSize ≤ r.dataStart x ∧ r.dataStart x + s < 2 ^ 32 := by
  obtain ⟨h1, -, h3⟩ := h.tiled.bounds.2 ⟨x, s, k⟩ (mem_mid.mpr (.inl rfl))
  have h4 := r.buf_lt
  have h5 := r.buf_pos
  unfold Tile.fin at h3
  simp only at h1 h3
  exact ⟨by omega, dataStart_ge r x, by omega⟩

theorem keeps_set_size {ts : List Tile} (h : Tiled r r.buf ts (r.buf + r.size)) {t : Tile} (ht : t ∈ ts) (v : ℕ) :
    Keeps r ts m (set m t.mcb .size v) := by
  intro u hu i h1 h2
  refine same_set m t.mcb .size v i fun hw => ?_
  have := Field.size.offset_add_le
  unfold word at hw
  exact header_not_payload h hu (mcb_mem_headers ht) (by omega) (by omega) ⟨h1, h2⟩

end

/-! ### Handing out a tile -/

/-- What is left behind a result: nothing, or a free tile. -/
def Remainder (tl : List Tile) : Prop := tl = [] ∨ ∃ z n, tl = [⟨z, n, .free⟩]

theorem u32_of_lt {n : ℕ} (h : n < 2 ^ 32) : u32 n = n := Nat.mod_eq_of_lt h

theorem mid_succ (l : List Tile) (t : Tile) (us : List Tile) : l ++ t :: us = (l ++ [t]) ++ us := by simp

section
variable {m : Mem} {l rt : List Tile} {ls : Lst → List ℕ} {x s : ℕ}

theorem HeapInv.hand_out (h : HeapInv r m (l ++ ⟨x, s, .loose⟩ :: rt) ls) (hs : get m x .size = s) (a : Alloc) :
    ∃ m' ls', insertMcb m r.allocatedList x = some m' ∧ HeapInv r m' (l ++ ⟨x, s, .used a⟩ :: rt) ls' ∧
      get m' x .buffer = r.dataStart x ∧ Keeps r (l ++ rt) m m' := by
  obtain ⟨m1, e1, i1, k1, -⟩ := h.attach (k := .used a) (w := .allocated) rfl hs
  have b1 : get m1 x .buffer = r.dataStart x := i1.buffer ⟨x, s, .used a⟩ (mem_mid.mpr (.inl rfl))
  exact ⟨m1, _, e1, i1, b1, k1.mono fun u hu => mem_mid.mpr (.inr hu)⟩

/-- The loose tile `x` cut behind `n` bytes: the header at `z` joins the freed list. -/
theorem HeapInv.cut (h : HeapInv r m (l ++ ⟨x, s, .loose⟩ :: rt) ls) {n z : ℕ} (hz : z = r.dataStart x + n)
    (hn : 0 < n) (hs : n + mcbSize < s) :
    ∃ m' ls', insertMcb (set (set m z .buffer (z + mcbSize)) z .size (s - n - mcbSize)) r.freedList z = some m' ∧
      HeapInv r (set m' x .size n) (l ++ ⟨x, n, .loose⟩ :: ⟨z, s - n - mcbSize, .free⟩ :: rt) ls' ∧
      get (set m' x .size n) x .size = n ∧ Keeps r (l ++ rt) m (set m' x .size n) := by
  obtain ⟨hx0, hx1, hx2⟩ := h.fin_lt
  obtain ⟨i1, k1, b1, z1, -⟩ := h.new_header n (z + mcbSize) (s - n - mcbSize) (by omega) (by omega) (by omega)
  have i2 := i1.split hn hs (by rw [b1, hz])
  rw [← hz] at i2 k1 z1
  rw [mid_succ] at i2
  obtain ⟨m3, e3, i3, k3, -⟩ := i2.attach (k := .free) (w := .freed) rfl z1
  rw [← mid_succ] at i3 k3
  have i4 := i3.set_size (t := ⟨x, n, .loose⟩) (mem_mid.mpr (.inl rfl)) rfl n
  have k4 : Keeps r _ m3 (set m3 x .size n) :=
    keeps_set_size i3.tiled (t := ⟨x, n, .loose⟩) (mem_mid.mpr (.inl rfl)) n
  have hmem : ∀ (t1 t2 : Tile), ∀ u ∈ l ++ rt, u ∈ l ++ t1 :: t2 :: rt := fun t1 t2 u hu => by
    simp only [mem_append, mem_cons] at hu ⊢
    tauto
  exact ⟨m3, _, e3, i4, get_set_self _ _ _ (by omega),
    (k1.trans (k3.mono (hmem _ _))).trans (k4.mono (hmem _ _))⟩

end

theorem u32_rest {s offset size : ℕ} (hs : s < 2 ^ 32) (h : size + offset + mcbSize < s) :
    u32 (3 * 2 ^ 32 + s - offset - size - mcbSize) = s - (offset + size) - mcbSize := by
  unfold u32
  omega

/-- `mallocTail` hands out the loose tile `x`, split when more than a header is left. -/
theorem mallocTail_spec {m : Mem} {l rt : List Tile} {ls : Lst → List ℕ} {x s size offset : ℕ}
    (h : HeapInv r m (l ++ ⟨x, s, .loose⟩ :: rt) ls) (hs : get m x .size = s) (hsize : 0 < size)
    (hfit : size + offset ≤ s) (a : Alloc) :
    ∃ m' ls' s' tl, mallocTail r m x size offset = some (m', r.dataStart x + offset) ∧
      HeapInv r m' (l ++ ⟨x, s', .used a⟩ :: (tl ++ rt)) ls' ∧ offset + size ≤ s' ∧ Remainder tl ∧
      Keeps r (l ++ rt) m m' := by
  obtain ⟨hx0, hx1, hx2⟩ := h.fin_lt
  have hbx : get m x .buffer = r.dataStart x := h.buffer ⟨x, s, .loose⟩ (mem_mid.mpr (.inl rfl))
  have hres : u32 (r.dataStart x + offset) = r.dataStart x + offset := u32_of_lt (by omega)
  have hlim : u32 (size + offset + mcbSize) = size + offset + mcbSize := u32_of_lt (by omega)
  by_cases hsplit : s > size + offset + mcbSize
  · obtain ⟨z, hz⟩ : ∃ z, z = r.dataStart x + (offset + size) := ⟨_, rfl⟩
    have hz' : u32 (r.dataStart x + offset + size) = z := by rw [u32_of_lt (by omega), hz]; omega
    have hszx : get (set m z .buffer (z + mcbSize)) x .size = s := by
      rw [get_set (fun _ => .inr (by omega)) (.inl (by omega)), hs]
    obtain ⟨m3, ls3, e3, i3, z3, k3⟩ := h.cut hz (by omega) (by omega)
    obtain ⟨m5, ls5, e5, i5, b5, k5⟩ := i3.hand_out z3 a
    refine ⟨m5, ls5, offset + size, [⟨z, s - (offset + size) - mcbSize, .free⟩], ?_, i5, le_rfl,
      .inr ⟨_, _, rfl⟩, k3.trans (k5.mono fun u hu => ?_)⟩
    · unfold mallocTail
      rw [hs, hbx, hlim, if_pos hsplit]
      dsimp only
      rw [hz', hszx, u32_rest (show s < 2 ^ 32 by omega) hsplit, e3, bind_eq_bind, bind_some,
        bind_some, e5, bind_some, b5, hres]
    · clear * - hu
      simp only [mem_append, mem_cons] at hu ⊢
      tauto
  · obtain ⟨m1, ls1, e1, i1, b1, k1⟩ := h.hand_out hs a
    refine ⟨m1, ls1, s, [], ?_, i1, by omega, .inl rfl, k1⟩
    unfold mallocTail
    rw [hs, hbx, hlim, if_neg hsplit]
    rw [bind_eq_bind, bind_some]
    dsimp only
    rw [e1, bind_some, b1, hres]

/-! ### Carving a result out of a free tile -/

section
variable {m m' : Mem} {l rt ts : List Tile} {ls : Lst → List ℕ} {x s : ℕ}

/-- A header written into a payload is kept with the payload. -/
theorem Keeps.get_payload (hk : Keeps r ts m m') {t : Tile} (ht : t ∈ ts) {y : ℕ} (h1 : r.dataStart t.mcb ≤ y)
    (h2 : y + mcbSize ≤ t.fin r) (f : Field) : get m' y f = get m y f := by
  have hs : Same (fun i => ¬ (r.dataStart t.mcb ≤ i ∧ i < t.fin r)) m m' := fun i hi =>
    hk t ht i (not_not.mp hi).1 (not_not.mp hi).2
  refine get_same hs fun i hi hc => hc ?_
  have := f.offset_add_le
  unfold word at hi
  omega

theorem HeapInv.get_size (h : HeapInv r m ts ls) {S : List ℕ} (hs : Same (nextWords S) m m')
    (hS : ∀ a ∈ S, a ∈ headers r ts) {t : Tile} (ht : t ∈ ts) : get m' t.mcb .size = get m t.mcb .size :=
  get_nextWords hs (fun b hb hne => h.hdrs.apart _ (mcb_mem_headers ht) b (hS b hb) hne) (by decide)

/-- The free tile `x` cut in front of the header `y`: it shrinks, and joins the freed list again. -/
theorem HeapInv.cut_front (h : HeapInv r m (l ++ ⟨x, s, .free⟩ :: rt) ls) {n y : ℕ} (hy : y = r.dataStart x + n)
    (hn : 0 < n) (hs : n + mcbSize < s) :
    let m1 := set (set m y .buffer (y + mcbSize)) y .size (s - n - mcbSize)
    ∃ m2 m3 ls', removeMcb m1 r.freedList x = some m2 ∧
      insertMcb (set m2 x .size n) r.freedList x = some m3 ∧
      HeapInv r m3 (l ++ [⟨x, n, .free⟩] ++ ⟨y, s - n - mcbSize, .loose⟩ :: rt) ls' ∧
      get m3 y .size = s - n - mcbSize ∧ Keeps r (l ++ rt) m m3 := by
  intro m1
  obtain ⟨hx0, hx1, hx2⟩ := h.fin_lt
  obtain ⟨i1, k1, b1, z1, -⟩ := h.new_header n (y + mcbSize) (s - n - mcbSize) (by omega) (by omega) (by omega)
  rw [← hy] at i1 k1 b1 z1
  obtain ⟨m2, e2, i2, -, k2, -⟩ := i1.detach (k := .free) (w := .freed) rfl
  have hin : ∀ f, get m2 y f = get m1 y f := fun f =>
    k2.get_payload (mem_mid.mpr (.inl rfl)) (by simp only; omega) (by unfold Tile.fin; simp only; omega) f
  have i3 := i2.split hn hs (by rw [← hy, hin .buffer, b1])
  rw [← hy] at i3
  have i4 := i3.set_size (t := ⟨x, n, .loose⟩) (mem_mid.mpr (.inl rfl)) rfl n
  have k4 : Keeps r _ m2 (set m2 x .size n) :=
    keeps_set_size i3.tiled (t := ⟨x, n, .loose⟩) (mem_mid.mpr (.inl rfl)) n
  obtain ⟨m5, e5, i5, k5, s5⟩ := i4.attach (k := .free) (w := .freed) rfl (get_set_self _ _ _ (by omega))
  have hyt : (⟨y, s - n - mcbSize, .loose⟩ : Tile) ∈
      l ++ (⟨x, n, .loose⟩ : Tile) :: ⟨y, s - n - mcbSize, .loose⟩ :: rt := by simp
  have hz : get m5 y .size = s - n - mcbSize := by
    have h5 := i4.get_size s5 (fun a ha => ?_) hyt
    · rw [h5, get_set (fun _ => .inl (by simp only; omega)) (.inl (by simp only; omega)), hin .size, z1]
    · rcases mem_cons.mp ha with rfl | ha
      · exact mcb_mem_headers (t := ⟨a, n, .loose⟩) (mem_mid.mpr (.inl rfl))
      · exact i4.list_mem_headers ha
  have hmem : ∀ (t1 t2 : Tile), ∀ u ∈ l ++ rt, u ∈ l ++ t1 :: t2 :: rt := fun t1 t2 u hu => by
    simp only [mem_append, mem_cons] at hu ⊢
    tauto
  rw [mid_succ] at i5
  refine ⟨m2, m5, _, e2, e5, i5, hz, ?_⟩
  exact ((k1.trans (k2.mono fun u hu => mem_mid.mpr (.inr hu))).trans (k4.mono (hmem _ _))).trans
    (k5.mono (hmem _ _))

end

/-- A result with its arguments lies in the payload of its tile and is aligned. -/
structure Fits (r : Region) (t : Tile) (a : Alloc) : Prop where
  lower : r.dataStart t.mcb ≤ a.ptr
  upper : a.ptr + a.size ≤ t.fin r
  pos : 0 < a.size
  aligned : a.ptr % max a.align 4 = 0

/-- What a free tile is carved into: the result `a`, and what is left in front and behind. -/
def Carve (r : Region) (a : Alloc) (us : List Tile) : Prop :=
  ∃ hd y s' tl, us = hd ++ ⟨y, s', .used a⟩ :: tl ∧ Remainder hd ∧ Remainder tl ∧
    Fits r ⟨y, s', .used a⟩ a

/-- `mallocAt` carves a result of `size` bytes at `offset` out of the tile. -/
theorem mallocAt_spec {m : Mem} {l rt : List Tile} {ls : Lst → List ℕ} {x s size offset : ℕ}
    (h : HeapInv r m (l ++ ⟨x, s, .free⟩ :: rt) ls) (hsize : 0 < size) (hfit : size + offset ≤ s) (a : Alloc)
    (hp : a.ptr = r.dataStart x + offset) (ha : a.size ≤ size) (hpos : 0 < a.size)
    (hal : a.ptr % max a.align 4 = 0) :
    ∃ m' ls' us, mallocAt r m x size offset = some (m', a.ptr) ∧ HeapInv r m' (l ++ us ++ rt) ls' ∧
      Carve r a us ∧ Keeps r (l ++ rt) m m' := by
  obtain ⟨hx0, hx1, hx2⟩ := h.fin_lt
  have hd : defaultAlign = 4 := rfl
  have hxt : (⟨x, s, .free⟩ : Tile) ∈ l ++ ⟨x, s, .free⟩ :: rt := mem_mid.mpr (.inl rfl)
  have hbx : get m x .buffer = r.dataStart x := h.buffer _ hxt
  have hsx : get m x .size = s := h.size _ hxt (by simp)
  by_cases hoff : offset ≥ mcbSize + defaultAlign
  · obtain ⟨y, hy⟩ : ∃ y, y = r.dataStart x + (offset - mcbSize) := ⟨_, rfl⟩
    have hyb : y ≠ r.buf := by
      have := (h.tiled.bounds.2 _ hxt).1
      simp only at this
      omega
    have hy' : u32 (r.dataStart x + offset - mcbSize) = y := by rw [u32_of_lt (by omega)]; omega
    have hrest : u32 (2 ^ 32 + s - offset) = s - (offset - mcbSize) - mcbSize := by unfold u32; omega
    have hszx : get (set m y .buffer (y + mcbSize)) x .size = s := by
      rw [get_set (fun _ => .inr (by omega)) (.inl (by omega)), hsx]
    obtain ⟨m2, m3, ls3, e2, e3, i3, z3, k3⟩ := h.cut_front hy (by omega) (by omega)
    obtain ⟨m4, ls4, s4, tl, e4, i4, f4, r4, k4⟩ := mallocTail_spec i3 z3 hsize (show size + 0 ≤ _ by omega) a
    have hdy : r.dataStart y = y + mcbSize := dataStart_of_ne hyb
    have hres : r.dataStart y + 0 = a.ptr := by rw [hdy, hp]; omega
    rw [hres] at e4
    refine ⟨m4, ls4, [⟨x, offset - mcbSize, .free⟩] ++ ⟨y, s4, .used a⟩ :: tl, ?_, by simpa using i4,
      ⟨_, _, _, _, rfl, .inr ⟨_, _, rfl⟩, r4, by simp only; omega, by unfold Tile.fin; simp only; omega, hpos, hal⟩,
      k3.trans (k4.mono fun u hu => ?_)⟩
    · unfold mallocAt
      rw [if_pos hoff, hbx, hy']
      dsimp only
      rw [hszx, hrest, e2, bind_eq_bind, bind_some, e3, bind_some, e4]
    · clear * - hu
      simp only [mem_append] at hu ⊢
      tauto
  · obtain ⟨m2, e2, i2, z2, k2, -⟩ := h.detach (k := .free) (w := .freed) rfl
    obtain ⟨m3, ls3, s3, tl, e3, i3, f3, r3, k3⟩ := mallocTail_spec i2 z2 hsize hfit a
    rw [← hp] at e3
    have e2' : removeMcb m r.freedList x = some m2 := e2
    refine ⟨m3, ls3, [] ++ ⟨x, s3, .used a⟩ :: tl, ?_, by simpa using i3,
      ⟨_, _, _, _, rfl, .inl rfl, r3, by simp only; omega, by unfold Tile.fin; simp only; omega, hpos, hal⟩,
      (k2.mono fun u hu => mem_mid.mpr (.inr hu)).trans k3⟩
    unfold mallocAt
    rw [if_neg hoff, e2', bind_eq_bind, bind_some, e3]

/-! ### The search -/

/-- The test of the loop of `vsf_bufmgr_malloc_aligned`. -/
def fits (m : Mem) (size align h : ℕ) : Bool :=
  u32 (size + alignOffset (get m h .buffer) align) ≤ get m h .size

/-- The loop takes the first block of the list that fits. -/
theorem mallocLoop_spec {m : Mem} {size align : ℕ} : ∀ (f y : ℕ) (zs : List ℕ),
    Chain (nextOf m) (nextOf m y) zs → zs.length < f →
    mallocLoop r size align f m (listNext m y) =
      match zs.find? (fits m size align) with
      | none => some (m, 0)
      | some h => mallocAt r m h size (alignOffset (get m h .buffer) align) := by
  intro f
  induction f with
  | zero => intro y zs _ hf; omega
  | succ f ih =>
    intro y zs h hf
    unfold mallocLoop
    rcases zs with _ | ⟨z, zs⟩
    · rw [if_pos (nextOf_eq_none h), find?_nil]
    · obtain ⟨hz, hzs⟩ := chain_cons.mp h
      obtain ⟨hnz, hz0⟩ := nextOf_eq_some hz
      rw [hnz, if_neg hz0]
      by_cases hfit : fits m size align z = true
      · rw [find?_cons_of_pos hfit]
        exact if_pos (of_decide_eq_true hfit)
      · rw [find?_cons_of_neg hfit]
        refine (if_neg fun hc => hfit (decide_eq_true hc)).trans ?_
        exact ih z zs hzs (by simp only [length_cons] at hf; omega)

theorem and_three (n : ℕ) : n &&& 3 = n % 4 := Nat.and_two_pow_sub_one_eq_mod n 2

theorem roundSize_toNat {size : UInt32} (h : (size.toNat + 3) / 4 * 4 < 2 ^ 32) :
    (roundSize size).toNat = (size.toNat + 3) / 4 * 4 := by
  have hlt := size.toNat_lt
  have hmask : (size &&& 0xfffffffc).toNat = size.toNat - size.toNat % 4 := by
    rw [UInt32.toNat_and]; exact and_mask hlt
  have hlow : (size &&& 3).toNat = size.toNat % 4 := by
    rw [UInt32.toNat_and]; exact and_three _
  unfold roundSize
  split_ifs with h0
  · have h1 : size.toNat % 4 ≠ 0 := fun hc => h0 (UInt32.toNat_inj.mp (by rw [hlow, hc]; rfl))
    rw [UInt32.toNat_add, hmask, show (4 : UInt32).toNat = 4 from rfl, Nat.mod_eq_of_lt (by omega)]
    omega
  · have h1 : size.toNat % 4 = 0 := by rw [← hlow, not_not.mp h0]; rfl
    omega

theorem alignOffset_mod (b : ℕ) {a : ℕ} (ha : 0 < a) : (b + alignOffset b a) % a = 0 := by
  unfold alignOffset
  split_ifs with h
  · have hlt := Nat.mod_lt b ha
    have hdm := Nat.div_add_mod b a
    have : b + (a - b % a) = a * (b / a + 1) := by rw [mul_add]; omega
    rw [this, Nat.mul_mod_right]
  · simpa using h

theorem clampAlign_eq (align : UInt32) : clampAlign align = max align.toNat 4 := by
  unfold clampAlign defaultAlign
  split_ifs <;> omega

/-- The rounded size and the offset in each of the blocks `fs` do not wrap. -/
def NoWrap (m : Mem) (fs : List ℕ) (size align : UInt32) : Prop :=
  ∀ h ∈ fs, (size.toNat + 3) / 4 * 4 + alignOffset (get m h .buffer) (clampAlign align) < 2 ^ 32

instance (m : Mem) (fs : List ℕ) (size align : UInt32) : Decidable (NoWrap m fs size align) :=
  inferInstanceAs (Decidable (∀ h ∈ fs, _))

/-- The first of the blocks `fs` that passes the test passes it without a wrap. -/
def FirstFits (m : Mem) (fs : List ℕ) (size align : UInt32) : Prop :=
  ∀ h, fs.find? (fits m (roundSize size).toNat (clampAlign align)) = some h →
    (size.toNat + 3) / 4 * 4 + alignOffset (get m h .buffer) (clampAlign align) < 2 ^ 32

theorem NoWrap.firstFits {m : Mem} {fs : List ℕ} {size align : UInt32} (h : NoWrap m fs size align) : FirstFits m fs size align :=
  fun x hx => h x (mem_of_find?_eq_some hx)

theorem HeapInv.list_length {m : Mem} {ts : List Tile} {ls : Lst → List ℕ} (h : HeapInv r m ts ls) (w : Lst) :
    (ls w).length < walkFuel := by
  have := chain_length (h.list w) (h.hdrs.mono fun a ha => h.list_mem_headers ha)
  simpa using this

/-- **`vsf_bufmgr_malloc_aligned` returns** `NULL`, or a result carved out of a free tile. -/
theorem malloc_spec {m : Mem} {ts : List Tile} {ls : Lst → List ℕ} (h : HeapInv r m ts ls)
    {size align : UInt32} (hw : FirstFits m (ls .freed) size align) :
    mallocAligned r m size align = some (m, 0) ∨
    ∃ m' ls' l x s rt us a, mallocAligned r m size align = some (m', a.ptr) ∧ a.ptr ≠ 0 ∧
      a.size = size.toNat ∧ a.align = align.toNat ∧ ts = l ++ ⟨x, s, .free⟩ :: rt ∧
      HeapInv r m' (l ++ us ++ rt) ls' ∧ Carve r a us ∧ Keeps r (l ++ rt) m m' := by
  unfold mallocAligned
  by_cases h0 : size = 0
  · exact .inl (if_pos h0)
  have hpos : 0 < size.toNat := pos_of_ne_zero fun hc => h0 (UInt32.toNat_inj.mp (by simpa using hc))
  have hch : Chain (nextOf m) (nextOf m r.freedList) (ls .freed) := (chain_cons.mp (h.list .freed)).2
  rw [if_neg h0, mallocLoop_spec walkFuel r.freedList (ls .freed) hch (h.list_length .freed)]
  rcases hf : (ls .freed).find? (fits m (roundSize size).toNat (clampAlign align)) with _ | x
  · exact .inl rfl
  right
  have hx : x ∈ ls .freed := mem_of_find?_eq_some hf
  have hfit := find?_some hf
  obtain ⟨⟨y, s, k⟩, ht, hk, rfl⟩ := (h.mem .freed x).mp hx
  obtain rfl : k = .free := by cases k <;> first | rfl | cases hk
  obtain ⟨l, rt, rfl⟩ := append_of_mem ht
  have hb : get m y .buffer = r.dataStart y := h.buffer _ ht
  have hs : get m y .size = s := h.size _ ht (by simp)
  have hwx := hw y hf
  simp only [fits, decide_eq_true_eq] at hfit
  rw [roundSize_toNat (by omega), u32_of_lt hwx, hs, hb] at hfit
  rw [hb] at hwx
  obtain ⟨hy0, hy1, -⟩ := h.fin_lt
  let a : Alloc := ⟨r.dataStart y + alignOffset (r.dataStart y) (clampAlign align), size.toNat, align.toNat⟩
  have hround := @roundSize_toNat size (by omega)
  obtain ⟨m', ls', us, e, i, c, kp⟩ := mallocAt_spec h (show 0 < (roundSize size).toNat by omega)
    (by rw [hround]; exact hfit) a rfl (by rw [hround]; simp only [a]; omega) hpos
    (by simp only [a]; rw [← clampAlign_eq]; exact alignOffset_mod _ (by rw [clampAlign_eq]; omega))
  refine ⟨m', ls', l, y, s, rt, us, a, ?_, by simp only [a]; omega, rfl, rfl, rfl, i, c, kp⟩
  simp only [hb]
  exact e

end Bufmgr
end Vsf
