/-
# What vsf_bufmgr_free does to the heap

The call takes the tile of its pointer off the allocated list and merges it with the free tiles
beside it. `vsf_bufmgr_merge_mcb` compares addresses in a list ordered by size; in a row of tiles
what it finds are the neighbours (`mergeLoop_row`).
-/
import Mathlib
import Vsf.Buffer.BufmgrMalloc

namespace Vsf
namespace Bufmgr

open ByteMem Linked List Option

variable {r : Region}

/-! ### The search for the neighbours -/

/-- The last block of `zs` that satisfies `c`, or `p`. -/
def lastOr (c : ℕ → Prop) [DecidablePred c] (p : ℕ) (zs : List ℕ) : ℕ :=
  zs.foldl (fun q a => if c a then a else q) p

theorem lastOr_cases (c : ℕ → Prop) [DecidablePred c] : ∀ (zs : List ℕ) (p : ℕ),
    (lastOr c p zs = p ∧ ∀ a ∈ zs, ¬ c a) ∨ (lastOr c p zs ∈ zs ∧ c (lastOr c p zs))
  | [], p => .inl ⟨rfl, fun a ha => by cases ha⟩
  | z :: zs, p => by
    have hstep : lastOr c p (z :: zs) = lastOr c (if c z then z else p) zs := rfl
    rw [hstep]
    rcases lastOr_cases c zs (if c z then z else p) with ⟨h1, h2⟩ | ⟨h1, h2⟩
    · rw [h1]
      by_cases hz : c z
      · rw [if_pos hz]
        exact .inr ⟨mem_cons_self, hz⟩
      · rw [if_neg hz]
        refine .inl ⟨rfl, fun a ha => ?_⟩
        rcases mem_cons.mp ha with rfl | ha
        · exact hz
        · exact h2 a ha
    · exact .inr ⟨mem_cons_of_mem _ h1, h2⟩

/-- The block `a` ends where `mcb` starts. -/
abbrev EndsAt (m : Mem) (mcb a : ℕ) : Prop := u32 (get m a .buffer + get m a .size) = mcb

/-- The loop finds the last block that ends at `mcb`, and the last where `mcb` ends. -/
theorem mergeLoop_spec {m : Mem} {mcb : ℕ} : ∀ (f y : ℕ) (zs : List ℕ) (p n : ℕ),
    Chain (nextOf m) (nextOf m y) zs → zs.length < f →
    mergeLoop m mcb f (listNext m y) p n =
      some (lastOr (EndsAt m mcb) p zs, lastOr (fun a => EndsAt m a mcb) n zs) := by
  intro f
  induction f with
  | zero => intro y zs p n _ hf; omega
  | succ f ih =>
    intro y zs p n h hf
    unfold mergeLoop
    rcases zs with _ | ⟨z, zs⟩
    · rw [if_pos (nextOf_eq_none h)]
      rfl
    · obtain ⟨hz, hzs⟩ := chain_cons.mp h
      obtain ⟨hnz, hz0⟩ := nextOf_eq_some hz
      rw [hnz, if_neg hz0, ih z zs _ _ hzs (by simp only [length_cons] at hf; omega)]
      rfl

/-- The header of the free tile at the end of `l`, or `NULL`. -/
def freeLast (l : List Tile) : ℕ :=
  match l.getLast? with
  | some ⟨x, _, .free⟩ => x
  | _ => 0

/-- The header of the free tile at the start of `rt`, or `NULL`. -/
def freeHead (rt : List Tile) : ℕ :=
  match rt.head? with
  | some ⟨x, _, .free⟩ => x
  | _ => 0

section
variable {m : Mem} {l rt : List Tile} {ls : Lst → List ℕ} {x s : ℕ}

theorem Tiled.eq_of_fin {a e : ℕ} {ts : List Tile} (h : Tiled r a ts e) {t u : Tile} (ht : t ∈ ts)
    (hu : u ∈ ts) (he : t.fin r = u.fin r) : t = u := by
  have h1 := mcb_lt_fin r (h.bounds.2 t ht).2.1
  have h2 := mcb_lt_fin r (h.bounds.2 u hu).2.1
  rcases h.sep ht hu with h3 | h3 | h3
  · exact h3
  · omega
  · omega

/-- What a freed block's header says about its tile. -/
theorem HeapInv.freed_tile {ts : List Tile} (h : HeapInv r m ts ls) {a : ℕ} (ha : a ∈ ls .freed) :
    ∃ n, (⟨a, n, .free⟩ : Tile) ∈ ts ∧ u32 (get m a .buffer + get m a .size) = r.dataStart a + n := by
  obtain ⟨⟨a, n, k⟩, ht, hk, rfl⟩ := (h.mem .freed a).mp ha
  obtain rfl : k = .free := by cases k <;> first | rfl | cases hk
  have hb := (h.tiled.bounds.2 _ ht).2.2
  have hlt := r.buf_lt
  unfold Tile.fin at hb
  refine ⟨n, ht, ?_⟩
  rw [h.buffer _ ht, h.size _ ht (by simp)]
  exact u32_of_lt (by simp only at hb ⊢; omega)

/-- The free block that ends at the loose tile `x` is the tile in front of it. -/
theorem HeapInv.endsAt (h : HeapInv r m (l ++ ⟨x, s, .loose⟩ :: rt) ls) :
    lastOr (EndsAt m x) 0 (ls .freed) = freeLast l := by
  have hrow := tiled_mid.mp h.tiled
  -- the free tile in front of `x` is in the freed list and ends at `x`
  have hlast : ∀ {l' : List Tile} {w n : ℕ}, l = l' ++ [⟨w, n, .free⟩] →
      w ∈ ls .freed ∧ EndsAt m x w := fun {l' w n} hl => by
    subst hl
    have ht : (⟨w, n, .free⟩ : Tile) ∈ (l' ++ [⟨w, n, .free⟩]) ++ ⟨x, s, .loose⟩ :: rt := by simp
    have hw : w ∈ ls .freed := (h.mem .freed w).mpr ⟨_, ht, rfl, rfl⟩
    obtain ⟨n', ht', he⟩ := h.freed_tile hw
    obtain ⟨b, -, -, -, hb⟩ := tiled_append.mp hrow.1
    have heq := h.tiled.eq_of_mcb ht ht' rfl
    simp only [Tile.mk.injEq, true_and, and_true] at heq
    refine ⟨hw, he.trans ?_⟩
    have hb' : (⟨w, n, .free⟩ : Tile).fin r = x := hb
    unfold Tile.fin at hb'
    simp only at hb'
    omega
  rcases lastOr_cases (EndsAt m x) (ls .freed) 0 with ⟨h1, h2⟩ | ⟨h1, h2⟩
  · rw [h1]
    unfold freeLast
    rcases eq_nil_or_concat' l with hl | ⟨l', ⟨w, n, k⟩, hl⟩
    · rw [hl]; rfl
    · cases k with
      | free => obtain ⟨hw, he⟩ := hlast hl; exact absurd he (h2 w hw)
      | used a => rw [hl, getLast?_concat]
      | loose => rw [hl, getLast?_concat]
  · obtain ⟨n, ht, he⟩ := h.freed_tile h1
    generalize lastOr (EndsAt m x) 0 (ls .freed) = a at *
    have hfin : (⟨a, n, .free⟩ : Tile).fin r = x := he.symm.trans h2
    have hax := mcb_lt_fin r (h.tiled.bounds.2 _ ht).2.1
    rcases eq_nil_or_concat' l with hl | ⟨l', u, hl⟩
    · -- nothing ends at the first tile
      subst hl
      have hxb : r.buf = x := hrow.1
      have := (h.tiled.bounds.2 _ ht).1
      simp only at this hax
      omega
    · subst hl
      obtain ⟨b, -, -, -, hb⟩ := tiled_append.mp hrow.1
      have hu : u ∈ (l' ++ [u]) ++ (⟨x, s, .loose⟩ : Tile) :: rt := by simp
      have hau : (⟨a, n, .free⟩ : Tile) = u := h.tiled.eq_of_fin ht hu (hfin.trans hb.symm)
      unfold freeLast
      rw [getLast?_concat, ← hau]

/-- The free block where the loose tile `x` ends is the tile behind it. -/
theorem HeapInv.startsAt (h : HeapInv r m (l ++ ⟨x, s, .loose⟩ :: rt) ls) (hs : get m x .size = s) :
    lastOr (fun a => EndsAt m a x) 0 (ls .freed) = freeHead rt := by
  obtain ⟨h1, h2, h3⟩ := tiled_mid.mp h.tiled
  have hxt : (⟨x, s, .loose⟩ : Tile) ∈ l ++ ⟨x, s, .loose⟩ :: rt := mem_mid.mpr (.inl rfl)
  have hx : u32 (get m x .buffer + get m x .size) = (⟨x, s, .loose⟩ : Tile).fin r := by
    rw [hs, h.buffer _ hxt]
    exact u32_of_lt h.fin_lt.2.2
  rcases lastOr_cases (fun a => EndsAt m a x) (ls .freed) 0 with ⟨h4, h5⟩ | ⟨h4, h5⟩
  · rw [h4]
    rcases rt with _ | ⟨⟨w, n, k⟩, rt⟩
    · rfl
    · cases k with
      | free =>
        have ht : (⟨w, n, .free⟩ : Tile) ∈ l ++ ⟨x, s, .loose⟩ :: ⟨w, n, .free⟩ :: rt := by simp
        have hw : w = (⟨x, s, .loose⟩ : Tile).fin r := h3.1
        exact absurd (hx.trans hw.symm) (h5 w ((h.mem .freed w).mpr ⟨_, ht, rfl, rfl⟩))
      | used a => rfl
      | loose => rfl
  · obtain ⟨n, ht, -⟩ := h.freed_tile h4
    generalize lastOr (fun a => EndsAt m a x) 0 (ls .freed) = a at *
    have ha : a = (⟨x, s, .loose⟩ : Tile).fin r := h5.symm.trans hx
    have hb := h.tiled.bounds.2 _ ht
    have haf := mcb_lt_fin r hb.2.1
    rcases rt with _ | ⟨⟨w, n', k⟩, rt⟩
    · -- nothing starts where the row ends
      have he : (⟨x, s, .loose⟩ : Tile).fin r = r.buf + r.size := h3
      simp only at haf
      omega
    · have hw : w = (⟨x, s, .loose⟩ : Tile).fin r := h3.1
      have hwt : (⟨w, n', k⟩ : Tile) ∈ l ++ ⟨x, s, .loose⟩ :: ⟨w, n', k⟩ :: rt := by simp
      have heq := h.tiled.eq_of_mcb ht hwt (ha.trans hw.symm)
      rw [← heq]
      rfl

/-- **What `vsf_bufmgr_merge_mcb` finds**: the free tiles beside `x`. -/
theorem mergeLoop_row (h : HeapInv r m (l ++ ⟨x, s, .loose⟩ :: rt) ls) (hs : get m x .size = s) :
    mergeLoop m x walkFuel (listNext m r.freedList) 0 0 = some (freeLast l, freeHead rt) := by
  have hch : Chain (nextOf m) (nextOf m r.freedList) (ls .freed) := (chain_cons.mp (h.list .freed)).2
  rw [mergeLoop_spec walkFuel r.freedList (ls .freed) 0 0 hch (h.list_length .freed), h.endsAt, h.startsAt hs]

end

/-! ### Merging -/

/-- A neighbour that is not free, or none. -/
def Closed (o : Option Tile) : Prop := ∀ t ∈ o, t.kind ≠ .free

theorem freeLast_cases {l : List Tile} (h : ∀ t ∈ l, 0 < t.mcb) :
    (freeLast l = 0 ∧ Closed l.getLast?) ∨
    ∃ l' w n, l = l' ++ [⟨w, n, .free⟩] ∧ freeLast l = w ∧ freeLast l ≠ 0 := by
  rcases eq_nil_or_concat' l with rfl | ⟨l', ⟨w, n, k⟩, rfl⟩
  · exact .inl ⟨rfl, fun t ht => by cases ht⟩
  · unfold freeLast Closed
    rw [getLast?_concat]
    cases k with
    | free =>
      have := h ⟨w, n, .free⟩ (by simp)
      exact .inr ⟨l', w, n, rfl, rfl, by simp only at this ⊢; omega⟩
    | used a => exact .inl ⟨rfl, fun t ht => by cases ht; simp⟩
    | loose => exact .inl ⟨rfl, fun t ht => by cases ht; simp⟩

theorem freeHead_cases {rt : List Tile} (h : ∀ t ∈ rt, 0 < t.mcb) :
    (freeHead rt = 0 ∧ Closed rt.head?) ∨
    ∃ w n rt', rt = ⟨w, n, .free⟩ :: rt' ∧ freeHead rt = w ∧ freeHead rt ≠ 0 := by
  rcases rt with _ | ⟨⟨w, n, k⟩, rt⟩
  · exact .inl ⟨rfl, fun t ht => by cases ht⟩
  · unfold freeHead Closed
    rw [head?_cons]
    cases k with
    | free =>
      have := h ⟨w, n, .free⟩ (by simp)
      exact .inr ⟨w, n, rt, rfl, rfl, by simp only at this ⊢; omega⟩
    | used a => exact .inl ⟨rfl, fun t ht => by cases ht; simp⟩
    | loose => exact .inl ⟨rfl, fun t ht => by cases ht; simp⟩

/-- What a release leaves in front and behind: it takes a free tile on each side. -/
structure Release (l rt l' rt' : List Tile) : Prop where
  front : l = l' ∧ Closed l.getLast? ∨ ∃ w n, l = l' ++ [⟨w, n, .free⟩]
  back : rt = rt' ∧ Closed rt.head? ∨ ∃ w n, rt = ⟨w, n, .free⟩ :: rt'

section
variable {m : Mem} {l rt : List Tile} {ls : Lst → List ℕ} {x s n : ℕ}

/-- A free tile leaves the freed list; every tile keeps its size. -/
theorem HeapInv.detach_free (h : HeapInv r m (l ++ ⟨x, s, .free⟩ :: rt) ls) :
    ∃ m' ls', removeMcb m r.freedList x = some m' ∧ HeapInv r m' (l ++ ⟨x, s, .loose⟩ :: rt) ls' ∧
      (∀ t ∈ l ++ ⟨x, s, .free⟩ :: rt, get m' t.mcb .size = get m t.mcb .size) ∧
      get m' x .size = s ∧ Keeps r (l ++ ⟨x, s, .free⟩ :: rt) m m' := by
  obtain ⟨m', e, i, z, k, hs⟩ := h.detach (k := .free) (w := .freed) rfl
  exact ⟨m', _, e, i, fun t ht => h.get_size hs (fun a ha => h.list_mem_headers ha) ht, z, k⟩

/-- The merged tile gets its size and joins the freed list. -/
theorem HeapInv.attach_free (h : HeapInv r m (l ++ ⟨x, n, .loose⟩ :: rt) ls) :
    ∃ m' ls', insertMcb (set m x .size n) r.freedList x = some m' ∧
      HeapInv r m' (l ++ ⟨x, n, .free⟩ :: rt) ls' ∧ Keeps r (l ++ rt) m m' := by
  have hxt : (⟨x, n, .loose⟩ : Tile) ∈ l ++ ⟨x, n, .loose⟩ :: rt := mem_mid.mpr (.inl rfl)
  have hlt := h.fin_lt
  have i1 := h.set_size hxt rfl n
  obtain ⟨m', e, i2, k, -⟩ := i1.attach (k := .free) (w := .freed) rfl (get_set_self _ _ _ (by omega))
  exact ⟨m', _, e, i2, ((keeps_set_size h.tiled hxt n).trans k).mono fun t ht => mem_mid.mpr (.inr ht)⟩

/-- **`vsf_bufmgr_merge_mcb` joins the loose tile with its free neighbours.** -/
theorem mergeMcb_spec (h : HeapInv r m (l ++ ⟨x, s, .loose⟩ :: rt) ls) (hs : get m x .size = s) :
    ∃ m' ls' l' w n rt', mergeMcb m r.freedList x = some m' ∧ HeapInv r m' (l' ++ ⟨w, n, .free⟩ :: rt') ls' ∧
      Release l rt l' rt' ∧ Keeps r (l' ++ rt') m m' := by
  have hpos : ∀ t ∈ l ++ rt, 0 < t.mcb := fun t ht => by
    have := (h.tiled.bounds.2 t (mem_mid.mpr (.inr ht))).1
    have := r.buf_pos
    omega
  unfold mergeMcb
  rw [mergeLoop_row h hs, bind_eq_bind, bind_some]
  dsimp only
  rcases freeLast_cases fun t ht => hpos t (mem_append_left _ ht) with ⟨hp, hpc⟩ | ⟨l', w, n, rfl, hp, hp0⟩
  · rcases freeHead_cases fun t ht => hpos t (mem_append_right _ ht) with ⟨hn, hnc⟩ | ⟨y, s', rt', rfl, hn, hn0⟩
    · -- no free neighbour
      rw [if_pos ⟨hn, hp⟩]
      obtain ⟨m', e, i, k, -⟩ := h.attach (k := .free) (w := .freed) rfl hs
      exact ⟨m', _, l, x, s, rt, e, i, ⟨.inl ⟨rfl, hpc⟩, .inl ⟨rfl, hnc⟩⟩, k.mono fun t ht => mem_mid.mpr (.inr ht)⟩
    · -- the tile behind
      rw [if_neg (fun hc => hn0 hc.1), if_pos ⟨hn0, hp⟩, hn]
      rw [mid_succ] at h
      obtain ⟨m1, ls1, e1, i1, z1, zy1, k1⟩ := h.detach_free
      have zx1 : get m1 x .size = s := (z1 ⟨x, s, .loose⟩ (by simp)).trans hs
      rw [← mid_succ] at i1
      have i2 := i1.join
      have hlt := i2.fin_lt
      have hsum : u32 (s + (mcbSize + s')) = s + mcbSize + s' := by rw [u32_of_lt (by omega)]; omega
      obtain ⟨m3, ls3, e3, i3, k3⟩ := i2.attach_free
      refine ⟨m3, ls3, l, x, _, rt', ?_, i3, ⟨.inl ⟨rfl, hpc⟩, .inr ⟨y, s', rfl⟩⟩, (k1.mono fun t ht => ?_).trans k3⟩
      · rw [e1, bind_eq_bind, bind_some, zx1, zy1, hsum, e3]
      · clear * - ht
        simp only [mem_append, mem_cons] at ht ⊢
        tauto
  · have hrow : (l' ++ [⟨w, n, .free⟩]) ++ ⟨x, s, .loose⟩ :: rt = l' ++ ⟨w, n, .free⟩ :: ⟨x, s, .loose⟩ :: rt := by
      simp
    rcases freeHead_cases fun t ht => hpos t (mem_append_right _ ht) with ⟨hn, hnc⟩ | ⟨y, s', rt', rfl, hn, hn0⟩
    · -- the tile in front
      rw [if_neg (fun hc => hp0 hc.2), if_neg (fun hc => hc.1 hn), if_pos ⟨hn, hp0⟩, hp]
      rw [hrow] at h
      obtain ⟨m1, ls1, e1, i1, z1, zw1, k1⟩ := h.detach_free
      have zx1 : get m1 x .size = s := (z1 ⟨x, s, .loose⟩ (by simp)).trans hs
      have i2 := i1.join
      have hlt := i2.fin_lt
      have hsum : u32 (n + (mcbSize + s)) = n + mcbSize + s := by rw [u32_of_lt (by omega)]; omega
      obtain ⟨m3, ls3, e3, i3, k3⟩ := i2.attach_free
      refine ⟨m3, ls3, l', w, _, rt, ?_, i3, ⟨.inr ⟨w, n, rfl⟩, .inl ⟨rfl, hnc⟩⟩, (k1.mono fun t ht => ?_).trans k3⟩
      · rw [e1, bind_eq_bind, bind_some, zx1, zw1, hsum, e3]
      · clear * - ht
        simp only [mem_append, mem_cons] at ht ⊢
        tauto
    · -- both: the tile in front leaves its list first
      rw [if_neg (fun hc => hp0 hc.2), if_neg (fun hc => hp0 hc.2), if_neg (fun hc => hn0 hc.1), hp, hn]
      rw [hrow] at h
      obtain ⟨m1, ls1, e1, i1, z1, zw1, k1⟩ := h.detach_free
      have zx1 : get m1 x .size = s := (z1 ⟨x, s, .loose⟩ (by simp)).trans hs
      have hrow2 : l' ++ (⟨w, n, .loose⟩ : Tile) :: ⟨x, s, .loose⟩ :: ⟨y, s', .free⟩ :: rt' =
          (l' ++ [⟨w, n, .loose⟩, ⟨x, s, .loose⟩]) ++ ⟨y, s', .free⟩ :: rt' := by simp
      rw [hrow2] at i1
      obtain ⟨m2, ls2, e2, i2, z2, zy2, k2⟩ := i1.detach_free
      have zx2 : get m2 x .size = s := (z2 ⟨x, s, .loose⟩ (by simp)).trans zx1
      have zw2 : get m2 w .size = n := (z2 ⟨w, n, .loose⟩ (by simp)).trans zw1
      have hrow3 : (l' ++ [(⟨w, n, .loose⟩ : Tile), ⟨x, s, .loose⟩]) ++ ⟨y, s', .loose⟩ :: rt' =
          l' ++ ⟨w, n, .loose⟩ :: ⟨x, s, .loose⟩ :: ⟨y, s', .loose⟩ :: rt' := by simp
      rw [hrow3] at i2
      have i3 := i2.join.join
      have hlt := i3.fin_lt
      have hsum : u32 (n + (mcbSize * 2 + s + s')) = n + mcbSize + s + mcbSize + s' := by
        rw [u32_of_lt (by omega)]; omega
      obtain ⟨m4, ls4, e4, i4, k4⟩ := i3.attach_free
      refine ⟨m4, ls4, l', w, _, rt', ?_, i4, ⟨.inr ⟨w, n, rfl⟩, .inr ⟨y, s', rfl⟩⟩,
        ((k1.mono fun t ht => ?_).trans (k2.mono fun t ht => ?_)).trans k4⟩
      · rw [e1, bind_eq_bind, bind_some, e2, bind_some, zx2, zw2, zy2, hsum, e4]
      · clear * - ht
        simp only [mem_append, mem_cons] at ht ⊢
        tauto
      · clear * - ht
        simp only [mem_append, mem_cons] at ht ⊢
        tauto

end

/-! ### Releasing -/

/-- The test of the loop of `vsf_bufmgr_free`. -/
def holds (m : Mem) (ptr h : ℕ) : Bool :=
  get m h .buffer ≤ ptr ∧ u32 (get m h .buffer + get m h .size) > ptr

/-- The loop takes the first block that holds the pointer. -/
theorem freeLoop_spec {m : Mem} {ptr : ℕ} : ∀ (f y : ℕ) (zs : List ℕ),
    Chain (nextOf m) (nextOf m y) zs → zs.length < f →
    freeLoop r ptr f m (listNext m y) =
      match zs.find? (holds m ptr) with
      | none => some m
      | some h => (removeMcb m r.allocatedList h).bind fun m => mergeMcb m r.freedList h := by
  intro f
  induction f with
  | zero => intro y zs _ hf; omega
  | succ f ih =>
    intro y zs h hf
    unfold freeLoop
    rcases zs with _ | ⟨z, zs⟩
    · rw [if_pos (nextOf_eq_none h), find?_nil]
    · obtain ⟨hz, hzs⟩ := chain_cons.mp h
      obtain ⟨hnz, hz0⟩ := nextOf_eq_some hz
      rw [hnz, if_neg hz0]
      by_cases hh : holds m ptr z = true
      · rw [find?_cons_of_pos hh, if_pos (of_decide_eq_true hh)]
        rfl
      · rw [find?_cons_of_neg hh, if_neg fun hc => hh (decide_eq_true hc)]
        exact ih z zs hzs (by simp only [length_cons] at hf; omega)

/-- **`vsf_bufmgr_free` releases the tile that holds its pointer.** -/
theorem free_spec {m : Mem} {l rt : List Tile} {ls : Lst → List ℕ} {x s : ℕ} {a : Alloc}
    (h : HeapInv r m (l ++ ⟨x, s, .used a⟩ :: rt) ls) (ha : Fits r ⟨x, s, .used a⟩ a) :
    ∃ m' ls' l' w n rt', free r m a.ptr = some m' ∧ HeapInv r m' (l' ++ ⟨w, n, .free⟩ :: rt') ls' ∧
      Release l rt l' rt' ∧ Keeps r (l' ++ rt') m m' := by
  have hxt : (⟨x, s, .used a⟩ : Tile) ∈ l ++ ⟨x, s, .used a⟩ :: rt := mem_mid.mpr (.inl rfl)
  have hlt := h.fin_lt
  have hx : x ∈ ls .allocated := (h.mem .allocated x).mpr ⟨_, hxt, rfl, rfl⟩
  have h1 := ha.lower
  have h2 := ha.upper
  have h3 := ha.pos
  unfold Tile.fin at h2
  simp only at h1 h2
  have hhx : holds m a.ptr x = true := by
    unfold holds
    rw [decide_eq_true_eq, h.buffer _ hxt, h.size _ hxt (by simp), u32_of_lt (by simp only; omega)]
    exact ⟨h1, by simp only; omega⟩
  -- no other block holds the pointer
  have huniq : ∀ y ∈ ls .allocated, holds m a.ptr y = true → y = x := fun y hy hhy => by
    obtain ⟨t, ht, hk, rfl⟩ := (h.mem .allocated y).mp hy
    have hb := h.tiled.bounds.2 t ht
    have hbuf := r.buf_lt
    unfold holds at hhy
    have hkl : t.kind ≠ .loose := fun hc => by rw [hc] at hk; cases hk
    rw [decide_eq_true_eq, h.buffer t ht, h.size t ht hkl,
      u32_of_lt (by have := hb.2.2; unfold Tile.fin at this; omega)] at hhy
    have hty := dataStart_ge r t.mcb
    rcases h.tiled.sep ht hxt with he | he | he
    · rw [he]
    · unfold Tile.fin at he; simp only at he; omega
    · unfold Tile.fin at he; simp only at he; omega
  have hfind : (ls .allocated).find? (holds m a.ptr) = some x := by
    rcases hf : (ls .allocated).find? (holds m a.ptr) with _ | y
    · exact absurd hhx (by simpa using find?_eq_none.mp hf x hx)
    · rw [huniq y (mem_of_find?_eq_some hf) (find?_some hf)]
  have hch : Chain (nextOf m) (nextOf m r.allocatedList) (ls .allocated) := (chain_cons.mp (h.list .allocated)).2
  obtain ⟨m1, e1, i1, z1, k1, -⟩ := h.detach (k := .used a) (w := .allocated) rfl
  obtain ⟨m2, ls2, l', w, n, rt', e2, i2, hr, k2⟩ := mergeMcb_spec i1 z1
  have e1' : removeMcb m r.allocatedList x = some m1 := e1
  refine ⟨m2, ls2, l', w, n, rt', ?_, i2, hr, (k1.mono fun t ht => mem_mid.mpr (.inr ?_)).trans k2⟩
  · unfold free
    rw [freeLoop_spec walkFuel r.allocatedList _ hch (h.list_length .allocated), hfind]
    dsimp only
    rw [e1', bind_some, e2]
  · have hl : ∀ u ∈ l', u ∈ l := fun u hu => by
      rcases hr.front with ⟨rfl, -⟩ | ⟨w, n, rfl⟩
      · exact hu
      · exact mem_append_left _ hu
    have hrt : ∀ u ∈ rt', u ∈ rt := fun u hu => by
      rcases hr.back with ⟨rfl, -⟩ | ⟨w, n, rfl⟩
      · exact hu
      · exact mem_cons_of_mem _ hu
    rcases mem_append.mp ht with hu | hu
    · exact mem_append_left _ (hl t hu)
    · exact mem_append_right _ (hrt t hu)

end Bufmgr
end Vsf
