/-
# The heap of the buffer manager as a row of tiles

The region is a row of tiles, each a header and a payload, free, handed out, or loose (in neither
list, inside a call). `HeapInv` says that a memory represents such a row. A call is a sequence of
moves that keep it: a tile leaves its list (`HeapInv.detach`) or joins one (`HeapInv.attach`), a
loose tile is split (`HeapInv.split`), two neighbours become one (`HeapInv.join`), and payloads and
loose sizes are written (`HeapInv.congr`).
-/
import Mathlib
import Vsf.Buffer.BufmgrList

namespace Vsf

open ByteMem Linked List Function Option

/-- A result of `vsf_bufmgr_malloc_aligned` not freed yet, with the arguments. -/
structure Alloc where
  ptr : ℕ
  size : ℕ
  align : ℕ
deriving DecidableEq

/-- The two lists of `struct vsf_bufmgr_t`. -/
inductive Lst where
  | freed
  | allocated
deriving DecidableEq

/-- What a tile is used for. -/
inductive Kind where
  | free
  | used (a : Alloc)
  | loose
deriving DecidableEq

/-- The list a tile is in. -/
def Kind.list : Kind → Option Lst
  | .free => some .freed
  | .used _ => some .allocated
  | .loose => none

/-- A block: its header's address, its payload's size and what it is used for. -/
structure Tile where
  mcb : ℕ
  size : ℕ
  kind : Kind
deriving DecidableEq

namespace Region

variable (r : Region)

/-- The head of a list. -/
def head : Lst → ℕ
  | .freed => r.freedList
  | .allocated => r.allocatedList

/-- Where the payload of the header at `a` starts; behind the first one there may be a gap. -/
def dataStart (a : ℕ) : ℕ := if a = r.buf then payloadStart r.buf else a + mcbSize

end Region

/-- The end of a tile. -/
def Tile.fin (r : Region) (t : Tile) : ℕ := r.dataStart t.mcb + t.size

namespace Bufmgr

variable {r : Region}

/-! ### The payload of the first header -/

theorem and_mask {x : ℕ} (h : x < 2 ^ 32) : x &&& 0xfffffffc = x - x % 4 := by
  have h1 : x - x % 4 = 2 ^ 2 * (x / 2 ^ 2) := by omega
  have h2 : 0xfffffffc = 2 ^ 2 * (2 ^ 30 - 1) := by norm_num
  rw [h1, h2]
  apply Nat.eq_of_testBit_eq
  intro i
  rw [Nat.testBit_and, Nat.testBit_two_pow_mul, Nat.testBit_two_pow_mul, Nat.testBit_div_two_pow,
    Nat.testBit_two_pow_sub_one]
  by_cases hi : 2 ≤ i
  · by_cases h3 : i < 32
    · simp [hi, show i - 2 < 30 by omega]
    · have hx : x.testBit i = false :=
        Nat.testBit_eq_false_of_lt (lt_of_lt_of_le h (Nat.pow_le_pow_right (by norm_num) (by omega)))
      simp [hi, hx]
  · simp [hi]

theorem payloadStart_eq (r : Region) : payloadStart r.buf = (r.buf + mcbSize + 3) / 4 * 4 := by
  have hroom := r.room
  have hlt := r.buf_lt
  have h : r.buf + mcbSize + 3 < 2 ^ 32 := by omega
  unfold payloadStart u32
  rw [Nat.mod_eq_of_lt h, and_mask h]
  omega

theorem dataStart_ge (r : Region) (a : ℕ) : a + mcbSize ≤ r.dataStart a := by
  unfold Region.dataStart
  split_ifs with h
  · rw [payloadStart_eq, h]; omega
  · exact le_rfl

theorem dataStart_buf (r : Region) : r.dataStart r.buf = (r.buf + mcbSize + 3) / 4 * 4 := by
  unfold Region.dataStart
  rw [if_pos rfl, payloadStart_eq]

variable {a e : ℕ} {t : Tile}

theorem dataStart_of_ne (h : a ≠ r.buf) : r.dataStart a = a + mcbSize := if_neg h

/-! ### Rows of tiles -/

/-- The tiles `ts` lie side by side from `a` to `e`, none without payload. -/
def Tiled (r : Region) : ℕ → List Tile → ℕ → Prop
  | a, [], e => a = e
  | a, t :: ts, e => t.mcb = a ∧ 0 < t.size ∧ Tiled r (t.fin r) ts e

theorem tiled_cons {ts : List Tile} :
    Tiled r a (t :: ts) e ↔ t.mcb = a ∧ 0 < t.size ∧ Tiled r (t.fin r) ts e := Iff.rfl

theorem tiled_append : ∀ {a e : ℕ} {ts us : List Tile},
    Tiled r a (ts ++ us) e ↔ ∃ b, Tiled r a ts b ∧ Tiled r b us e
  | a, e, [], us => by simp [Tiled]
  | a, e, t :: ts, us => by
    have ih := @tiled_append (t.fin r) e ts us
    rw [cons_append, tiled_cons, ih]
    constructor
    · rintro ⟨h1, h2, b, h3, h4⟩; exact ⟨b, ⟨h1, h2, h3⟩, h4⟩
    · rintro ⟨b, ⟨h1, h2, h3⟩, h4⟩; exact ⟨h1, h2, b, h3, h4⟩

theorem mcb_lt_fin (r : Region) {t : Tile} (h : 0 < t.size) : t.mcb + mcbSize < t.fin r := by
  have := dataStart_ge r t.mcb
  unfold Tile.fin
  omega

theorem Tiled.bounds : ∀ {a e : ℕ} {ts : List Tile}, Tiled r a ts e →
    a ≤ e ∧ ∀ t ∈ ts, a ≤ t.mcb ∧ 0 < t.size ∧ t.fin r ≤ e
  | a, e, [], h => ⟨le_of_eq h, fun t ht => by cases ht⟩
  | a, e, t :: ts, ⟨h1, h2, h3⟩ => by
    obtain ⟨h4, h5⟩ := Tiled.bounds h3
    have h6 := mcb_lt_fin r h2
    refine ⟨by omega, fun u hu => ?_⟩
    rcases mem_cons.mp hu with rfl | hu
    · exact ⟨by omega, h2, h4⟩
    · obtain ⟨h7, h8, h9⟩ := h5 u hu
      exact ⟨by omega, h8, h9⟩

/-- Two tiles of a row are the same or lie side by side. -/
theorem Tiled.sep : ∀ {a e : ℕ} {ts : List Tile}, Tiled r a ts e → ∀ {t u : Tile}, t ∈ ts → u ∈ ts →
    t = u ∨ t.fin r ≤ u.mcb ∨ u.fin r ≤ t.mcb
  | _, _, [], _, _, _, ht, _ => by cases ht
  | a, e, x :: ts, ⟨_, _, h3⟩, t, u, ht, hu => by
    obtain ⟨-, h5⟩ := Tiled.bounds h3
    rcases mem_cons.mp ht with rfl | ht'
    · rcases mem_cons.mp hu with rfl | hu'
      · exact .inl rfl
      · exact .inr (.inl (h5 u hu').1)
    · rcases mem_cons.mp hu with rfl | hu'
      · exact .inr (.inr (h5 t ht').1)
      · exact Tiled.sep h3 ht' hu'

theorem Tiled.eq_of_mcb {ts : List Tile} (h : Tiled r a ts e) {t u : Tile} (ht : t ∈ ts)
    (hu : u ∈ ts) (he : t.mcb = u.mcb) : t = u := by
  rcases h.sep ht hu with h1 | h1 | h1
  · exact h1
  · have := mcb_lt_fin r ((h.bounds.2 t ht).2.1); omega
  · have := mcb_lt_fin r ((h.bounds.2 u hu).2.1); omega

theorem Tiled.cover : ∀ {a e : ℕ} {ts : List Tile}, Tiled r a ts e → ∀ {i : ℕ}, a ≤ i → i < e →
    ∃ t ∈ ts, t.mcb ≤ i ∧ i < t.fin r
  | a, e, [], h, i, h1, h2 => by have : a = e := h; omega
  | a, e, t :: ts, ⟨h3, _, h4⟩, i, h1, h2 => by
    by_cases hi : i < t.fin r
    · exact ⟨t, mem_cons_self, by omega, hi⟩
    · obtain ⟨u, hu, h5⟩ := Tiled.cover h4 (by omega) h2
      exact ⟨u, mem_cons_of_mem _ hu, h5⟩

/-! ### A memory that represents a row -/

/-- `m` holds the row `ts`, with the lists `ls`. The size of a loose tile is not read. -/
structure HeapInv (r : Region) (m : Mem) (ts : List Tile) (ls : Lst → List ℕ) : Prop where
  tiled : Tiled r r.buf ts (r.buf + r.size)
  buffer : ∀ t ∈ ts, get m t.mcb .buffer = r.dataStart t.mcb
  size : ∀ t ∈ ts, t.kind ≠ .loose → get m t.mcb .size = t.size
  list : ∀ w, Chain (nextOf m) (some (r.head w)) (r.head w :: ls w)
  mem : ∀ w h, h ∈ ls w ↔ ∃ t ∈ ts, t.kind.list = some w ∧ t.mcb = h
  sorted : ∀ w, (ls w).Pairwise (SizeLe m)

/-- Every header: the list heads and those of the tiles. -/
def headers (r : Region) (ts : List Tile) : List ℕ := r.freedList :: r.allocatedList :: ts.map Tile.mcb

theorem head_mem_headers (r : Region) (ts : List Tile) (w : Lst) : r.head w ∈ headers r ts := by
  cases w <;> simp [headers, Region.head]

theorem mcb_mem_headers {ts : List Tile} (ht : t ∈ ts) : t.mcb ∈ headers r ts :=
  mem_cons_of_mem _ (mem_cons_of_mem _ (List.mem_map_of_mem ht))

theorem mem_headers {ts : List Tile} {h : ℕ} (hh : h ∈ headers r ts) :
    h = r.bufmgr ∨ h = r.bufmgr + mcbSize ∨ ∃ t ∈ ts, t.mcb = h := by
  simp only [headers, Region.freedList, Region.allocatedList, mem_cons, List.mem_map] at hh
  tauto

theorem Tiled.hdrs {ts : List Tile} (h : Tiled r r.buf ts (r.buf + r.size)) : Hdrs (headers r ts) := by
  have hr1 := r.bufmgr_pos
  have hr2 := r.bufmgr_lt
  have hr3 := r.buf_pos
  have hr4 := r.buf_lt
  have hr5 := r.apart
  have hb : ∀ t ∈ ts, r.buf ≤ t.mcb ∧ t.mcb + mcbSize < r.buf + r.size := fun t ht => by
    obtain ⟨h1, h2, h3⟩ := h.bounds.2 t ht
    have := mcb_lt_fin r h2
    exact ⟨h1, by omega⟩
  refine ⟨fun a ha => ?_, fun a ha => ?_, fun a ha b hb' hne => ?_⟩
  · rcases mem_headers ha with rfl | rfl | ⟨t, ht, rfl⟩
    · exact hr1
    · omega
    · have := hb t ht; omega
  · rcases mem_headers ha with rfl | rfl | ⟨t, ht, rfl⟩
    · omega
    · omega
    · have := hb t ht; omega
  · unfold Apart
    rcases mem_headers ha with rfl | rfl | ⟨t, ht, rfl⟩ <;>
      rcases mem_headers hb' with rfl | rfl | ⟨u, hu, rfl⟩
    · exact absurd rfl hne
    · omega
    · have := hb u hu; omega
    · omega
    · exact absurd rfl hne
    · have := hb u hu; omega
    · have := hb t ht; omega
    · have := hb t ht; omega
    · rcases h.sep ht hu with rfl | h1 | h1
      · exact absurd rfl hne
      · have := mcb_lt_fin r ((h.bounds.2 t ht).2.1); omega
      · have := mcb_lt_fin r ((h.bounds.2 u hu).2.1); omega

section
variable {m : Mem} {ts : List Tile} {ls : Lst → List ℕ}

theorem HeapInv.hdrs (h : HeapInv r m ts ls) : Hdrs (headers r ts) := h.tiled.hdrs

theorem HeapInv.list_mem_headers (h : HeapInv r m ts ls) {w : Lst} {x : ℕ} (hx : x ∈ r.head w :: ls w) :
    x ∈ headers r ts := by
  rcases mem_cons.mp hx with rfl | hx
  · exact head_mem_headers r ts w
  · obtain ⟨t, ht, -, rfl⟩ := (h.mem w x).mp hx
    exact mcb_mem_headers ht

/-- A header and a payload do not share a byte. -/
theorem header_not_payload (h : Tiled r r.buf ts (r.buf + r.size)) {t : Tile} (ht : t ∈ ts) {a i : ℕ}
    (ha : a ∈ headers r ts) (h1 : a ≤ i) (h2 : i < a + mcbSize) :
    ¬ (r.dataStart t.mcb ≤ i ∧ i < t.fin r) := by
  obtain ⟨b1, b2, b3⟩ := h.bounds.2 t ht
  have b4 := dataStart_ge r t.mcb
  have hr := r.apart
  rcases mem_headers ha with rfl | rfl | ⟨u, hu, rfl⟩
  · omega
  · omega
  · have b5 := mcb_lt_fin r ((h.bounds.2 u hu).2.1)
    rcases h.sep ht hu with rfl | h3 | h3 <;> omega

/-- What the representation reads: all links, and the fields of the tiles. -/
theorem HeapInv.congr (h : HeapInv r m ts ls) {m' : Mem}
    (hb : ∀ t ∈ ts, get m' t.mcb .buffer = get m t.mcb .buffer)
    (hs : ∀ t ∈ ts, t.kind ≠ .loose → get m' t.mcb .size = get m t.mcb .size)
    (hn : ∀ a ∈ headers r ts, get m' a .next = get m a .next) : HeapInv r m' ts ls where
  tiled := h.tiled
  buffer t ht := (hb t ht).trans (h.buffer t ht)
  size t ht hk := (hs t ht hk).trans (h.size t ht hk)
  list w := (h.list w).congr fun x hx => nextOf_congr (hn x (h.list_mem_headers hx))
  mem := h.mem
  sorted w := by
    have hsame : ∀ x ∈ ls w, get m' x .size = get m x .size := fun x hx => by
      obtain ⟨t, ht, hk, rfl⟩ := (h.mem w x).mp hx
      exact hs t ht fun hc => by rw [hc] at hk; cases hk
    refine (h.sorted w).imp_of_mem fun {a b} ha hb hab => ?_
    unfold SizeLe at hab ⊢
    rw [hsame a ha, hsame b hb]
    exact hab

theorem HeapInv.payload (h : HeapInv r m ts ls) {P : ℕ → Prop} {m' : Mem} (hs : Same P m m')
    (hP : ∀ i, P i → ∃ t ∈ ts, r.dataStart t.mcb ≤ i ∧ i < t.fin r) : HeapInv r m' ts ls := by
  have hget : ∀ a ∈ headers r ts, ∀ f, get m' a f = get m a f := fun a ha f => by
    refine get_same hs fun i hi hp => ?_
    obtain ⟨t, ht, hti⟩ := hP i hp
    have := f.offset_add_le
    unfold word at hi
    exact header_not_payload h.tiled ht ha (by omega) (by omega) hti
  exact h.congr (fun t ht => hget _ (mcb_mem_headers ht) _) (fun t ht _ => hget _ (mcb_mem_headers ht) _)
    fun a ha => hget a ha _

theorem HeapInv.set_size (h : HeapInv r m ts ls) {t : Tile} (ht : t ∈ ts) (hk : t.kind = .loose) (v : ℕ) :
    HeapInv r (set m t.mcb .size v) ts ls := by
  have hap : ∀ a ∈ headers r ts, t.mcb ≠ a → Apart t.mcb a := fun a ha hne =>
    h.hdrs.apart _ (mcb_mem_headers ht) a ha hne
  refine h.congr (fun u hu => get_set (hap _ (mcb_mem_headers hu)) (.inr (by decide))) (fun u hu hku => ?_)
    fun a ha => get_set (hap a ha) (.inr (by decide))
  refine get_set (hap _ (mcb_mem_headers hu)) (.inl fun he => ?_)
  exact hku (h.tiled.eq_of_mcb ht hu he ▸ hk)

end

/-! ### Moves

The row is written `l ++ t :: rt` around the tile that moves. -/

/-- The payloads of `ts` keep their bytes. -/
def Keeps (r : Region) (ts : List Tile) (m m' : Mem) : Prop :=
  ∀ t ∈ ts, ∀ i, r.dataStart t.mcb ≤ i → i < t.fin r → m' i = m i

theorem Keeps.trans {ts : List Tile} {m m' m'' : Mem} (h : Keeps r ts m m') (h' : Keeps r ts m' m'') :
    Keeps r ts m m'' := fun t ht i h1 h2 => (h' t ht i h1 h2).trans (h t ht i h1 h2)

theorem Keeps.mono {ts us : List Tile} {m m' : Mem} (h : Keeps r ts m m') (hu : ∀ t ∈ us, t ∈ ts) :
    Keeps r us m m' := fun t ht => h t (hu t ht)

theorem tiled_mid {l rt : List Tile} :
    Tiled r a (l ++ t :: rt) e ↔ Tiled r a l t.mcb ∧ 0 < t.size ∧ Tiled r (t.fin r) rt e := by
  rw [tiled_append]
  constructor
  · rintro ⟨b, h1, rfl, h2, h3⟩; exact ⟨h1, h2, h3⟩
  · rintro ⟨h1, h2, h3⟩; exact ⟨_, h1, rfl, h2, h3⟩

theorem mem_mid {l rt : List Tile} {u : Tile} : u ∈ l ++ t :: rt ↔ u = t ∨ u ∈ l ++ rt := by
  simp only [mem_append, mem_cons]; tauto

section
variable {m m' : Mem} {l rt : List Tile} {ls : Lst → List ℕ} {x s : ℕ} {k : Kind} {w : Lst}

theorem Tiled.mcb_ne {u : Tile} (h : Tiled r a (l ++ t :: rt) e) (hu : u ∈ l ++ rt) : u.mcb ≠ t.mcb := by
  intro he
  obtain ⟨h1, h2, h3⟩ := tiled_mid.mp h
  have h4 := mcb_lt_fin r h2
  rcases mem_append.mp hu with hu | hu
  · obtain ⟨-, h6, h7⟩ := h1.bounds.2 u hu
    have := mcb_lt_fin r h6
    omega
  · have := (h3.bounds.2 u hu).1
    omega

theorem keeps_nextWords {ts : List Tile} {S : List ℕ} (h : Tiled r r.buf ts (r.buf + r.size))
    (hs : Same (nextWords S) m m') (hS : ∀ a ∈ S, a ∈ headers r ts) : Keeps r ts m m' := by
  intro t ht i h1 h2
  refine hs i fun ⟨a, ha, hw⟩ => ?_
  have := Field.next.offset_add_le
  unfold word at hw
  exact header_not_payload h ht (hS a ha) (by omega) (by omega) ⟨h1, h2⟩

theorem HeapInv.lists_disjoint {ts : List Tile} (h : HeapInv r m ts ls) {w w' : Lst} (hw : w ≠ w') {y z : ℕ}
    (hy : y ∈ r.head w :: ls w) (hz : z ∈ r.head w' :: ls w') : z ≠ y := by
  have hhead : ∀ {w w' : Lst}, w ≠ w' → r.head w ≠ r.head w' := fun {w w'} hne => by
    have hm : mcbSize = 12 := rfl
    cases w <;> cases w' <;>
      first | exact absurd rfl hne | (simp only [Region.head, Region.freedList, Region.allocatedList]; omega)
  have hne : ∀ {w w' : Lst} {z : ℕ}, z ∈ ls w' → z ≠ r.head w := fun {w w' z} hz he => by
    obtain ⟨t, ht, -, rfl⟩ := (h.mem w' z).mp hz
    obtain ⟨h1, h2, h3⟩ := h.tiled.bounds.2 t ht
    have h4 := mcb_lt_fin r h2
    have h5 := r.apart
    have hm : mcbSize = 12 := rfl
    cases w <;> simp only [Region.head, Region.freedList, Region.allocatedList] at he <;> omega
  rintro rfl
  rcases mem_cons.mp hy with hy | hy
  · rcases mem_cons.mp hz with hz | hz
    · exact hhead hw (hy.symm.trans hz)
    · exact hne hz hy
  · rcases mem_cons.mp hz with hz | hz
    · exact hne hy hz
    · obtain ⟨t, ht, hk, he⟩ := (h.mem w z).mp hy
      obtain ⟨u, hu, hk', he'⟩ := (h.mem w' z).mp hz
      obtain rfl := h.tiled.eq_of_mcb ht hu (he.trans he'.symm)
      exact hw (some.inj (hk.symm.trans hk'))

theorem HeapInv.chain_kept {ts : List Tile} (h : HeapInv r m ts ls) {S : List ℕ} {w : Lst}
    (hs : Same (nextWords S) m m') (hS : ∀ a ∈ S, a ∈ headers r ts)
    (hne : ∀ a ∈ S, ∀ z ∈ r.head w :: ls w, z ≠ a) :
    Chain (nextOf m') (some (r.head w)) (r.head w :: ls w) := by
  refine chain_same (h.list w) hs fun z hz i hi ⟨a, ha, hw⟩ => ?_
  have hap := h.hdrs.apart z (h.list_mem_headers hz) a (hS a ha) (hne a ha z hz)
  have hoff := Field.next.offset_add_le
  unfold word at hi hw
  unfold Apart at hap
  omega

theorem exists_mid {a : Tile} {P : Tile → Prop} : (∃ t ∈ l ++ a :: rt, P t) ↔ P a ∨ ∃ t ∈ l ++ rt, P t := by
  simp only [mem_mid, or_and_right, exists_or, exists_eq_left]

section
variable {S : List ℕ} (hsub : ∀ a ∈ S, a ∈ headers r ts) (hs : Same (nextWords S) m m')
include hsub hs

theorem HeapInv.get_kept (h : HeapInv r m ts ls) {t : Tile} (ht : t ∈ ts) {f : Field} (hf : f ≠ .next) :
    get m' t.mcb f = get m t.mcb f :=
  get_nextWords hs (fun b hb hne => h.hdrs.apart _ (mcb_mem_headers ht) b (hsub b hb) hne) hf

theorem HeapInv.sorted_kept (h : HeapInv r m ts ls) {ys : List ℕ} (hp : ys.Pairwise (SizeLe m))
    (hys : ∀ y ∈ ys, ∃ t ∈ ts, t.mcb = y) : ys.Pairwise (SizeLe m') := by
  have hsize : ∀ y ∈ ys, get m' y .size = get m y .size := fun y hy => by
    obtain ⟨t, ht, rfl⟩ := hys y hy
    exact h.get_kept hsub hs ht (by decide)
  refine hp.imp_of_mem fun {a b} ha hb hab => ?_
  unfold SizeLe at hab ⊢
  rw [hsize a ha, hsize b hb]
  exact hab

end

/-- **A tile changes its kind**, and the list of the one or the other kind what it holds. -/
theorem HeapInv.relist {k' : Kind} {S ys : List ℕ} (h : HeapInv r m (l ++ ⟨x, s, k⟩ :: rt) ls)
    (hsub : ∀ a ∈ S, a ∈ headers r (l ++ ⟨x, s, k⟩ :: rt)) (hs : Same (nextWords S) m m')
    (hsize : k' ≠ .loose → get m x .size = s) (hk : ∀ w', w' ≠ w → k.list ≠ some w' ∧ k'.list ≠ some w')
    (hapart : ∀ w', w' ≠ w → ∀ a ∈ S, ∀ z ∈ r.head w' :: ls w', z ≠ a)
    (hlist : Chain (nextOf m') (some (r.head w)) (r.head w :: ys))
    (hmem : ∀ y, y ∈ ys ↔ (k'.list = some w ∧ x = y) ∨ ∃ t ∈ l ++ rt, t.kind.list = some w ∧ t.mcb = y)
    (hsorted : ys.Pairwise (SizeLe m)) : HeapInv r m' (l ++ ⟨x, s, k'⟩ :: rt) (Function.update ls w ys) := by
  have hxt : (⟨x, s, k⟩ : Tile) ∈ l ++ ⟨x, s, k⟩ :: rt := mem_mid.mpr (.inl rfl)
  have hother : ∀ t ∈ l ++ rt, t ∈ l ++ (⟨x, s, k⟩ : Tile) :: rt := fun t ht => mem_mid.mpr (.inr ht)
  refine ⟨?_, fun t ht => ?_, fun t ht hkt => ?_, fun w' => ?_, fun w' y => ?_, fun w' => ?_⟩
  · obtain ⟨a1, a2, a3⟩ := tiled_mid.mp h.tiled
    exact tiled_mid.mpr ⟨a1, a2, a3⟩
  · rcases mem_mid.mp ht with rfl | ht
    · exact (h.get_kept hsub hs hxt (by decide)).trans (h.buffer _ hxt)
    · exact (h.get_kept hsub hs (hother t ht) (by decide)).trans (h.buffer t (hother t ht))
  · rcases mem_mid.mp ht with rfl | ht
    · exact (h.get_kept hsub hs hxt (by decide)).trans (hsize hkt)
    · exact (h.get_kept hsub hs (hother t ht) (by decide)).trans (h.size t (hother t ht) hkt)
  · by_cases hw : w' = w
    · subst hw; rw [update_self]; exact hlist
    · rw [update_of_ne hw]
      exact h.chain_kept hs hsub (hapart w' hw)
  · rw [exists_mid]
    by_cases hw : w' = w
    · subst hw; rw [update_self]; exact hmem y
    · rw [update_of_ne hw, h.mem w' y, exists_mid]
      obtain ⟨hk1, hk2⟩ := hk w' hw
      simp only [hk1, hk2, false_and, false_or]
  · by_cases hw : w' = w
    · subst hw
      rw [update_self]
      refine h.sorted_kept hsub hs hsorted fun y hy => ?_
      rcases (hmem y).mp hy with ⟨-, rfl⟩ | ⟨t, ht, -, rfl⟩
      · exact ⟨_, hxt, rfl⟩
      · exact ⟨t, hother t ht, rfl⟩
    · rw [update_of_ne hw]
      refine h.sorted_kept hsub hs (h.sorted w') fun y hy => ?_
      obtain ⟨t, ht, -, rfl⟩ := (h.mem w' y).mp hy
      exact ⟨t, ht, rfl⟩

/-- **A tile leaves its list.** -/
theorem HeapInv.detach (h : HeapInv r m (l ++ ⟨x, s, k⟩ :: rt) ls) (hk : k.list = some w) :
    ∃ m', removeMcb m (r.head w) x = some m' ∧
      HeapInv r m' (l ++ ⟨x, s, .loose⟩ :: rt) (Function.update ls w ((ls w).erase x)) ∧
      get m' x .size = s ∧ Keeps r (l ++ ⟨x, s, k⟩ :: rt) m m' ∧
      Same (nextWords (r.head w :: ls w)) m m' := by
  have hxt : (⟨x, s, k⟩ : Tile) ∈ l ++ ⟨x, s, k⟩ :: rt := mem_mid.mpr (.inl rfl)
  have hx : x ∈ ls w := (h.mem w x).mpr ⟨_, hxt, hk, rfl⟩
  have hsub : ∀ a ∈ r.head w :: ls w, a ∈ headers r (l ++ ⟨x, s, k⟩ :: rt) := fun a ha => h.list_mem_headers ha
  obtain ⟨m', h1, h2, h3⟩ := removeMcb_spec (h.list w) (h.hdrs.mono hsub) hx
  have hsize : get m' x .size = s := by
    rw [h.get_kept hsub h3 hxt (by decide), h.size _ hxt fun hc => by rw [show k = .loose from hc] at hk; cases hk]
  refine ⟨m', h1, h.relist hsub h3 (absurd rfl) (fun w' hw => ⟨fun hc => hw (some.inj (hc.symm.trans hk)), nofun⟩)
    (fun w' hw a ha z hz => h.lists_disjoint (Ne.symm hw) ha hz) h2 (fun y => ?_) ((h.sorted w).sublist erase_sublist),
    hsize, keeps_nextWords h.tiled h3 hsub, h3⟩
  rw [((nodup_cons.mp (h.list w).nodup).2).mem_erase_iff, h.mem w y, exists_mid]
  constructor
  · rintro ⟨hne, ⟨-, rfl⟩ | ht⟩
    · exact absurd rfl hne
    · exact .inr ht
  · rintro (⟨hc, -⟩ | ⟨t, ht, hkt, rfl⟩)
    · cases hc
    · exact ⟨h.tiled.mcb_ne ht, .inr ⟨t, ht, hkt, rfl⟩⟩

theorem HeapInv.loose_notMem (h : HeapInv r m (l ++ ⟨x, s, .loose⟩ :: rt) ls) (w : Lst) :
    x ∉ r.head w :: ls w := by
  have hxt : (⟨x, s, .loose⟩ : Tile) ∈ l ++ ⟨x, s, .loose⟩ :: rt := mem_mid.mpr (.inl rfl)
  intro hx
  rcases mem_cons.mp hx with hx | hx
  · obtain ⟨h1, h2, h3⟩ := h.tiled.bounds.2 _ hxt
    have h4 := mcb_lt_fin r h2
    have h5 := r.apart
    have hm : mcbSize = 12 := rfl
    cases w <;> simp only [Region.head, Region.freedList, Region.allocatedList] at hx h1 h4 <;> omega
  · obtain ⟨t, ht, hk, he⟩ := (h.mem w x).mp hx
    rw [h.tiled.eq_of_mcb ht hxt he] at hk
    cases hk

/-- **A loose tile joins a list**, once its header holds its size. -/
theorem HeapInv.attach (h : HeapInv r m (l ++ ⟨x, s, .loose⟩ :: rt) ls) (hk : k.list = some w)
    (hs : get m x .size = s) :
    ∃ m', insertMcb m (r.head w) x = some m' ∧
      HeapInv r m' (l ++ ⟨x, s, k⟩ :: rt) (Function.update ls w ((ls w).orderedInsert (SizeLe m) x)) ∧
      Keeps r (l ++ ⟨x, s, .loose⟩ :: rt) m m' ∧ Same (nextWords (x :: r.head w :: ls w)) m m' := by
  have hxt : (⟨x, s, .loose⟩ : Tile) ∈ l ++ ⟨x, s, .loose⟩ :: rt := mem_mid.mpr (.inl rfl)
  have hsub : ∀ a ∈ x :: r.head w :: ls w, a ∈ headers r (l ++ ⟨x, s, .loose⟩ :: rt) := fun a ha => by
    rcases mem_cons.mp ha with rfl | ha
    · exact mcb_mem_headers hxt
    · exact h.list_mem_headers ha
  obtain ⟨m', h1, h2, h3⟩ := insertMcb_spec (h.list w) (h.loose_notMem w) (h.hdrs.mono hsub)
  have : IsTrans ℕ (SizeLe m) := ⟨fun _ _ _ h1 h2 => le_trans h1 h2⟩
  have : Std.Total (SizeLe m) := ⟨fun _ _ => le_total _ _⟩
  refine ⟨m', h1, h.relist hsub h3 (fun _ => hs) (fun w' hw => ⟨nofun, fun hc => hw (some.inj (hc.symm.trans hk))⟩)
    (fun w' hw a ha z hz => ?_) h2 (fun y => ?_) ((h.sorted w).orderedInsert _ _), keeps_nextWords h.tiled h3 hsub, h3⟩
  · rcases mem_cons.mp ha with rfl | ha
    · rintro rfl
      exact h.loose_notMem w' hz
    · exact h.lists_disjoint (Ne.symm hw) ha hz
  · rw [mem_orderedInsert, h.mem w y, exists_mid, and_iff_right hk, eq_comm]
    refine or_congr_right (or_iff_right fun hc => ?_)
    cases hc.1

/-- **A loose tile is split** where a header was written into its payload. -/
theorem HeapInv.split (h : HeapInv r m (l ++ ⟨x, s, .loose⟩ :: rt) ls) {n : ℕ} (hn : 0 < n)
    (hs : n + mcbSize < s) (hb : get m (r.dataStart x + n) .buffer = r.dataStart x + n + mcbSize) :
    HeapInv r m (l ++ ⟨x, n, .loose⟩ :: ⟨r.dataStart x + n, s - n - mcbSize, .loose⟩ :: rt) ls := by
  obtain ⟨h1, h2, h3⟩ := tiled_mid.mp h.tiled
  have hxb := h1.bounds.1
  have hds := dataStart_ge r x
  have hne : r.dataStart x + n ≠ r.buf := by simp only at hxb; omega
  have hnew := dataStart_of_ne hne
  have hmem : ∀ t ∈ l ++ (⟨x, n, .loose⟩ : Tile) :: ⟨r.dataStart x + n, s - n - mcbSize, .loose⟩ :: rt,
      t = ⟨x, n, .loose⟩ ∨ t = ⟨r.dataStart x + n, s - n - mcbSize, .loose⟩ ∨ t ∈ l ++ rt := fun t ht => by
    simp only [mem_append, mem_cons] at ht ⊢; tauto
  refine ⟨tiled_mid.mpr ⟨h1, hn, rfl, by simp only; omega, ?_⟩, ?_, ?_, h.list, ?_, h.sorted⟩
  · have hfin : (⟨r.dataStart x + n, s - n - mcbSize, .loose⟩ : Tile).fin r =
        (⟨x, s, .loose⟩ : Tile).fin r := by
      unfold Tile.fin
      simp only [hnew]
      omega
    rw [hfin]
    exact h3
  · intro t ht
    rcases hmem t ht with rfl | rfl | ht
    · exact h.buffer ⟨x, s, .loose⟩ (mem_mid.mpr (.inl rfl))
    · rw [hnew]; exact hb
    · exact h.buffer t (mem_mid.mpr (.inr ht))
  · intro t ht hkt
    rcases hmem t ht with rfl | rfl | ht
    · exact absurd rfl hkt
    · exact absurd rfl hkt
    · exact h.size t (mem_mid.mpr (.inr ht)) hkt
  · intro w y
    rw [h.mem w y]
    constructor
    · rintro ⟨t, ht, hkt, rfl⟩
      rcases mem_mid.mp ht with rfl | ht
      · cases hkt
      · exact ⟨t, by simp only [mem_append, mem_cons] at ht ⊢; tauto, hkt, rfl⟩
    · rintro ⟨t, ht, hkt, rfl⟩
      rcases hmem t ht with rfl | rfl | ht
      · cases hkt
      · cases hkt
      · exact ⟨t, mem_mid.mpr (.inr ht), hkt, rfl⟩

/-- **Two loose neighbours become one**; the header between them is payload. -/
theorem HeapInv.join {y s' : ℕ} (h : HeapInv r m (l ++ ⟨x, s, .loose⟩ :: ⟨y, s', .loose⟩ :: rt) ls) :
    HeapInv r m (l ++ ⟨x, s + mcbSize + s', .loose⟩ :: rt) ls := by
  obtain ⟨h1, h2, h3, h4, h5⟩ := tiled_mid.mp h.tiled
  have hxb := h1.bounds.1
  have hxf := mcb_lt_fin r h2
  simp only at h2 h3 h4 hxb hxf
  have hy := dataStart_of_ne (show y ≠ r.buf by omega)
  have hmem : ∀ t ∈ l ++ rt, t ∈ l ++ (⟨x, s, .loose⟩ : Tile) :: ⟨y, s', .loose⟩ :: rt := fun t ht => by
    simp only [mem_append, mem_cons] at ht ⊢; tauto
  refine ⟨tiled_mid.mpr ⟨h1, by simp only; omega, ?_⟩, ?_, ?_, h.list, ?_, h.sorted⟩
  · have hfin : (⟨x, s + mcbSize + s', .loose⟩ : Tile).fin r = (⟨y, s', .loose⟩ : Tile).fin r := by
      unfold Tile.fin at h3 ⊢
      simp only at h3 ⊢
      rw [hy, h3]
      omega
    rw [hfin]
    exact h5
  · intro t ht
    rcases mem_mid.mp ht with rfl | ht
    · exact h.buffer ⟨x, s, .loose⟩ (mem_mid.mpr (.inl rfl))
    · exact h.buffer t (hmem t ht)
  · intro t ht hkt
    rcases mem_mid.mp ht with rfl | ht
    · exact absurd rfl hkt
    · exact h.size t (hmem t ht) hkt
  · intro w z
    rw [h.mem w z]
    constructor
    · rintro ⟨t, ht, hkt, rfl⟩
      have ht' : t = ⟨x, s, .loose⟩ ∨ t = ⟨y, s', .loose⟩ ∨ t ∈ l ++ rt := by
        simp only [mem_append, mem_cons] at ht ⊢; tauto
      rcases ht' with rfl | rfl | ht'
      · cases hkt
      · cases hkt
      · exact ⟨t, mem_mid.mpr (.inr ht'), hkt, rfl⟩
    · rintro ⟨t, ht, hkt, rfl⟩
      rcases mem_mid.mp ht with rfl | ht
      · cases hkt
      · exact ⟨t, hmem t ht, hkt, rfl⟩

end

end Bufmgr
end Vsf
