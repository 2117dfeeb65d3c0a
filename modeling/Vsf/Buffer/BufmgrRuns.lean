/-
# Runs of the buffer manager

A program calls `vsf_bufmgr_malloc_aligned` and `vsf_bufmgr_free` and writes into what it holds. In
every run the blocks of the two lists tile the region, every result is aligned and alone in its
block, and no free block is beside another.
-/
import Mathlib
import Vsf.Lib.System
import Vsf.Buffer.BufmgrFree

namespace Vsf
namespace Bufmgr

open ByteMem Linked List Option

/-! ### The system -/

/-- The memory, and the results that were not freed yet. -/
structure State where
  mem : Mem
  live : List Alloc

/-- What the program does next. -/
inductive Op where
  | malloc (size align : UInt32)
  | free (ptr : ℕ)
  | write (addr : ℕ) (v : UInt8)

/-- One action, `none` for a call that does not return. -/
def step (r : Region) (s : State) : Op → Option State
  | .malloc size align => do
    let (m, p) ← mallocAligned r s.mem size align
    some ⟨m, if p = 0 then s.live else s.live ++ [⟨p, size.toNat, align.toNat⟩]⟩
  | .free ptr => do
    let m ← free r s.mem ptr
    some ⟨m, s.live.filter fun a => a.ptr ≠ ptr⟩
  | .write addr v => some ⟨Function.update s.mem addr v, s.live⟩

/-- The blocks from `p` on. -/
def walk (m : Mem) : ℕ → ℕ → Option (List ℕ)
  | 0, _ => none
  | f + 1, p => if p = 0 then some [] else (walk m f (listNext m p)).map (p :: ·)

/-- The blocks of a list. -/
def blocks (r : Region) (m : Mem) (w : Lst) : Option (List ℕ) := walk m walkFuel (listNext m (r.head w))

/-- Requests do not wrap, freed pointers are live, and writes go to what is held. -/
def legal (r : Region) (s : State) : Op → Prop
  | .malloc size align => ∀ fs, blocks r s.mem .freed = some fs → NoWrap s.mem fs size align
  | .free ptr => ∃ a ∈ s.live, a.ptr = ptr
  | .write addr _ => ∃ a ∈ s.live, a.ptr ≤ addr ∧ addr < a.ptr + a.size

/-- The program and the buffer manager, from any memory. -/
def system (r : Region) : System State Op where
  start s := ∃ m, s = ⟨init r m, []⟩
  step s op s' := legal r s op ∧ step r s op = some s'

variable {r : Region}

/-! ### The invariant -/

/-- No tile and the next are both free. -/
def Coalesced (ts : List Tile) : Prop := ts.IsChain fun t u => ¬ (t.kind = .free ∧ u.kind = .free)

/-- The state represents the row `ts`: free tiles, never side by side, and one for each live result. -/
structure Inv (r : Region) (s : State) (ts : List Tile) (ls : Lst → List ℕ) : Prop where
  heap : HeapInv r s.mem ts ls
  coalesced : Coalesced ts
  settled : ∀ t ∈ ts, t.kind ≠ .loose
  fits : ∀ t ∈ ts, ∀ a, t.kind = .used a → Fits r t a
  live : ∀ a, a ∈ s.live ↔ ∃ t ∈ ts, t.kind = .used a
  nodup : s.live.Nodup

theorem walk_spec {m : Mem} : ∀ (f y : ℕ) (zs : List ℕ), Chain (nextOf m) (nextOf m y) zs → zs.length < f →
    walk m f (listNext m y) = some zs := by
  intro f
  induction f with
  | zero => intro y zs _ hf; omega
  | succ f ih =>
    intro y zs h hf
    unfold walk
    rcases zs with _ | ⟨z, zs⟩
    · exact if_pos (nextOf_eq_none h)
    · obtain ⟨hz, hzs⟩ := chain_cons.mp h
      obtain ⟨hnz, hz0⟩ := nextOf_eq_some hz
      rw [hnz, if_neg hz0, ih z zs hzs (by simp only [length_cons] at hf; omega)]
      rfl

theorem HeapInv.blocks_eq {m : Mem} {ts : List Tile} {ls : Lst → List ℕ} (h : HeapInv r m ts ls) (w : Lst) :
    blocks r m w = some (ls w) :=
  walk_spec walkFuel (r.head w) (ls w) (chain_cons.mp (h.list w)).2 (h.list_length w)

/-- The lists after `vsf_bufmgr_init`. -/
def initLists (r : Region) : Lst → List ℕ
  | .freed => [r.buf]
  | .allocated => []

/-- **`vsf_bufmgr_init` makes the region one free tile.** -/
theorem init_heap (r : Region) (m : Mem) :
    HeapInv r (init r m) [⟨r.buf, r.buf + r.size - payloadStart r.buf, .free⟩] (initLists r) := by
  have hm : mcbSize = 12 := rfl
  have h3 := r.buf_pos
  have h4 := r.buf_lt
  have h5 := r.apart
  have h6 := r.room
  have h7 := payloadStart_eq r
  have hFA : Apart r.freedList r.allocatedList := .inl (by unfold Region.freedList Region.allocatedList; omega)
  have hFB : Apart r.freedList r.buf := by unfold Apart Region.freedList; omega
  have hAB : Apart r.allocatedList r.buf := by unfold Apart Region.allocatedList; omega
  have nFA : r.freedList ≠ r.allocatedList := by unfold Region.freedList Region.allocatedList; omega
  have nFB : r.freedList ≠ r.buf := by unfold Apart at hFB; omega
  have nAB : r.allocatedList ≠ r.buf := by unfold Apart at hAB; omega
  have hsize : u32 (2 ^ 32 + (r.buf + r.size) - payloadStart r.buf) = r.buf + r.size - payloadStart r.buf := by
    unfold u32; omega
  unfold init
  dsimp only
  rw [get_set_self _ _ _ (show payloadStart r.buf < 2 ^ 32 by omega), hsize]
  generalize set (set (sllistInitNode (set (set m r.freedList .buffer 0) r.freedList .size 0)
    r.freedList) r.allocatedList .buffer 0) r.allocatedList .size 0 = m0
  generalize hn : r.buf + r.size - payloadStart r.buf = n
  have hbuf : ∀ f v, get (sllistInsert (sllistInitNode v r.buf) r.freedList r.buf) r.buf f =
      get (sllistInitNode v r.buf) r.buf f := fun f v => get_set (fun _ => hFB) (.inl nFB)
  refine ⟨⟨rfl, by simp only; omega, ?_⟩, fun t ht => ?_, fun t ht _ => ?_, fun w => ?_, fun w h => ?_, fun w => ?_⟩
  · unfold Tile.fin
    simp only [Tiled, dataStart_buf]
    omega
  · obtain rfl := mem_singleton.mp ht
    rw [hbuf, sllistInitNode, get_set (fun hc => absurd rfl hc) (.inr (by decide)),
      get_set (fun hc => absurd rfl hc) (.inr (by decide)), get_set_self _ _ _ (by omega), dataStart_buf, h7]
  · obtain rfl := mem_singleton.mp ht
    rw [hbuf, sllistInitNode, get_set (fun hc => absurd rfl hc) (.inr (by decide)), get_set_self _ _ _ (by omega)]
  · cases w with
    | freed =>
      refine ⟨rfl, nextOf_insert _ _ h3 (by omega), ?_⟩
      exact (nextOf_set_next hFB nFB).trans (nextOf_initNode _ _)
    | allocated =>
      have hA : ∀ v f u, nextOf (set v r.buf f u) r.allocatedList = nextOf v r.allocatedList := fun v f u =>
        nextOf_congr (get_set (fun _ => hAB.symm) (.inl nAB.symm))
      refine ⟨rfl, (nextOf_set_next hFA nFA).trans ?_⟩
      exact (hA _ _ _).trans ((hA _ _ _).trans ((hA _ _ _).trans (nextOf_initNode _ _)))
  · cases w <;> simp [initLists, Kind.list, eq_comm]
  · cases w <;> simp [initLists]

theorem init_inv (r : Region) (m : Mem) : ∃ ts ls, Inv r ⟨init r m, []⟩ ts ls := by
  refine ⟨_, _, init_heap r m, isChain_singleton _, fun t ht => ?_, fun t ht a ha => ?_, fun a => ?_, nodup_nil⟩
  · obtain rfl := mem_singleton.mp ht
    simp
  · obtain rfl := mem_singleton.mp ht
    cases ha
  · simp

/-! ### Rows without free neighbours -/

variable {l rt l' rt' : List Tile} {b e : ℕ}

theorem coalesced_mid {t : Tile} : Coalesced (l ++ t :: rt) ↔
      Coalesced l ∧ Coalesced rt ∧ (t.kind = .free → Closed l.getLast? ∧ Closed rt.head?) := by
  unfold Coalesced
  rw [isChain_append, isChain_cons]
  constructor
  · rintro ⟨h1, ⟨h2, h3⟩, h4⟩
    exact ⟨h1, h3, fun hf => ⟨fun u hu hk => h4 u hu t rfl ⟨hk, hf⟩, fun u hu hk => h2 u hu ⟨hf, hk⟩⟩⟩
  · rintro ⟨h1, h2, h3⟩
    refine ⟨h1, ⟨fun u hu hc => (h3 hc.1).2 u hu hc.2, h2⟩, fun u hu v hv hc => ?_⟩
    obtain rfl : t = v := some.inj hv
    exact (h3 hc.2).1 u hu hc.1

theorem Remainder.free {tl : List Tile} (h : Remainder tl) {t : Tile} (ht : t ∈ tl) : t.kind = .free := by
  rcases h with rfl | ⟨z, n, rfl⟩
  · cases ht
  · rw [mem_singleton.mp ht]

/-- What is left in front of a result is beside no free tile. -/
theorem Remainder.coalesced_front {hd : List Tile} (h : Remainder hd) (hl : Coalesced l)
    (hc : Closed l.getLast?) : Coalesced (l ++ hd) := by
  rcases h with rfl | ⟨z, n, rfl⟩
  · simpa using hl
  · exact coalesced_mid.mpr ⟨hl, isChain_nil, fun _ => ⟨hc, fun t ht => by cases ht⟩⟩

theorem Remainder.coalesced_back {tl : List Tile} (h : Remainder tl) (hrt : Coalesced rt)
    (hc : Closed rt.head?) : Coalesced (tl ++ rt) := by
  rcases h with rfl | ⟨z, n, rfl⟩
  · exact hrt
  · exact (coalesced_mid (l := [])).mpr ⟨isChain_nil, hrt, fun _ => ⟨fun t ht => (by cases ht), hc⟩⟩

theorem Release.coalesced (h : Release l rt l' rt') (hl : Coalesced l)
    (hrt : Coalesced rt) : Coalesced l' ∧ Coalesced rt' ∧ Closed l'.getLast? ∧ Closed rt'.head? := by
  have hfront : Coalesced l' ∧ Closed l'.getLast? := by
    rcases h.front with ⟨rfl, hc⟩ | ⟨w, n, rfl⟩
    · exact ⟨hl, hc⟩
    · obtain ⟨h1, -, h2⟩ := coalesced_mid.mp hl
      exact ⟨h1, (h2 rfl).1⟩
  have hback : Coalesced rt' ∧ Closed rt'.head? := by
    rcases h.back with ⟨rfl, hc⟩ | ⟨w, n, rfl⟩
    · exact ⟨hrt, hc⟩
    · obtain ⟨-, h1, h2⟩ := (coalesced_mid (l := [])).mp hrt
      exact ⟨h1, (h2 rfl).2⟩
  exact ⟨hfront.1, hback.1, hfront.2, hback.2⟩

theorem Release.mem (h : Release l rt l' rt') {t : Tile} (hk : t.kind ≠ .free) :
    t ∈ l' ++ rt' ↔ t ∈ l ++ rt := by
  have hne : ∀ w n, t ≠ ⟨w, n, .free⟩ := fun w n he => hk (by rw [he])
  rcases h.front with ⟨rfl, -⟩ | ⟨w, n, rfl⟩ <;> rcases h.back with ⟨rfl, -⟩ | ⟨w', n', rfl⟩ <;>
    simp [hne]

theorem Release.sub (h : Release l rt l' rt') {t : Tile} (ht : t ∈ l' ++ rt') : t ∈ l ++ rt := by
  rcases h.front with ⟨rfl, -⟩ | ⟨w, n, rfl⟩ <;> rcases h.back with ⟨rfl, -⟩ | ⟨w', n', rfl⟩ <;>
    simp only [mem_append, mem_cons] at ht ⊢ <;> tauto

theorem Tiled.eq_of_fits {ts : List Tile} (h : Tiled r b ts e) {t u : Tile} (ht : t ∈ ts)
    (hu : u ∈ ts) {a a' : Alloc} (hat : Fits r t a) (hau : Fits r u a') (hp : a.ptr = a'.ptr) : t = u := by
  have h1 := hat.lower
  have h2 := hat.upper
  have h3 := hat.pos
  have h4 := hau.lower
  have h5 := hau.upper
  have h6 := hau.pos
  have h7 := dataStart_ge r t.mcb
  have h8 := dataStart_ge r u.mcb
  rcases h.sep ht hu with h9 | h9 | h9
  · exact h9
  · omega
  · omega

/-! ### Steps -/

/-- The bytes of every allocation but the one freed are kept. -/
def Untouched (r : Region) (ts : List Tile) (op : Op) (m m' : Mem) : Prop :=
  ∀ t ∈ ts, ∀ a, t.kind = .used a → op ≠ .free a.ptr →
    ∀ i, r.dataStart t.mcb ≤ i → i < t.fin r → m' i = m i

section
variable {s : State} {ts : List Tile} {ls : Lst → List ℕ}

theorem malloc_inv (h : Inv r s ts ls) {size align : UInt32} (hw : FirstFits s.mem (ls .freed) size align) :
    ∃ s' ts' ls', step r s (.malloc size align) = some s' ∧ Inv r s' ts' ls' ∧
      Untouched r ts (.malloc size align) s.mem s'.mem := by
  rcases malloc_spec h.heap hw with he | ⟨m', ls', l, x, n, rt, us, a, he, hp, hsz, hal, rfl, hi, hc, hk⟩
  · refine ⟨s, ts, ls, ?_, h, fun t _ a _ _ i _ _ => rfl⟩
    unfold step
    dsimp only
    rw [he]
    rfl
  · obtain ⟨hd, y, n', tl, rfl, hhd, htl, hfit⟩ := hc
    have ha : (⟨a.ptr, size.toNat, align.toNat⟩ : Alloc) = a := by rw [← hsz, ← hal]
    have hrow : l ++ (hd ++ ⟨y, n', .used a⟩ :: tl) ++ rt = (l ++ hd) ++ ⟨y, n', .used a⟩ :: (tl ++ rt) := by simp
    rw [hrow] at hi
    obtain ⟨c1, c2, c3⟩ := coalesced_mid.mp h.coalesced
    -- a tile that is not free was there before, or is the result's
    have hmem : ∀ t ∈ (l ++ hd) ++ (⟨y, n', .used a⟩ : Tile) :: (tl ++ rt),
        t.kind = .free ∨ t = ⟨y, n', .used a⟩ ∨ t ∈ l ++ rt := fun t ht => by
      simp only [mem_append, mem_cons] at ht ⊢
      rcases ht with (ht | ht) | ht | ht | ht
      · exact .inr (.inr (.inl ht))
      · exact .inl (hhd.free ht)
      · exact .inr (.inl ht)
      · exact .inl (htl.free ht)
      · exact .inr (.inr (.inr ht))
    have hsub : ∀ t ∈ l ++ rt, t ∈ (l ++ hd) ++ (tl ++ rt) := fun t ht => by
      simp only [mem_append] at ht ⊢; tauto
    have hused : ∀ b, (∃ t ∈ l ++ (⟨x, n, .free⟩ : Tile) :: rt, t.kind = .used b) ↔
        ∃ t ∈ l ++ rt, t.kind = .used b := fun b => by
      constructor
      · rintro ⟨t, ht, hkt⟩
        rcases mem_mid.mp ht with rfl | ht
        · cases hkt
        · exact ⟨t, ht, hkt⟩
      · rintro ⟨t, ht, hkt⟩
        exact ⟨t, mem_mid.mpr (.inr ht), hkt⟩
    have hnew : a ∉ s.live := fun hc => by
      obtain ⟨t, ht, hkt⟩ := (hused a).mp ((h.live a).mp hc)
      have hft := h.fits t (mem_mid.mpr (.inr ht)) a hkt
      have := hi.tiled.eq_of_fits (mem_mid.mpr (.inr (hsub t ht))) (mem_mid.mpr (.inl rfl)) hft hfit rfl
      exact hi.tiled.mcb_ne (hsub t ht) (by rw [this])
    refine ⟨⟨m', s.live ++ [a]⟩, _, ls', ?_, ⟨hi, ?_, ?_, ?_, ?_, ?_⟩, ?_⟩
    · unfold step
      dsimp only
      rw [he, bind_eq_bind, bind_some]
      simp only [hp, ↓reduceIte, ha]
    · exact coalesced_mid.mpr ⟨hhd.coalesced_front c1 (c3 rfl).1, htl.coalesced_back c2 (c3 rfl).2,
        fun hc => by cases hc⟩
    · intro t ht
      rcases hmem t ht with hf | rfl | ht
      · rw [hf]; simp
      · simp
      · exact h.settled t (mem_mid.mpr (.inr ht))
    · intro t ht b hb
      rcases hmem t ht with hf | rfl | ht
      · rw [hf] at hb; cases hb
      · cases hb; exact hfit
      · exact h.fits t (mem_mid.mpr (.inr ht)) b hb
    · intro b
      rw [mem_append, h.live b, hused b, mem_singleton]
      constructor
      · rintro (⟨t, ht, hkt⟩ | rfl)
        · exact ⟨t, mem_mid.mpr (.inr (hsub t ht)), hkt⟩
        · exact ⟨_, mem_mid.mpr (.inl rfl), rfl⟩
      · rintro ⟨t, ht, hkt⟩
        rcases hmem t ht with hf | rfl | ht
        · rw [hf] at hkt; cases hkt
        · cases hkt; exact .inr rfl
        · exact .inl ⟨t, ht, hkt⟩
    · refine nodup_append.mpr ⟨h.nodup, nodup_singleton a, fun b hb c hc => ?_⟩
      rw [mem_singleton.mp hc]
      exact fun he => hnew (he ▸ hb)
    · intro t ht b hb _ i h1 h2
      rcases mem_mid.mp ht with rfl | ht
      · cases hb
      · exact hk t ht i h1 h2

theorem free_inv (h : Inv r s ts ls) {ptr : ℕ} (hl : legal r s (.free ptr)) :
    ∃ s' ts' ls', step r s (.free ptr) = some s' ∧ Inv r s' ts' ls' ∧ Untouched r ts (.free ptr) s.mem s'.mem := by
  obtain ⟨a, ha, rfl⟩ := hl
  obtain ⟨⟨x, n, k⟩, ht, rfl⟩ := (h.live a).mp ha
  obtain ⟨l, rt, rfl⟩ := append_of_mem ht
  have hfit := h.fits _ ht a rfl
  obtain ⟨m', ls', l', w, n', rt', he, hi, hr, hk⟩ := free_spec h.heap hfit
  obtain ⟨c1, c2, -⟩ := coalesced_mid.mp h.coalesced
  obtain ⟨d1, d2, d3, d4⟩ := hr.coalesced c1 c2
  have hsub : ∀ t ∈ l' ++ rt', t ∈ l ++ (⟨x, n, .used a⟩ : Tile) :: rt := fun t ht =>
    mem_mid.mpr (.inr (hr.sub ht))
  -- the other results are those with another pointer
  have hother : ∀ t ∈ l ++ rt, ∀ b, t.kind = .used b → b.ptr ≠ a.ptr := fun t htl b hb hp => by
    have ht' : t ∈ l ++ (⟨x, n, .used a⟩ : Tile) :: rt := mem_mid.mpr (.inr htl)
    have := h.heap.tiled.eq_of_fits ht' ht (h.fits t ht' b hb) hfit hp
    exact h.heap.tiled.mcb_ne htl (by rw [this])
  refine ⟨⟨m', s.live.filter fun b => b.ptr ≠ a.ptr⟩, _, ls', ?_, ⟨hi, ?_, ?_, ?_, ?_, h.nodup.filter _⟩, ?_⟩
  · unfold step
    dsimp only
    rw [he]
    rfl
  · exact coalesced_mid.mpr ⟨d1, d2, fun _ => ⟨d3, d4⟩⟩
  · intro t ht
    rcases mem_mid.mp ht with rfl | ht
    · simp
    · exact h.settled t (hsub t ht)
  · intro t ht b hb
    rcases mem_mid.mp ht with rfl | ht
    · cases hb
    · exact h.fits t (hsub t ht) b hb
  · intro b
    rw [mem_filter, h.live b, decide_eq_true_eq]
    constructor
    · rintro ⟨⟨t, ht', hb⟩, hp⟩
      rcases mem_mid.mp ht' with rfl | htl
      · cases hb; exact absurd rfl hp
      · refine ⟨t, mem_mid.mpr (.inr ((hr.mem ?_).mpr htl)), hb⟩
        rw [hb]; simp
    · rintro ⟨t, ht', hb⟩
      rcases mem_mid.mp ht' with rfl | htl
      · cases hb
      · exact ⟨⟨t, hsub t htl, hb⟩, hother t (hr.sub htl) b hb⟩
  · intro t ht' b hb hne i h1 h2
    rcases mem_mid.mp ht' with rfl | htl
    · cases hb; exact absurd rfl hne
    · refine hk t ((hr.mem ?_).mpr htl) i h1 h2
      rw [hb]; simp

theorem write_inv (h : Inv r s ts ls) {addr : ℕ} {v : UInt8} (hl : legal r s (.write addr v)) :
    ∃ s', step r s (.write addr v) = some s' ∧ Inv r s' ts ls := by
  obtain ⟨a, ha, h1, h2⟩ := hl
  obtain ⟨t, ht, hk⟩ := (h.live a).mp ha
  have hfit := h.fits t ht a hk
  have h3 := hfit.lower
  have h4 := hfit.upper
  have hs : Same (fun i => i = addr) s.mem (Function.update s.mem addr v) := fun i hi =>
    Function.update_of_ne hi v s.mem
  refine ⟨⟨Function.update s.mem addr v, s.live⟩, rfl, h.heap.payload hs fun i hi => ?_, h.coalesced, h.settled,
    h.fits, h.live, h.nodup⟩
  exact ⟨t, ht, by omega, by omega⟩

/-- **Every legal action returns and keeps the invariant.** -/
theorem step_inv (h : Inv r s ts ls) {op : Op} (hl : legal r s op) :
    ∃ s' ts' ls', step r s op = some s' ∧ Inv r s' ts' ls' := by
  cases op with
  | malloc size align =>
    obtain ⟨s', ts', ls', h1, h2, -⟩ := malloc_inv h (hl _ (h.heap.blocks_eq .freed)).firstFits
    exact ⟨s', ts', ls', h1, h2⟩
  | free ptr =>
    obtain ⟨s', ts', ls', h1, h2, -⟩ := free_inv h hl
    exact ⟨s', ts', ls', h1, h2⟩
  | write addr v => obtain ⟨s', h1, h2⟩ := write_inv h hl; exact ⟨s', ts, ls, h1, h2⟩

end

theorem reach_inv {s : State} (h : (system r).Reach s) : ∃ ts ls, Inv r s ts ls := by
  refine h.invariant (fun s ⟨m, hs⟩ => hs ▸ init_inv r m) fun s op s' _ ⟨ts, ls, hi⟩ ⟨hl, hst⟩ => ?_
  obtain ⟨s'', ts', ls', h1, h2⟩ := step_inv hi hl
  obtain rfl : s' = s'' := some.inj (hst.symm.trans h1)
  exact ⟨ts', ls', h2⟩

/-- A region of 256 bytes, and the buffer manager's own object behind it. -/
def exampleRegion : Region where
  buf := 0x1000
  size := 256
  bufmgr := 0x2000
  buf_pos := by decide
  buf_lt := by decide
  bufmgr_pos := by decide
  bufmgr_lt := by decide
  apart := by decide
  room := by decide

/-- After `vsf_bufmgr_init` of memory that is all zero. -/
def exampleStart : State := ⟨init exampleRegion fun _ => 0, []⟩

/-- After `vsf_bufmgr_malloc_aligned(20, 32)` there. -/
def exampleState : State := (step exampleRegion exampleStart (.malloc 20 32)).getD exampleStart

theorem exampleState_reach : (system exampleRegion).Reach exampleState := by
  have hsome : (step exampleRegion exampleStart (.malloc 20 32)).isSome = true := by decide +kernel
  obtain ⟨s, hs⟩ := isSome_iff_exists.mp hsome
  have he : exampleState = s := by
    unfold exampleState
    rw [hs, getD_some]
  rw [he]
  refine System.Reach.step (.start ⟨fun _ => 0, rfl⟩) ⟨fun fs hfs => ?_, hs⟩
  obtain rfl : initLists exampleRegion .freed = fs :=
    some.inj (((init_heap exampleRegion fun _ => 0).blocks_eq .freed).symm.trans hfs)
  decide +kernel

/-! ### The blocks of the lists -/

/-- The end of a block: its header followed by its payload. -/
def blockEnd (m : Mem) (h : ℕ) : ℕ := h + mcbSize + get m h .size

/-- The address `i` is in the payload of the block. -/
def InPayload (m : Mem) (h i : ℕ) : Prop :=
  get m h .buffer ≤ i ∧ i < get m h .buffer + get m h .size

/-- The lists hold the blocks `fs` and `as`: disjoint, and together the region. -/
structure Partition (r : Region) (m : Mem) (fs as : List ℕ) : Prop where
  freed : blocks r m .freed = some fs
  allocated : blocks r m .allocated = some as
  header : ∀ h ∈ fs ++ as, get m h .buffer = h + mcbSize
  disjoint : (fs ++ as).Pairwise fun g h => blockEnd m g ≤ h ∨ blockEnd m h ≤ g
  tile : ∀ i, (r.buf ≤ i ∧ i < r.buf + r.size) ↔ ∃ h ∈ fs ++ as, h ≤ i ∧ i < blockEnd m h

/-- The result `a` is aligned, and alone in the payload of an allocated block. -/
def Served (s : State) (as : List ℕ) (a : Alloc) : Prop :=
  a.ptr % max a.align 4 = 0 ∧ ∃ h ∈ as, get s.mem h .buffer ≤ a.ptr ∧
    a.ptr + a.size ≤ get s.mem h .buffer + get s.mem h .size ∧
    ∀ b ∈ s.live, InPayload s.mem h b.ptr → b = a

section
variable {s : State} {ts : List Tile} {ls : Lst → List ℕ}

theorem Inv.tile_of_mem (h : Inv r s ts ls) {g : ℕ} (hg : g ∈ ls .freed ++ ls .allocated) :
    ∃ t ∈ ts, t.mcb = g := by
  rcases mem_append.mp hg with hg | hg
  · obtain ⟨t, ht, -, he⟩ := (h.heap.mem _ g).mp hg
    exact ⟨t, ht, he⟩
  · obtain ⟨t, ht, -, he⟩ := (h.heap.mem _ g).mp hg
    exact ⟨t, ht, he⟩

theorem Inv.mcb_mem (h : Inv r s ts ls) {t : Tile} (ht : t ∈ ts) : t.mcb ∈ ls .freed ++ ls .allocated := by
  rw [mem_append]
  rcases hk : t.kind with _ | a | _
  · exact .inl ((h.heap.mem .freed t.mcb).mpr ⟨t, ht, by rw [hk]; rfl, rfl⟩)
  · exact .inr ((h.heap.mem .allocated t.mcb).mpr ⟨t, ht, by rw [hk]; rfl, rfl⟩)
  · exact absurd hk (h.settled t ht)

theorem Inv.payload_eq (h : Inv r s ts ls) {t : Tile} (ht : t ∈ ts) :
    get s.mem t.mcb .buffer = r.dataStart t.mcb ∧ get s.mem t.mcb .buffer + get s.mem t.mcb .size = t.fin r := by
  rw [h.heap.buffer t ht, h.heap.size t ht (h.settled t ht)]
  exact ⟨rfl, rfl⟩

theorem Inv.nodup_blocks (h : Inv r s ts ls) : (ls .freed ++ ls .allocated).Nodup := by
  have hn : ∀ w, (ls w).Nodup := fun w => (nodup_cons.mp (h.heap.list w).nodup).2
  refine nodup_append.mpr ⟨hn .freed, hn .allocated, fun a ha b hb => ?_⟩
  exact (h.heap.lists_disjoint (by decide) (mem_cons_of_mem _ ha) (mem_cons_of_mem _ hb)).symm

/-- Behind an aligned `buf` every payload follows its header. -/
theorem dataStart_aligned (hr : r.buf % 4 = 0) (a : ℕ) : r.dataStart a = a + mcbSize := by
  by_cases ha : a = r.buf
  · have hm : mcbSize = 12 := rfl
    rw [ha, dataStart_buf]
    omega
  · exact dataStart_of_ne ha

theorem Inv.blockEnd_eq (h : Inv r s ts ls) (hr : r.buf % 4 = 0) {t : Tile} (ht : t ∈ ts) :
    blockEnd s.mem t.mcb = t.fin r := by
  unfold blockEnd Tile.fin
  rw [dataStart_aligned hr, h.heap.size t ht (h.settled t ht)]

theorem Inv.partition (h : Inv r s ts ls) (hr : r.buf % 4 = 0) :
    Partition r s.mem (ls .freed) (ls .allocated) where
  freed := h.heap.blocks_eq .freed
  allocated := h.heap.blocks_eq .allocated
  header g hg := by
    obtain ⟨t, ht, rfl⟩ := h.tile_of_mem hg
    rw [h.heap.buffer t ht, dataStart_aligned hr]
  disjoint := by
    refine h.nodup_blocks.imp_of_mem fun {g k} hg hk hne => ?_
    obtain ⟨t, ht, rfl⟩ := h.tile_of_mem hg
    obtain ⟨u, hu, rfl⟩ := h.tile_of_mem hk
    rw [h.blockEnd_eq hr ht, h.blockEnd_eq hr hu]
    exact (h.heap.tiled.sep ht hu).resolve_left fun he => hne (by rw [he])
  tile i := by
    constructor
    · rintro ⟨h1, h2⟩
      obtain ⟨t, ht, h3⟩ := h.heap.tiled.cover h1 h2
      exact ⟨t.mcb, h.mcb_mem ht, by rw [h.blockEnd_eq hr ht]; exact h3⟩
    · rintro ⟨g, hg, h1, h2⟩
      obtain ⟨t, ht, rfl⟩ := h.tile_of_mem hg
      rw [h.blockEnd_eq hr ht] at h2
      obtain ⟨h3, -, h4⟩ := h.heap.tiled.bounds.2 t ht
      omega

theorem Inv.holder (h : Inv r s ts ls) {g : ℕ} (hg : g ∈ ls .allocated) {b : Alloc} (hb : b ∈ s.live)
    (hp : InPayload s.mem g b.ptr) : ∃ t ∈ ts, t.mcb = g ∧ t.kind = .used b := by
  obtain ⟨t, ht, -, rfl⟩ := (h.heap.mem .allocated g).mp hg
  obtain ⟨u, hu, hk⟩ := (h.live b).mp hb
  obtain ⟨e1, e2⟩ := h.payload_eq ht
  unfold InPayload at hp
  rw [e2, e1] at hp
  have hfit := h.fits u hu b hk
  have h1 := hfit.lower
  have h2 := hfit.upper
  have h3 := hfit.pos
  have h4 := dataStart_ge r t.mcb
  have h5 := dataStart_ge r u.mcb
  rcases h.heap.tiled.sep ht hu with he | he | he
  · exact ⟨t, ht, rfl, he ▸ hk⟩
  · omega
  · omega

theorem Inv.served (h : Inv r s ts ls) {a : Alloc} (ha : a ∈ s.live) : Served s (ls .allocated) a := by
  obtain ⟨t, ht, hk⟩ := (h.live a).mp ha
  have hfit := h.fits t ht a hk
  obtain ⟨e1, e2⟩ := h.payload_eq ht
  have hmem : t.mcb ∈ ls .allocated := (h.heap.mem .allocated t.mcb).mpr ⟨t, ht, by rw [hk]; rfl, rfl⟩
  refine ⟨hfit.aligned, t.mcb, hmem, by rw [e1]; exact hfit.lower, by rw [e2]; exact hfit.upper, fun b hb hp => ?_⟩
  obtain ⟨u, hu, he, hku⟩ := h.holder hmem hb hp
  obtain rfl := h.heap.tiled.eq_of_mcb hu ht he
  exact Kind.used.inj (hku.symm.trans hk)

/-- A call leaves the payloads of the other live results alone. -/
theorem Inv.call_keeps (h : Inv r s ts ls) {op : Op} (hl : legal r s op) (hop : ∀ i v, op ≠ .write i v) :
    ∃ s', step r s op = some s' ∧ ∀ a ∈ s.live, op ≠ .free a.ptr → ∀ g ∈ ls .allocated,
      InPayload s.mem g a.ptr → ∀ i, InPayload s.mem g i → s'.mem i = s.mem i := by
  have hcall : ∃ s', step r s op = some s' ∧ Untouched r ts op s.mem s'.mem := by
    cases op with
    | malloc size align => obtain ⟨s', -, -, h1, -, h2⟩ := malloc_inv h (hl _ (h.heap.blocks_eq .freed)).firstFits; exact ⟨s', h1, h2⟩
    | free ptr => obtain ⟨s', -, -, h1, -, h2⟩ := free_inv h hl; exact ⟨s', h1, h2⟩
    | write i v => exact absurd rfl (hop i v)
  obtain ⟨s', h1, h2⟩ := hcall
  refine ⟨s', h1, fun a ha hne g hg hp i hi => ?_⟩
  obtain ⟨t, ht, rfl, hk⟩ := h.holder hg ha hp
  obtain ⟨e1, e2⟩ := h.payload_eq ht
  unfold InPayload at hi
  rw [e2, e1] at hi
  exact h2 t ht a hk hne i hi.1 hi.2

end

/-- **The heap is partitioned**, for a region aligned to 4: blocks tile it, results are aligned and alone,
and every legal call returns and leaves the others' bytes. -/
theorem heap_partition (r : Region) (hr : r.buf % 4 = 0) {s : State} (h : (system r).Reach s) :
    ∃ fs as, Partition r s.mem fs as ∧ s.live.Nodup ∧ (∀ a ∈ s.live, Served s as a) ∧
      ∀ op, legal r s op → (∀ i v, op ≠ .write i v) →
        ∃ s', step r s op = some s' ∧ ∀ a ∈ s.live, op ≠ .free a.ptr → ∀ g ∈ as,
          InPayload s.mem g a.ptr → ∀ i, InPayload s.mem g i → s'.mem i = s.mem i := by
  obtain ⟨ts, ls, hi⟩ := reach_inv h
  exact ⟨ls .freed, ls .allocated, hi.partition hr, hi.nodup, fun a ha => hi.served ha,
    fun op hl hop => hi.call_keeps hl hop⟩

theorem heap_partition_example :
    exampleState.live = [⟨0x1020, 20, 32⟩] ∧ ∃ fs as, Partition exampleRegion exampleState.mem fs as ∧
      ∀ a ∈ exampleState.live, Served exampleState as a := by
  refine ⟨by decide +kernel, ?_⟩
  obtain ⟨fs, as, h1, -, h2, -⟩ := heap_partition exampleRegion (by decide) exampleState_reach
  exact ⟨fs, as, h1, h2⟩

/-! ### Coalescing -/

section
variable {s : State} {ts : List Tile} {ls : Lst → List ℕ}

theorem Tiled.succ (h : Tiled r b ts e) {t u : Tile} (ht : t ∈ ts) (hu : u ∈ ts)
    (he : t.fin r = u.mcb) : ∃ l rt, ts = l ++ t :: u :: rt := by
  obtain ⟨l, rt, rfl⟩ := append_of_mem ht
  obtain ⟨-, -, h3⟩ := tiled_mid.mp h
  have hb := h.bounds.2 u hu
  have hlt := mcb_lt_fin r hb.2.1
  rcases rt with _ | ⟨v, rt⟩
  · have : t.fin r = e := h3
    omega
  · have hv : v ∈ l ++ t :: v :: rt := by simp
    have hvu : v = u := h.eq_of_mcb hv hu (h3.1.trans he)
    exact ⟨l, rt, by rw [hvu]⟩

theorem Inv.not_adjacent (h : Inv r s ts ls) {g k : ℕ} (hg : g ∈ ls .freed) (hk : k ∈ ls .freed) :
    get s.mem g .buffer + get s.mem g .size ≠ k := by
  obtain ⟨t, ht, hkt, rfl⟩ := (h.heap.mem .freed g).mp hg
  obtain ⟨u, hu, hku, rfl⟩ := (h.heap.mem .freed k).mp hk
  have hfree : ∀ {v : Tile}, v.kind.list = some .freed → v.kind = .free := fun {v} hv => by
    rcases hv' : v.kind with _ | a | _ <;> rw [hv'] at hv <;> first | rfl | cases hv
  rw [(h.payload_eq ht).2]
  intro he
  obtain ⟨l, rt, rfl⟩ := h.heap.tiled.succ ht hu he
  obtain ⟨-, -, h3⟩ := coalesced_mid.mp h.coalesced
  exact (h3 (hfree hkt)).2 u rfl (hfree hku)

/-- With nothing live the region is the one free tile it was at the start. -/
theorem Inv.all_free (h : Inv r s ts ls) (hl : s.live = []) :
    ts = [⟨r.buf, r.buf + r.size - payloadStart r.buf, .free⟩] := by
  have hfree : ∀ t ∈ ts, t.kind = .free := fun t ht => by
    rcases hk : t.kind with _ | a | _
    · rfl
    · have : a ∈ s.live := (h.live a).mpr ⟨t, ht, hk⟩
      rw [hl] at this
      cases this
    · exact absurd hk (h.settled t ht)
  have hroom := r.room
  have htiled := h.heap.tiled
  rcases ts with _ | ⟨t, _ | ⟨u, ts⟩⟩
  · have : r.buf = r.buf + r.size := htiled
    omega
  · obtain ⟨h1, h2, h3⟩ := htiled
    have h4 : t.fin r = r.buf + r.size := h3
    unfold Tile.fin at h4
    rw [h1, dataStart_buf] at h4
    obtain ⟨x, n, k⟩ := t
    have hk : k = .free := hfree ⟨x, n, k⟩ (mem_singleton.mpr rfl)
    simp only at h1 h4
    rw [h1, hk, payloadStart_eq, show n = r.buf + r.size - (r.buf + mcbSize + 3) / 4 * 4 by omega]
  · obtain ⟨-, -, h3⟩ := (coalesced_mid (l := [])).mp h.coalesced
    exact absurd (hfree u (by simp)) ((h3 (hfree t (by simp))).2 u rfl)

end

/-- **The free blocks are coalesced and sorted**; with nothing live there is the one of `vsf_bufmgr_init`. -/
theorem heap_coalesced (r : Region) {s : State} (h : (system r).Reach s) :
    ∃ fs as, blocks r s.mem .freed = some fs ∧ blocks r s.mem .allocated = some as ∧
      (∀ g ∈ fs, ∀ k ∈ fs, get s.mem g .buffer + get s.mem g .size ≠ k) ∧
      fs.Pairwise (fun g k => get s.mem g .size ≤ get s.mem k .size) ∧
      (s.live = [] → fs = [r.buf] ∧ as = [] ∧ ∀ m, blocks r (init r m) .freed = some fs ∧
        get s.mem r.buf .buffer = get (init r m) r.buf .buffer ∧
        get s.mem r.buf .size = get (init r m) r.buf .size) := by
  obtain ⟨ts, ls, hi⟩ := reach_inv h
  refine ⟨ls .freed, ls .allocated, hi.heap.blocks_eq .freed, hi.heap.blocks_eq .allocated,
    fun g hg k hk => hi.not_adjacent hg hk, hi.heap.sorted .freed, fun hl => ?_⟩
  obtain rfl := hi.all_free hl
  have hmem : ∀ w g, g ∈ ls w ↔ w = .freed ∧ g = r.buf := fun w g => by
    rw [hi.heap.mem w g]
    cases w <;> simp [Kind.list, eq_comm]
  have hn : ∀ w, (ls w).Nodup := fun w => (nodup_cons.mp (hi.heap.list w).nodup).2
  have hfs : ls .freed = [r.buf] :=
    perm_singleton.mp ((perm_ext_iff_of_nodup (hn _) (nodup_singleton _)).mpr fun g => by
      rw [hmem, mem_singleton]; simp)
  have has : ls .allocated = [] := eq_nil_iff_forall_not_mem.mpr fun g hg => by
    obtain ⟨hc, -⟩ := (hmem .allocated g).mp hg
    cases hc
  refine ⟨hfs, has, fun m => ?_⟩
  have h0 := init_heap r m
  have hfree : (.free : Kind) ≠ .loose := by decide
  refine ⟨(h0.blocks_eq .freed).trans (by rw [hfs]; rfl), ?_, ?_⟩
  · exact (hi.heap.buffer _ (by simp)).trans (h0.buffer _ (mem_singleton.mpr rfl)).symm
  · exact (hi.heap.size _ (mem_singleton.mpr rfl) hfree).trans
      (h0.size _ (mem_singleton.mpr rfl) hfree).symm

theorem heap_coalesced_example : ∃ fs, blocks exampleRegion exampleState.mem .freed = some fs ∧
      ∀ g ∈ fs, ∀ k ∈ fs, get exampleState.mem g .buffer + get exampleState.mem g .size ≠ k := by
  obtain ⟨fs, as, h1, -, h2, -⟩ := heap_coalesced exampleRegion exampleState_reach
  exact ⟨fs, h1, h2⟩

end Bufmgr
end Vsf
