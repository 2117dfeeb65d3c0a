/-
# Pools that are made when they are needed

`vsf_dynpool_alloc` takes an item of the first pool that has one, or makes another pool: one block,
linked in front. `vsf_dynpool_free` asks each pool whether the item is its own, by the difference of
two addresses. Numbers and flags agree as long as a block is as long as its parts, computed in 32
bits, and the pools are fewer than 65536 (`dynpool_right`).
-/
import Mathlib
import Vsf.Buffer.Bittool
import Vsf.Buffer.Queue
import Vsf.Lib.Heap
import Vsf.Lib.System

namespace Vsf

open ByteMem Bittool Linked Malloc List Function Option UInt32

namespace Dynpool

/-- What a user sets, and whether `DYNPOOL_CFG_GC_EN` is defined. -/
structure Config where
  gcEn : Bool
  itemSize : UInt32
  poolSize : UInt16
  poolNum : UInt16
  pollMs : UInt32

/-- `dynpool->item_size`, as `vsf_dynpool_init` leaves it. -/
def Config.stride (c : Config) : UInt32 := (c.itemSize + 3) &&& ~~~3

/-- `sizeof(struct vsf_dynpool_list_t)`. -/
def Config.headSize (c : Config) : UInt32 := if c.gcEn then 28 else 24

/-- `mskarr_num`. -/
def Config.mskarrNum (c : Config) : UInt32 := (c.poolSize.toUInt32 + 31) >>> 5

/-- `size`, of the block of a pool. -/
def Config.blockSize (c : Config) : UInt32 := c.headSize + c.mskarrNum <<< 2 + c.poolSize.toUInt32 * c.stride

/-- `struct vsf_dynpool_list_t`, without its `list`. -/
structure PoolNode where
  flags : ℕ
  buffer : ℕ
  itemSize : UInt32
  itemNum : UInt32
  allocatedNum : UInt32
  gcTick : UInt32

/-- `vsfpool_alloc`. -/
def PoolNode.alloc (p : PoolNode) (m : Mem) : Mem × Option ℕ :=
  let index := UInt32.ofInt (mskarrFfz m p.flags ((p.itemNum + 31) >>> 5).toNat)
  if p.itemNum ≤ index then (m, none)
  else (mskarrSet m p.flags index.toNat, some ((p.buffer + (index * p.itemSize).toNat) % 2 ^ 32))

/-- `vsfpool_free`. -/
def PoolNode.free (p : PoolNode) (m : Mem) (buffer : ℕ) : Mem × Bool :=
  let index := (UInt32.ofNat buffer - UInt32.ofNat p.buffer) / p.itemSize
  if index < p.itemNum then (mskarrClr m p.flags index.toNat, true) else (m, false)

end Dynpool

open Dynpool

/-- `struct vsf_dynpool_t`, its pools and memory; `stale` if a released pool's link is read. -/
structure Dynpool where
  head : Option ℕ
  curPoolNum : UInt16
  node : ℕ → PoolNode
  next : ℕ → Option ℕ
  mem : Mem
  heap : Heap
  stale : Bool

namespace Dynpool

variable (c : Config) (A : Allocator) (s : Dynpool)

/-! ### Lists -/

/-- `sllist_is_in`. -/
def sllistIsIn (next : ℕ → Option ℕ) (node : ℕ) : ℕ → Option ℕ → Option Bool
  | _, none => some false
  | 0, some _ => none
  | f + 1, some p => if p = node then some true else sllistIsIn next node f (next p)

/-- The loop of `sllist_remove`, which moves the head itself. -/
def sllistRemoveLoop (next : ℕ → Option ℕ) (node : ℕ) : ℕ → Option ℕ → Option (Option ℕ × (ℕ → Option ℕ))
  | _, none => some (none, next)
  | 0, some _ => none
  | f + 1, some p =>
    if next p = some node then some (some p, Function.update next p (next node))
    else sllistRemoveLoop next node f (next p)

/-- `sllist_remove`: the head and the links afterwards. -/
def sllistRemove (next : ℕ → Option ℕ) (head : Option ℕ) (node : ℕ) : Option (Option ℕ × (ℕ → Option ℕ)) :=
  (sllistIsIn next node walkFuel head).bind fun found =>
    if found then
      if head = some node then some (next node, next)
      else sllistRemoveLoop next node walkFuel head
    else some (head, next)

/-! ### Garbage collection -/

/-- `vsf_dynpool_gc_free`. -/
def gcFree (p : ℕ) : Option Dynpool :=
  (sllistRemove s.next s.head p).map fun r =>
    { s with head := r.1, next := r.2, heap := s.heap.free p, curPoolNum := s.curPoolNum - 1 }

/-- `vsf_dynpool_gc_hit`, at a tick. -/
def gcHit (now : UInt32) (p : ℕ) : Option Dynpool :=
  if 0 < c.pollMs then some { s with node := Function.update s.node p { s.node p with gcTick := now } }
  else s.gcFree p

/-- The pool is idle, and was for longer than `gc.poll_ms`. -/
def Expired (now : UInt32) (p : ℕ) : Prop := (s.node p).allocatedNum = 0 ∧ now - (s.node p).gcTick > c.pollMs

instance (now : UInt32) (p : ℕ) : Decidable (s.Expired c now p) := by
  unfold Expired
  infer_instance

/-- `p->list.next` is read. -/
def touch (p : ℕ) : Dynpool := { s with stale := s.stale || !(s.heap.live.any fun b => b.addr = p) }

/-- The loop of `vsf_dynpool_evt_handler` at `VSFSM_EVT_TIMER`. -/
def tickLoop (now : UInt32) : ℕ → Dynpool → Option ℕ → Option Dynpool
  | _, s, none => some s
  | 0, _, some _ => none
  | f + 1, s, some p =>
    (if s.Expired c now p then s.gcFree p else some s).bind fun s => tickLoop now f (s.touch p) (s.next p)

/-- `VSFSM_EVT_TIMER`. -/
def tick (now : UInt32) : Option Dynpool := tickLoop c now walkFuel s s.head

/-! ### Items -/

/-- `do_allocate`. -/
def take (p : ℕ) : Option ℕ × Dynpool :=
  let r := (s.node p).alloc s.mem
  (r.2, { s with
    mem := r.1
    node := Function.update s.node p { s.node p with allocatedNum := (s.node p).allocatedNum + 1 } })

/-- The loop of `vsf_dynpool_alloc`. -/
def roomLoop : ℕ → Option ℕ → Option (Option ℕ)
  | _, none => some none
  | 0, some _ => none
  | f + 1, some p => if (s.node p).allocatedNum < c.poolSize.toUInt32 then some (some p) else roomLoop f (s.next p)

/-- A block at `a` becomes a pool, in front of the others. -/
def link (a : ℕ) : Dynpool :=
  let flags := a + c.headSize.toNat
  { s with
    mem := fun i => if a ≤ i ∧ i < a + c.blockSize.toNat then 0 else s.mem i
    node := Function.update s.node a
      { flags, buffer := flags + 4 * c.mskarrNum.toNat, itemSize := c.stride, itemNum := c.poolSize.toUInt32, allocatedNum := 0, gcTick := 0 }
    curPoolNum := s.curPoolNum + 1
    next := Function.update s.next a s.head
    head := some a }

/-- `vsf_dynpool_alloc`. -/
def alloc : Option (Option ℕ × Dynpool) :=
  (s.roomLoop c walkFuel s.head).map fun room =>
    match room with
    | some p => s.take p
    | none =>
      if c.poolNum = 0 ∨ c.poolNum < s.curPoolNum then
        match s.heap.malloc A c.blockSize.toNat with
        | (none, heap) => (none, { s with heap })
        | (some a, heap) => ({ s with heap }.link c a).take a
      else (none, s)

/-- The loop of `vsf_dynpool_free`. -/
def freeLoop (now : UInt32) (buff : ℕ) : ℕ → Option ℕ → Option (Bool × Dynpool)
  | _, none => some (false, s)
  | 0, some _ => none
  | f + 1, some p =>
    match (s.node p).free s.mem buff with
    | (mem, true) =>
      let n := { s.node p with allocatedNum := (s.node p).allocatedNum - 1 }
      let s := { s with mem, node := Function.update s.node p n }
      if c.gcEn ∧ n.allocatedNum = 0 then (s.gcHit c now p).map fun s => (true, s) else some (true, s)
    | (_, false) => freeLoop now buff f (s.next p)

/-- `vsf_dynpool_free`, at a tick. -/
def free (now : UInt32) (buff : ℕ) : Option (Bool × Dynpool) := s.freeLoop c now buff walkFuel s.head

/-- After `vsf_dynpool_init`. -/
def init (m : Mem) (node : ℕ → PoolNode) (next : ℕ → Option ℕ) : Dynpool :=
  { head := none, curPoolNum := 0, node, next, mem := m, heap := Heap.empty, stale := false }

end Dynpool

/-! ### Runs -/

/-- The pools, and the items that were taken and not given back. -/
structure DynpoolUse where
  pool : Dynpool
  live : List ℕ

namespace DynpoolUse

open Dynpool

/-- An item is taken, given back, or written to, or the timer runs. -/
inductive Op
  | alloc
  | free (now : UInt32) (q : ℕ)
  | use (q a : ℕ) (v : UInt8)
  | tick (now : UInt32)

variable (c : Config) (A : Allocator) (u : DynpoolUse)

/-- What is left of an operation, if its loops end. -/
def exec : Op → Option DynpoolUse
  | .alloc => (u.pool.alloc c A).map fun r => ⟨r.2, r.1.toList ++ u.live⟩
  | .free now q => (u.pool.free c now q).map fun r => ⟨r.2, u.live.erase q⟩
  | .use _ a v => some ⟨{ u.pool with mem := Function.update u.pool.mem a v }, u.live⟩
  | .tick now => (u.pool.tick c now).map fun s => ⟨s, u.live⟩

/-- Live items are given back or written to; the timer needs collection and an interval. -/
def Legal : Op → Prop
  | .alloc => True
  | .free _ q => q ∈ u.live
  | .use q a _ => q ∈ u.live ∧ q ≤ a ∧ a < q + c.itemSize.toNat
  | .tick _ => c.gcEn = true ∧ 0 < c.pollMs

/-- All runs, with an allocator. -/
def system : System DynpoolUse Op where
  start u := ∃ m node next, u = ⟨Dynpool.init m node next, []⟩
  step u op u' := u.Legal c op ∧ u.exec c A op = some u'

end DynpoolUse
namespace Dynpool

/-! ### The block of a pool -/

/-- A block is as long as its parts. -/
structure Config.Fits (c : Config) : Prop where
  size : 0 < c.poolSize.toNat
  stride : 0 < c.stride.toNat
  block : c.headSize.toNat + 4 * ((c.poolSize.toNat + 31) / 32) + c.poolSize.toNat * c.stride.toNat < 2 ^ 32

/-- Where the flags and the items of the pool at `p` are. -/
def Config.flagsAt (c : Config) (p : ℕ) : ℕ := p + c.headSize.toNat

def Config.item (c : Config) (p k : ℕ) : ℕ := c.flagsAt p + 4 * c.mskarrNum.toNat + k * c.stride.toNat

/-- The items of the pool at `p` whose flag is set. -/
def Config.used (c : Config) (m : Mem) (p : ℕ) : Finset ℕ :=
  (Finset.range c.poolSize.toNat).filter fun k => flag m (c.flagsAt p) k = true

/-- The header of the pool at `p`. -/
structure Config.Made (c : Config) (p : ℕ) (n : PoolNode) : Prop where
  flags : n.flags = c.flagsAt p
  buffer : n.buffer = c.item p 0
  itemSize : n.itemSize = c.stride
  itemNum : n.itemNum = c.poolSize.toUInt32

variable {c : Config} {A : Allocator} {s : Dynpool} {m m' : Mem} {n : PoolNode} {p q k : ℕ} {ps live : List ℕ}

theorem toNat_mskarrNum (c : Config) : c.mskarrNum.toNat = (c.poolSize.toNat + 31) / 32 := by
  have h := c.poolSize.toNat_lt
  rw [Config.mskarrNum, UInt32.toNat_shiftRight, UInt32.toNat_add, UInt16.toNat_toUInt32, show (31 : UInt32).toNat = 31 from rfl,
    show (5 : UInt32).toNat % 32 = 5 from rfl, Nat.shiftRight_eq_div_pow]
  omega

theorem Config.Fits.toNat_blockSize (h : c.Fits) : c.blockSize.toNat =
    c.headSize.toNat + 4 * c.mskarrNum.toNat + c.poolSize.toNat * c.stride.toNat := by
  have hblock := h.block
  rw [← toNat_mskarrNum] at hblock
  have hshift : (c.mskarrNum <<< 2).toNat = 4 * c.mskarrNum.toNat := by
    rw [UInt32.toNat_shiftLeft, show (2 : UInt32).toNat % 32 = 2 from rfl, Nat.shiftLeft_eq, Nat.mod_eq_of_lt (by omega),
      mul_comm]
  have hmul : (c.poolSize.toUInt32 * c.stride).toNat = c.poolSize.toNat * c.stride.toNat := by
    rw [UInt32.toNat_mul, UInt16.toNat_toUInt32, Nat.mod_eq_of_lt (by omega)]
  rw [Config.blockSize, UInt32.toNat_add, UInt32.toNat_add, hshift, hmul]
  omega

theorem Config.Fits.itemSize_le (h : c.Fits) : c.itemSize.toNat ≤ c.stride.toNat := by
  have hpos := h.stride
  have hlt := c.itemSize.toNat_lt
  rw [Config.stride, toNat_and_not_three, UInt32.toNat_add, show (3 : UInt32).toNat = 3 from rfl] at hpos ⊢
  omega

theorem item_succ (c : Config) (p k : ℕ) : c.item p (k + 1) = c.item p k + c.stride.toNat := by
  rw [Config.item, Config.item, Nat.succ_mul k]
  exact (add_assoc _ _ _).symm

theorem item_mono (c : Config) (p : ℕ) {j k : ℕ} (h : j ≤ k) : c.item p j ≤ c.item p k :=
  Nat.add_le_add_left (Nat.mul_le_mul_right _ h) _

theorem Config.Fits.item_last (h : c.Fits) (p : ℕ) : c.item p c.poolSize.toNat = p + c.blockSize.toNat := by
  rw [h.toNat_blockSize, Config.item, Config.flagsAt]
  omega

theorem flagsAt_le (c : Config) (p : ℕ) : c.flagsAt p + 4 * c.mskarrNum.toNat = c.item p 0 := by
  rw [Config.item, Nat.zero_mul, add_zero]

theorem Config.Fits.item_inside (h : c.Fits) (hk : k < c.poolSize.toNat) :
    p < c.item p k ∧ c.item p k + c.stride.toNat ≤ p + c.blockSize.toNat := by
  have hlast := item_mono c p (show k + 1 ≤ c.poolSize.toNat from hk)
  have hfirst := item_mono c p (Nat.zero_le k)
  have hflags := flagsAt_le c p
  have hhead : 24 ≤ c.headSize.toNat := by
    unfold Config.headSize
    split_ifs <;> decide
  rw [item_succ, h.item_last] at hlast
  rw [Config.flagsAt] at hflags
  omega

theorem item_apart {j : ℕ} (h : j ≠ k) :
    c.item p j + c.stride.toNat ≤ c.item p k ∨ c.item p k + c.stride.toNat ≤ c.item p j := by
  rw [← item_succ, ← item_succ]
  rcases lt_or_gt_of_ne h with hlt | hlt
  · exact .inl (item_mono c p hlt)
  · exact .inr (item_mono c p hlt)

theorem Config.Fits.item_inj (h : c.Fits) {j : ℕ} (heq : c.item p j = c.item p k) : j = k := by
  have hpos := h.stride
  by_contra hne
  rcases item_apart (c := c) (p := p) hne with hle | hle <;> omega

/-! ### The index of an item -/

theorem index_own {x b : ℕ} {d : UInt32} (hd : 0 < d.toNat) (hx : x = b + k * d.toNat) (hlt : x < 2 ^ 32) :
    ((UInt32.ofNat x - UInt32.ofNat b) / d).toNat = k := by
  have hdiff : UInt32.ofNat x - UInt32.ofNat b = UInt32.ofNat (k * d.toNat) := by
    rw [hx, UInt32.ofNat_add, UInt32.add_comm, UInt32.add_sub_cancel]
  rw [hdiff, UInt32.toNat_div, UInt32.toNat_ofNat', Nat.mod_eq_of_lt (by omega), Nat.mul_div_cancel _ hd]

theorem index_other {x b j : ℕ} {d : UInt32} (hd : 0 < d.toNat) (hb : b + j * d.toNat ≤ 2 ^ 32) (hx : x < 2 ^ 32)
    (hout : x < b ∨ b + j * d.toNat ≤ x) : j ≤ ((UInt32.ofNat x - UInt32.ofNat b) / d).toNat := by
  rw [UInt32.toNat_div, UInt32.toNat_sub, UInt32.toNat_ofNat', UInt32.toNat_ofNat', Nat.le_div_iff_mul_le hd,
    Nat.mod_eq_of_lt hx]
  rcases lt_or_ge b (2 ^ 32) with hlt | hge
  · rw [Nat.mod_eq_of_lt hlt]
    omega
  · omega

/-! ### Flags -/

theorem mem_used : k ∈ c.used m p ↔ k < c.poolSize.toNat ∧ flag m (c.flagsAt p) k = true := by
  simp [Config.used]

theorem le_words (c : Config) : c.poolSize.toNat ≤ 32 * c.mskarrNum.toNat := by
  rw [toNat_mskarrNum]
  omega

theorem used_congr (h : ∀ a, c.flagsAt p ≤ a → a < c.item p 0 → m' a = m a) : c.used m' p = c.used m p := by
  have hwords := le_words c
  rw [← flagsAt_le] at h
  apply Finset.filter_congr
  intro k hk
  rw [Finset.mem_range] at hk
  rw [flag_congr h (by omega)]

theorem used_zero (h : ∀ a, c.flagsAt p ≤ a → a < c.item p 0 → m a = 0) : c.used m p = ∅ := by
  have hwords := le_words c
  rw [← flagsAt_le] at h
  apply Finset.filter_eq_empty_iff.mpr
  intro k hk
  rw [Finset.mem_range] at hk
  rw [flag_zero h (by omega)]
  exact Bool.false_ne_true

theorem used_set (hk : k < c.poolSize.toNat) : c.used (mskarrSet m (c.flagsAt p) k) p = insert k (c.used m p) := by
  ext j
  rw [Finset.mem_insert, mem_used, mem_used, flag_mskarrSet]
  by_cases hj : j = k
  · simp [hj, hk]
  · simp [hj]

theorem used_clr : c.used (mskarrClr m (c.flagsAt p) k) p = (c.used m p).erase k := by
  ext j
  rw [Finset.mem_erase, mem_used, mem_used, flag_mskarrClr]
  by_cases hj : j = k
  · simp [hj]
  · simp [hj]

theorem word_inside (hk : k < c.poolSize.toNat) : c.flagsAt p + 4 * (k / 32) + 4 ≤ c.item p 0 := by
  have hwords := le_words c
  rw [← flagsAt_le]
  omega

/-! ### One pool -/

/-- A pool that has room gives an item that was not used. -/
theorem Config.Made.alloc (h : c.Made p n) (hfits : c.Fits) (hspace : p + c.blockSize.toNat ≤ 2 ^ 32)
    (hroom : (c.used m p).card < c.poolSize.toNat) :
    ∃ k < c.poolSize.toNat, k ∉ c.used m p ∧ n.alloc m = (mskarrSet m (c.flagsAt p) k, some (c.item p k)) := by
  have hn := c.poolSize.toNat_lt
  have hnum : n.itemNum.toNat = c.poolSize.toNat := by rw [h.itemNum, UInt16.toNat_toUInt32]
  have hwords : ((n.itemNum + 31) >>> 5).toNat = c.mskarrNum.toNat := by rw [h.itemNum, Config.mskarrNum]
  obtain ⟨j, hj, hclear⟩ : ∃ j < c.poolSize.toNat, flag m (c.flagsAt p) j = false := by
    by_contra hall
    push Not at hall
    have hfull : c.used m p = Finset.range c.poolSize.toNat :=
      Finset.filter_true_of_mem fun j hj => by simpa using hall j (Finset.mem_range.mp hj)
    rw [hfull, Finset.card_range] at hroom
    exact lt_irrefl _ hroom
  have hle := le_words c
  rcases mskarrFfz_cases m (c.flagsAt p) c.mskarrNum.toNat with ⟨-, hall⟩ | ⟨k, -, hf, h0, hlow⟩
  · rw [hall j (by omega)] at hclear
    cases hclear
  have hkj : k ≤ j := by
    by_contra hlt
    rw [hlow j (by omega)] at hclear
    cases hclear
  have hk : k < c.poolSize.toNat := by omega
  have hindex : (UInt32.ofInt (k : ℤ)).toNat = k := by
    rw [UInt32.ofInt, toNat_ofNat']
    omega
  obtain ⟨-, hinside⟩ := hfits.item_inside (p := p) hk
  have hpos := hfits.stride
  have hprod : (UInt32.ofInt (k : ℤ) * n.itemSize).toNat = k * c.stride.toNat := by
    have hitem : c.item p k = c.item p 0 + k * c.stride.toNat := by
      rw [← flagsAt_le]
      rfl
    rw [UInt32.toNat_mul, hindex, h.itemSize, Nat.mod_eq_of_lt (by omega)]
  have hnot : k ∉ c.used m p := by
    intro hm
    rw [(mem_used.mp hm).2] at h0
    cases h0
  refine ⟨k, hk, hnot, ?_⟩
  unfold PoolNode.alloc
  dsimp only
  rw [h.flags, hwords, hf, if_neg (by rw [le_iff_toNat_le, hnum, hindex]; omega), hprod, hindex, h.buffer]
  refine Prod.ext rfl (congrArg some ?_)
  rw [Nat.mod_eq_of_lt]
  · rw [← flagsAt_le]
    rfl
  · rw [← flagsAt_le]
    have : c.flagsAt p + 4 * c.mskarrNum.toNat + k * c.stride.toNat = c.item p k := rfl
    omega

theorem Config.Made.free_own (h : c.Made p n) (hfits : c.Fits) (hspace : p + c.blockSize.toNat ≤ 2 ^ 32)
    (hk : k < c.poolSize.toNat) : n.free m (c.item p k) = (mskarrClr m (c.flagsAt p) k, true) := by
  obtain ⟨-, hinside⟩ := hfits.item_inside (p := p) hk
  have hpos := hfits.stride
  have hindex : ((UInt32.ofNat (c.item p k) - UInt32.ofNat n.buffer) / n.itemSize).toNat = k := by
    rw [h.buffer, h.itemSize]
    exact index_own hpos (by rw [← flagsAt_le]; rfl) (by omega)
  unfold PoolNode.free
  dsimp only
  rw [if_pos (by rw [lt_iff_toNat_lt, hindex, h.itemNum, UInt16.toNat_toUInt32]; exact hk), hindex, h.flags]

theorem Config.Made.free_other (h : c.Made p n) (hfits : c.Fits) (hspace : p + c.blockSize.toNat ≤ 2 ^ 32) (hq : q < 2 ^ 32)
    (hout : q < p ∨ p + c.blockSize.toNat ≤ q) : n.free m q = (m, false) := by
  have hlast := hfits.item_last p
  have hitems : c.item p c.poolSize.toNat = c.item p 0 + c.poolSize.toNat * c.stride.toNat := by
    rw [← flagsAt_le]
    rfl
  have hfirst := (hfits.item_inside (p := p) hfits.size).1
  have hindex : c.poolSize.toNat ≤ ((UInt32.ofNat q - UInt32.ofNat n.buffer) / n.itemSize).toNat := by
    rw [h.buffer, h.itemSize]
    exact index_other hfits.stride (by omega) hq (by omega)
  unfold PoolNode.free
  dsimp only
  rw [if_neg (by rw [lt_iff_toNat_lt, h.itemNum, UInt16.toNat_toUInt32]; omega)]

/-! ### All pools -/

/-- The flags that belong to no item are not set. -/
def Config.Rest (c : Config) (m : Mem) (p : ℕ) : Prop :=
  ∀ k, c.poolSize.toNat ≤ k → k < 32 * c.mskarrNum.toNat → flag m (c.flagsAt p) k = false

theorem rest_congr (h : ∀ a, c.flagsAt p ≤ a → a < c.item p 0 → m' a = m a) (hr : c.Rest m p) : c.Rest m' p := by
  intro k hk hlt
  rw [← flagsAt_le] at h
  rw [flag_congr h hlt]
  exact hr k hk hlt

theorem rest_zero (h : ∀ a, c.flagsAt p ≤ a → a < c.item p 0 → m a = 0) : c.Rest m p := by
  intro k _ hlt
  rw [← flagsAt_le] at h
  exact flag_zero h hlt

theorem rest_set (hk : k < c.poolSize.toNat) (hr : c.Rest m p) : c.Rest (mskarrSet m (c.flagsAt p) k) p := by
  intro j hj hlt
  rw [flag_mskarrSet, hr j hj hlt]
  simp
  omega

theorem rest_clr (hr : c.Rest m p) : c.Rest (mskarrClr m (c.flagsAt p) k) p := by
  intro j hj hlt
  rw [flag_mskarrClr, hr j hj hlt]
  simp

/-- The pools `ps` are linked, in blocks of their own; their numbers and flags say what is live. -/
structure Inv (c : Config) (s : Dynpool) (live ps : List ℕ) : Prop where
  chain : Chain s.next s.head ps
  ok : s.heap.Ok
  blocks : ∀ b, b ∈ s.heap.live ↔ ∃ p ∈ ps, b = ⟨p, c.blockSize.toNat⟩
  made : ∀ p ∈ ps, c.Made p (s.node p)
  count : ∀ p ∈ ps, (s.node p).allocatedNum.toNat = (c.used s.mem p).card
  rest : ∀ p ∈ ps, c.Rest s.mem p
  nodup : live.Nodup
  live : ∀ q, q ∈ live ↔ ∃ p ∈ ps, ∃ k ∈ c.used s.mem p, q = c.item p k
  num : s.curPoolNum = UInt16.ofNat ps.length

namespace Inv

theorem block (h : Inv c s live ps) (hp : p ∈ ps) : ⟨p, c.blockSize.toNat⟩ ∈ s.heap.live := (h.blocks _).mpr ⟨p, hp, rfl⟩

theorem space (h : Inv c s live ps) (hp : p ∈ ps) : 0 < p ∧ p + c.blockSize.toNat ≤ 2 ^ 32 := by
  obtain ⟨hpos, -, -, hle⟩ := h.ok.inside _ (h.block hp)
  exact ⟨hpos, hle⟩

theorem apart (h : Inv c s live ps) {p' : ℕ} (hp : p ∈ ps) (hp' : p' ∈ ps) (hne : p ≠ p') :
    p + c.blockSize.toNat ≤ p' ∨ p' + c.blockSize.toNat ≤ p := h.ok.apart_of_ne (h.block hp) (h.block hp') hne

theorem length_le (h : Inv c s live ps) : ps.length ≤ walkFuel := by
  have hsub : ps ⊆ List.range (2 ^ 32) := by
    intro p hp
    obtain ⟨-, hpos, -, hle⟩ := h.ok.inside _ (h.block hp)
    exact List.mem_range.mpr (by dsimp only at hpos hle; omega)
  simpa [walkFuel] using (h.chain.nodup.subperm hsub).length_le

theorem owner (h : Inv c s live ps) (hfits : c.Fits) {p' j : ℕ} (hp : p ∈ ps) (hp' : p' ∈ ps) (hk : k < c.poolSize.toNat)
    (hj : j < c.poolSize.toNat) (heq : c.item p k = c.item p' j) : p = p' := by
  by_contra hne
  have h1 := hfits.item_inside (p := p) hk
  have h2 := hfits.item_inside (p := p') hj
  have hpos := hfits.stride
  rcases h.apart hp hp' hne with hle | hle <;> omega

theorem used_lt (hk : k ∈ c.used m p) : k < c.poolSize.toNat := (mem_used.mp hk).1

theorem allocated_le (h : Inv c s live ps) (hp : p ∈ ps) : (s.node p).allocatedNum.toNat ≤ c.poolSize.toNat := by
  rw [h.count p hp]
  exact (Finset.card_filter_le _ _).trans_eq (Finset.card_range _)

/-- The pool at `p` changes, and nothing outside its block. -/
theorem change (h : Inv c s live ps) (hp : p ∈ ps) {live' : List ℕ}
    (hsame : ∀ a, a < p ∨ p + c.blockSize.toNat ≤ a → m' a = s.mem a) (hfits : c.Fits) (hmade : c.Made p n)
    (hcount : n.allocatedNum.toNat = (c.used m' p).card) (hrest : c.Rest m' p) (hnodup : live'.Nodup)
    (hlive : ∀ q, q ∈ live' ↔ (∃ p' ∈ ps, p' ≠ p ∧ ∃ k ∈ c.used s.mem p', q = c.item p' k) ∨ ∃ k ∈ c.used m' p, q = c.item p k) :
    Inv c { s with mem := m', node := Function.update s.node p n } live' ps := by
  have hflags : ∀ p' ∈ ps, p' ≠ p → ∀ a, c.flagsAt p' ≤ a → a < c.item p' 0 → m' a = s.mem a := by
    intro p' hp' hne a hlo hhi
    apply hsame a
    have hin := (hfits.item_inside (p := p') hfits.size).2
    have hlo' : p' ≤ a := (Nat.le_add_right _ _).trans hlo
    rcases h.apart hp hp' hne.symm with hle | hle <;> omega
  have hother : ∀ p' ∈ ps, p' ≠ p → c.used m' p' = c.used s.mem p' := fun p' hp' hne => used_congr (hflags p' hp' hne)
  refine ⟨h.chain, h.ok, h.blocks, ?_, ?_, ?_, hnodup, ?_, h.num⟩
  · intro p' hp'
    by_cases hne : p' = p
    · subst hne
      simpa using hmade
    · simpa [hne] using h.made p' hp'
  · intro p' hp'
    by_cases hne : p' = p
    · subst hne
      simpa using hcount
    · simpa [hne, hother p' hp' hne] using h.count p' hp'
  · intro p' hp'
    by_cases hne : p' = p
    · subst hne
      exact hrest
    · exact rest_congr (hflags p' hp' hne) (h.rest p' hp')
  · intro q
    rw [hlive]
    constructor
    · rintro (⟨p', hp', hne, k, hk, rfl⟩ | ⟨k, hk, rfl⟩)
      · exact ⟨p', hp', k, (hother p' hp' hne).symm ▸ hk, rfl⟩
      · exact ⟨p, hp, k, hk, rfl⟩
    · rintro ⟨p', hp', k, hk, rfl⟩
      by_cases hne : p' = p
      · subst hne
        exact .inr ⟨k, hk, rfl⟩
      · exact .inl ⟨p', hp', hne, k, hother p' hp' hne ▸ hk, rfl⟩

theorem live_split (h : Inv c s live ps) (hp : p ∈ ps) (q : ℕ) : q ∈ live ↔
    (∃ p' ∈ ps, p' ≠ p ∧ ∃ k ∈ c.used s.mem p', q = c.item p' k) ∨ ∃ k ∈ c.used s.mem p, q = c.item p k := by
  rw [h.live]
  constructor
  · rintro ⟨p', hp', k, hk, rfl⟩
    by_cases hne : p' = p
    · subst hne
      exact .inr ⟨k, hk, rfl⟩
    · exact .inl ⟨p', hp', hne, k, hk, rfl⟩
  · rintro (⟨p', hp', -, k, hk, rfl⟩ | ⟨k, hk, rfl⟩)
    · exact ⟨p', hp', k, hk, rfl⟩
    · exact ⟨p, hp, k, hk, rfl⟩

theorem flag_word (hfits : c.Fits) (hk : k < c.poolSize.toNat)
    (hsame : Same (fun a => c.flagsAt p + 4 * (k / 32) ≤ a ∧ a < c.flagsAt p + 4 * (k / 32) + 4) m m') :
    ∀ a, a < p ∨ p + c.blockSize.toNat ≤ a → m' a = m a := by
  intro a ha
  have hword := word_inside hk (c := c) (p := p)
  have hin := (hfits.item_inside (p := p) hfits.size).2
  have hlo : p ≤ c.flagsAt p := Nat.le_add_right _ _
  exact hsame a (by omega)

/-- **An item is taken**: it was not live. -/
theorem take (h : Inv c s live ps) (hfits : c.Fits) (hp : p ∈ ps) (hk : k < c.poolSize.toNat) (hnot : k ∉ c.used s.mem p) :
    c.item p k ∉ live ∧ Inv c { s with
      mem := mskarrSet s.mem (c.flagsAt p) k
      node := Function.update s.node p { s.node p with allocatedNum := (s.node p).allocatedNum + 1 } } (c.item p k :: live) ps := by
  have hfree : c.item p k ∉ live := by
    intro hm
    obtain ⟨p', hp', j, hj, heq⟩ := (h.live _).mp hm
    obtain rfl := h.owner hfits hp hp' hk (used_lt hj) heq
    rw [hfits.item_inj heq] at hnot
    exact hnot hj
  refine ⟨hfree, h.change hp (flag_word hfits hk same_mskarrSet) hfits ?_ ?_ (rest_set hk (h.rest p hp)) (nodup_cons.mpr ⟨hfree, h.nodup⟩) ?_⟩
  · obtain ⟨h1, h2, h3, h4⟩ := h.made p hp
    exact ⟨h1, h2, h3, h4⟩
  · have hle := h.allocated_le hp
    have hn := c.poolSize.toNat_lt
    rw [used_set hk, Finset.card_insert_of_notMem hnot, ← h.count p hp, UInt32.toNat_add, show (1 : UInt32).toNat = 1 from rfl,
      Nat.mod_eq_of_lt (by omega)]
  · intro q
    rw [mem_cons, h.live_split hp, used_set hk]
    constructor
    · rintro (rfl | hother | ⟨j, hj, rfl⟩)
      · exact .inr ⟨k, Finset.mem_insert_self _ _, rfl⟩
      · exact .inl hother
      · exact .inr ⟨j, Finset.mem_insert_of_mem hj, rfl⟩
    · rintro (hother | ⟨j, hj, rfl⟩)
      · exact .inr (.inl hother)
      · rcases Finset.mem_insert.mp hj with rfl | hj
        · exact .inl rfl
        · exact .inr (.inr ⟨j, hj, rfl⟩)

/-- **An item is given back.** -/
theorem freed (h : Inv c s live ps) (hfits : c.Fits) (hp : p ∈ ps) (hk : k ∈ c.used s.mem p) : Inv c { s with
      mem := mskarrClr s.mem (c.flagsAt p) k
      node := Function.update s.node p { s.node p with allocatedNum := (s.node p).allocatedNum - 1 } }
    (live.erase (c.item p k)) ps := by
  have hlt := used_lt hk
  refine h.change hp (flag_word hfits hlt same_mskarrClr) hfits ?_ ?_ (rest_clr (h.rest p hp)) (h.nodup.erase _) ?_
  · obtain ⟨h1, h2, h3, h4⟩ := h.made p hp
    exact ⟨h1, h2, h3, h4⟩
  · have hpos : 0 < (c.used s.mem p).card := Finset.card_pos.mpr ⟨k, hk⟩
    have hcount := h.count p hp
    have hle : (1 : UInt32) ≤ (s.node p).allocatedNum := by
      rw [le_iff_toNat_le, hcount]
      exact hpos
    rw [used_clr, Finset.card_erase_of_mem hk, ← hcount]
    exact UInt32.toNat_sub_of_le _ _ hle
  · intro q
    rw [h.nodup.mem_erase_iff, h.live_split hp, used_clr]
    constructor
    · rintro ⟨hne, hother | ⟨j, hj, rfl⟩⟩
      · exact .inl hother
      · refine .inr ⟨j, Finset.mem_erase.mpr ⟨?_, hj⟩, rfl⟩
        rintro rfl
        exact hne rfl
    · rintro (⟨p', hp', hne, j, hj, rfl⟩ | ⟨j, hj, rfl⟩)
      · exact ⟨fun heq => hne (h.owner hfits hp' hp (used_lt hj) hlt heq), .inl ⟨p', hp', hne, j, hj, rfl⟩⟩
      · obtain ⟨hjk, hj⟩ := Finset.mem_erase.mp hj
        exact ⟨fun heq => hjk (hfits.item_inj heq), .inr ⟨j, hj, rfl⟩⟩

theorem use (h : Inv c s live ps) (hfits : c.Fits) (hq : q ∈ live) {a : ℕ} (ha : q ≤ a ∧ a < q + c.itemSize.toNat) (v : UInt8) :
    Inv c { s with mem := Function.update s.mem a v } live ps := by
  obtain ⟨p, hp, k, hk, rfl⟩ := (h.live q).mp hq
  have hsize := hfits.itemSize_le
  have hin := hfits.item_inside (p := p) (used_lt hk)
  have hflags : ∀ p' ∈ ps, ∀ i, c.flagsAt p' ≤ i → i < c.item p' 0 → Function.update s.mem a v i = s.mem i := by
    intro p' hp' i hlo hhi
    apply update_of_ne
    have hin' := (hfits.item_inside (p := p') hfits.size).2
    have hlo' : p' ≤ i := (Nat.le_add_right _ _).trans hlo
    have hfirst := item_mono c p (Nat.zero_le k)
    by_cases hne : p' = p
    · subst hne
      omega
    · rcases h.apart hp' hp hne with hle | hle <;> omega
  refine ⟨h.chain, h.ok, h.blocks, h.made, ?_, fun p' hp' => rest_congr (hflags p' hp') (h.rest p' hp'), h.nodup, ?_, h.num⟩
  · intro p' hp'
    rw [used_congr (hflags p' hp')]
    exact h.count p' hp'
  · intro q
    rw [h.live]
    refine exists_congr fun p' => and_congr_right fun hp' => ?_
    rw [used_congr (hflags p' hp')]

/-- **Another pool**, in a new block. -/
theorem link (h : Inv c s live ps) (hfits : c.Fits) {a : ℕ} (hpick : A.pick s.heap.calls s.heap.live c.blockSize.toNat = some a) :
    Inv c ({ s with heap := { s.heap with live := ⟨a, c.blockSize.toNat⟩ :: s.heap.live, calls := s.heap.calls + 1 } }.link c a)
      live (a :: ps) := by
  have hblock := hfits.toNat_blockSize
  have hin := hfits.item_inside (p := a) hfits.size
  have hfresh : ∀ p ∈ ps, a + c.blockSize.toNat ≤ p ∨ p + c.blockSize.toNat ≤ a := fun p hp => A.apart hpick _ (h.block hp)
  have hout : a ∉ ps := by
    intro hm
    rcases hfresh a hm with hle | hle <;> omega
  let mem : Mem := fun i => if a ≤ i ∧ i < a + c.blockSize.toNat then 0 else s.mem i
  have hflags : ∀ p ∈ ps, ∀ i, c.flagsAt p ≤ i → i < c.item p 0 → mem i = s.mem i := by
    intro p hp i hlo hhi
    apply if_neg
    have hin' := (hfits.item_inside (p := p) hfits.size).2
    have hlo' : p ≤ i := (Nat.le_add_right _ _).trans hlo
    rcases hfresh p hp with hle | hle <;> omega
  have hused : ∀ p ∈ ps, c.used mem p = c.used s.mem p := fun p hp => used_congr (hflags p hp)
  have hclear : ∀ i, c.flagsAt a ≤ i → i < c.item a 0 → mem i = 0 := by
    intro i hlo hhi
    apply if_pos
    have hlo' : a ≤ i := (Nat.le_add_right _ _).trans hlo
    omega
  have hzero : c.used mem a = ∅ := used_zero hclear
  refine ⟨h.chain.push hout, h.ok.malloc (by omega) hpick, ?_, ?_, ?_, ?_, h.nodup, ?_, ?_⟩
  · intro b
    show b ∈ (⟨a, c.blockSize.toNat⟩ : Block) :: s.heap.live ↔ _
    rw [mem_cons, h.blocks]
    simp
  · intro p hp
    rcases mem_cons.mp hp with rfl | hmem
    · show c.Made p (Function.update s.node p _ p)
      rw [update_self]
      exact ⟨rfl, by rw [← flagsAt_le]; rfl, rfl, rfl⟩
    · show c.Made p (Function.update s.node a _ p)
      rw [update_of_ne (by rintro rfl; exact hout hmem)]
      exact h.made p hmem
  · intro p hp
    rcases mem_cons.mp hp with rfl | hmem
    · show (Function.update s.node p _ p).allocatedNum.toNat =
        (c.used mem p).card
      rw [update_self, hzero]
      rfl
    · show (Function.update s.node a _ p).allocatedNum.toNat =
        (c.used mem p).card
      rw [update_of_ne (by rintro rfl; exact hout hmem), hused p hmem]
      exact h.count p hmem
  · intro p hp
    rcases mem_cons.mp hp with rfl | hmem
    · exact rest_zero hclear
    · exact rest_congr (hflags p hmem) (h.rest p hmem)
  · intro q
    show q ∈ live ↔ ∃ p ∈ a :: ps, ∃ k ∈ c.used mem p, q = c.item p k
    rw [h.live, exists_mem_cons_iff, hzero]
    constructor
    · rintro ⟨p, hp, k, hk, rfl⟩
      exact .inr ⟨p, hp, k, (hused p hp).symm ▸ hk, rfl⟩
    · rintro (⟨k, hk, -⟩ | ⟨p, hp, k, hk, rfl⟩)
      · exact absurd hk (Finset.notMem_empty k)
      · exact ⟨p, hp, k, hused p hp ▸ hk, rfl⟩
  · show s.curPoolNum + 1 = UInt16.ofNat (ps.length + 1)
    rw [h.num, UInt16.ofNat_add]
    rfl

end Inv

/-! ### Taking and giving back -/

/-- The walk of `vsf_dynpool_alloc` finds the first pool that has room. -/
theorem roomLoop_spec : ∀ {f : ℕ} {head : Option ℕ} {ps : List ℕ}, Chain s.next head ps → ps.length ≤ f →
    s.roomLoop c f head = some (ps.find? fun p => (s.node p).allocatedNum < c.poolSize.toUInt32)
  | f, _, [], h, _ => by
    obtain rfl := chain_nil.mp h
    cases f <;> rfl
  | f + 1, _, p :: ps, h, hf => by
    obtain ⟨rfl, hnext⟩ := chain_cons.mp h
    rw [roomLoop]
    split_ifs with hroom
    · rw [find?_cons_of_pos (by simpa using hroom)]
    · rw [find?_cons_of_neg (by simpa using hroom)]
      exact roomLoop_spec hnext (Nat.le_of_succ_le_succ hf)

/-- The walk of `vsf_dynpool_free` passes the pools that do not take the item. -/
theorem freeLoop_pass (now : UInt32) (q : ℕ) {f : ℕ} {head : Option ℕ} {as bs : List ℕ} (h : Chain s.next head (as ++ p :: bs))
    (hf : (as ++ p :: bs).length ≤ f) (hother : ∀ x ∈ as, (s.node x).free s.mem q = (s.mem, false)) :
    ∃ f', s.freeLoop c now q f head = s.freeLoop c now q (f' + 1) (some p) := by
  induction as generalizing f head with
  | nil =>
    obtain ⟨rfl, -⟩ := chain_cons.mp h
    cases f with
    | zero => simp at hf
    | succ f => exact ⟨f, rfl⟩
  | cons a as ih =>
    obtain ⟨rfl, hnext⟩ := chain_cons.mp h
    obtain ⟨ha, has⟩ := forall_mem_cons.mp hother
    cases f with
    | zero => simp at hf
    | succ f =>
      obtain ⟨f', hpass⟩ := ih hnext (Nat.le_of_succ_le_succ hf) has
      refine ⟨f', ?_⟩
      rw [freeLoop, ha]
      exact hpass

/-- All pools are full. -/
def Config.Full (c : Config) (s : Dynpool) (ps : List ℕ) : Prop := ∀ p ∈ ps, ¬(s.node p).allocatedNum < c.poolSize.toUInt32

/-- The pool at `p` after its item `k` came back, before it is looked at again. -/
def Config.giveBack (c : Config) (s : Dynpool) (p k : ℕ) : Dynpool :=
  { s with
    mem := mskarrClr s.mem (c.flagsAt p) k
    node := Function.update s.node p { s.node p with allocatedNum := (s.node p).allocatedNum - 1 } }

namespace Inv

/-- **A pool that has room gives an item.** -/
theorem take_spec (h : Inv c s live ps) (hfits : c.Fits) (hp : p ∈ ps) (hroom : (s.node p).allocatedNum < c.poolSize.toUInt32) :
    ∃ q, (s.take p).1 = some q ∧ q ∉ live ∧ Inv c (s.take p).2 (q :: live) ps := by
  have hcard : (c.used s.mem p).card < c.poolSize.toNat := by
    rwa [← h.count p hp, ← UInt16.toNat_toUInt32, ← lt_iff_toNat_lt]
  obtain ⟨k, hk, hnot, halloc⟩ := (h.made p hp).alloc hfits (h.space hp).2 hcard
  obtain ⟨hfresh, hinv⟩ := h.take hfits hp hk hnot
  unfold Dynpool.take
  rw [halloc]
  exact ⟨c.item p k, rfl, hfresh, hinv⟩

/-- **What an allocation does**: an item of a pool with room, or of a new one when all are full, or nothing. -/
theorem alloc_spec (h : Inv c s live ps) (hfits : c.Fits) : ∃ r s', s.alloc c A = some (r, s') ∧
    (s'.stale = s.stale ∧ s'.heap.strays = s.heap.strays) ∧
    (¬c.Full s ps ∧ (∃ q, r = some q ∧ q ∉ live ∧ Inv c s' (q :: live) ps) ∨
      c.Full s ps ∧ (∃ a q, (s.heap.malloc A c.blockSize.toNat).1 = some a ∧ r = some q ∧ q ∉ live ∧ Inv c s' (q :: live) (a :: ps)) ∨
      c.Full s ps ∧ r = none ∧ Inv c s' live ps ∧ (c.poolNum = 0 → (s.heap.malloc A c.blockSize.toNat).1 = none)) := by
  unfold Dynpool.alloc
  rw [roomLoop_spec h.chain h.length_le]
  cases hfind : ps.find? fun p => (s.node p).allocatedNum < c.poolSize.toUInt32 with
  | some p =>
    have hroom : (s.node p).allocatedNum < c.poolSize.toUInt32 := by simpa using find?_some hfind
    have hp := mem_of_find?_eq_some hfind
    obtain ⟨q, hq, hfresh, hinv⟩ := h.take_spec hfits hp hroom
    exact ⟨_, _, rfl, ⟨rfl, rfl⟩, .inl ⟨fun hfull => hfull p hp hroom, q, hq, hfresh, hinv⟩⟩
  | none =>
    have hfull : c.Full s ps := by simpa [Config.Full] using find?_eq_none.mp hfind
    by_cases hnum : c.poolNum = 0 ∨ c.poolNum < s.curPoolNum
    · rcases Heap.malloc_cases A c.blockSize.toNat s.heap with ⟨a, h1, hpos, hpick, h2⟩ | ⟨h1, h2⟩
      · have hmalloc : s.heap.malloc A c.blockSize.toNat = (some a, _) := Prod.ext h1 h2
        have hlink := h.link hfits hpick
        obtain ⟨q, hq, hfresh, hinv⟩ := hlink.take_spec hfits mem_cons_self (by
          show (Function.update s.node a _ a).allocatedNum < _
          rw [update_self, lt_iff_toNat_lt, UInt16.toNat_toUInt32]
          exact hfits.size)
        refine ⟨some q, _, ?_, ⟨?_, ?_⟩, .inr (.inl ⟨hfull, a, q, h1, rfl, hfresh, hinv⟩)⟩
        · dsimp only [map_some]
          rw [if_pos hnum, hmalloc]
          exact congrArg some (Prod.ext hq rfl)
        · rfl
        · rfl
      · have hmalloc : s.heap.malloc A c.blockSize.toNat = (none, _) := Prod.ext h1 h2
        refine ⟨none, { s with heap := { s.heap with calls := s.heap.calls + 1 } }, ?_, ⟨rfl, rfl⟩, .inr (.inr ⟨hfull, rfl, ?_, fun _ => h1⟩)⟩
        · dsimp only [map_some]
          rw [if_pos hnum, hmalloc]
        · exact ⟨h.chain, ⟨h.ok.inside, h.ok.apart⟩, h.blocks, h.made, h.count, h.rest, h.nodup, h.live, h.num⟩
    · refine ⟨none, s, ?_, ⟨rfl, rfl⟩, .inr (.inr ⟨hfull, rfl, h, fun hzero => absurd (.inl hzero) hnum⟩)⟩
      dsimp only [map_some]
      rw [if_neg hnum]

/-- **What giving back an item does**, up to the look at the number of the pool. -/
theorem free_spec (h : Inv c s live ps) (hfits : c.Fits) (now : UInt32) (hp : p ∈ ps) (hk : k ∈ c.used s.mem p) :
    Inv c (c.giveBack s p k) (live.erase (c.item p k)) ps ∧ s.free c now (c.item p k) =
      if c.gcEn ∧ ((c.giveBack s p k).node p).allocatedNum = 0 then ((c.giveBack s p k).gcHit c now p).map fun s => (true, s)
      else some (true, c.giveBack s p k) := by
  refine ⟨h.freed hfits hp hk, ?_⟩
  have hitem := hfits.item_inside (p := p) (used_lt hk)
  have hpos := hfits.stride
  have hspace := (h.space hp).2
  have hlt : c.item p k < 2 ^ 32 := by omega
  obtain ⟨as, bs, rfl⟩ := append_of_mem hp
  have hother : ∀ x ∈ as, (s.node x).free s.mem (c.item p k) = (s.mem, false) := by
    intro x hx
    have hmem : x ∈ as ++ p :: bs := mem_append_left _ hx
    have hne : x ≠ p := by
      rintro rfl
      exact (nodup_append.mp h.chain.nodup).2.2 x hx x mem_cons_self rfl
    refine (h.made x hmem).free_other hfits (h.space hmem).2 hlt ?_
    rcases h.apart hmem hp hne with hle | hle <;> omega
  obtain ⟨f, hpass⟩ := freeLoop_pass (c := c) now (c.item p k) h.chain h.length_le hother
  rw [free, hpass, freeLoop, (h.made p hp).free_own hfits hspace (used_lt hk)]
  have hnum : ((c.giveBack s p k).node p).allocatedNum = (s.node p).allocatedNum - 1 := by
    simp [Config.giveBack]
  rw [hnum]
  rfl

end Inv
/-! ### Runs without garbage collection -/

/-- The set bits of the `mskarr` of the pool at `p`. -/
def Config.setFlags (c : Config) (m : Mem) (p : ℕ) : Finset ℕ :=
  (Finset.range (32 * c.mskarrNum.toNat)).filter fun k => flag m (c.flagsAt p) k = true

/-- Only the pool at `p` is different. -/
structure Only (c : Config) (s s' : Dynpool) (p : ℕ) : Prop where
  head : s'.head = s.head
  next : s'.next = s.next
  num : s'.curPoolNum = s.curPoolNum
  heap : s'.heap = s.heap
  node : ∀ x, x ≠ p → s'.node x = s.node x
  mem : ∀ a, a < p ∨ p + c.blockSize.toNat ≤ a → s'.mem a = s.mem a

/-- The pools `ps` are those linked, their numbers right, now and after the next call. -/
structure Right (c : Config) (A : Allocator) (u : DynpoolUse) (ps : List ℕ) : Prop where
  linked : Chain u.pool.next u.pool.head ps
  num : u.pool.curPoolNum.toNat = ps.length
  flags : ∀ p ∈ ps, (u.pool.node p).allocatedNum.toNat = (c.setFlags u.pool.mem p).card
  items : ∀ p ∈ ps, (u.pool.node p).allocatedNum.toNat = (u.live.filter fun q => p ≤ q ∧ q < p + c.blockSize.toNat).length
  size : c.itemSize.toNat ≤ c.stride.toNat
  inside : ∀ q ∈ u.live, ∃ p ∈ ps, ⟨p, c.blockSize.toNat⟩ ∈ u.pool.heap.live ∧ p < q ∧ q + c.stride.toNat ≤ p + c.blockSize.toNat
  apart : u.live.Pairwise fun q q' => q + c.stride.toNat ≤ q' ∨ q' + c.stride.toNat ≤ q
  alloc : ∃ r s', u.pool.alloc c A = some (r, s') ∧ (r = none →
    (∀ p ∈ ps, (u.pool.node p).allocatedNum = c.poolSize.toUInt32) ∧ (u.pool.heap.malloc A c.blockSize.toNat).1 = none)
  free : ∀ now, ∀ q ∈ u.live, ∃ s', u.pool.free c now q = some (true, s') ∧
    ∃ p ∈ ps, p < q ∧ q + c.stride.toNat ≤ p + c.blockSize.toNat ∧ Only c u.pool s' p

theorem setFlags_eq (h : c.Rest m p) : c.setFlags m p = c.used m p := by
  have hwords := le_words c
  ext k
  rw [Config.setFlags, Finset.mem_filter, Finset.mem_range, mem_used]
  constructor
  · rintro ⟨hk, hflag⟩
    refine ⟨?_, hflag⟩
    by_contra hge
    rw [h k (by omega) hk] at hflag
    cases hflag
  · rintro ⟨hk, hflag⟩
    exact ⟨by omega, hflag⟩

namespace Inv

theorem live_inside (h : Inv c s live ps) (hfits : c.Fits) (hq : q ∈ live) :
    ∃ p ∈ ps, ∃ k ∈ c.used s.mem p, q = c.item p k ∧ p < q ∧ q + c.stride.toNat ≤ p + c.blockSize.toNat := by
  obtain ⟨p, hp, k, hk, rfl⟩ := (h.live q).mp hq
  exact ⟨p, hp, k, hk, rfl, hfits.item_inside (used_lt hk)⟩

theorem items (h : Inv c s live ps) (hfits : c.Fits) (hp : p ∈ ps) :
    (live.filter fun q => p ≤ q ∧ q < p + c.blockSize.toNat).length = (c.used s.mem p).card := by
  have himage : (live.filter fun q => p ≤ q ∧ q < p + c.blockSize.toNat).toFinset = (c.used s.mem p).image (c.item p) := by
    have hpos := hfits.stride
    ext q
    simp only [List.mem_toFinset, mem_filter, decide_eq_true_eq, Finset.mem_image]
    constructor
    · rintro ⟨hq, hlo, hhi⟩
      obtain ⟨p', hp', k, hk, rfl, hin⟩ := h.live_inside hfits hq
      obtain rfl : p' = p := by
        by_contra hne
        rcases h.apart hp' hp hne with hle | hle <;> omega
      exact ⟨k, hk, rfl⟩
    · rintro ⟨k, hk, rfl⟩
      have hin := hfits.item_inside (p := p) (used_lt hk)
      exact ⟨(h.live _).mpr ⟨p, hp, k, hk, rfl⟩, by omega⟩
  calc (live.filter fun q => p ≤ q ∧ q < p + c.blockSize.toNat).length
      = (live.filter fun q => p ≤ q ∧ q < p + c.blockSize.toNat).toFinset.card :=
        (toFinset_card_of_nodup (h.nodup.filter _)).symm
    _ = ((c.used s.mem p).image (c.item p)).card := by rw [himage]
    _ = (c.used s.mem p).card := Finset.card_image_of_injective _ fun j k => hfits.item_inj

theorem items_apart (h : Inv c s live ps) (hfits : c.Fits) :
    live.Pairwise fun q q' => q + c.stride.toNat ≤ q' ∨ q' + c.stride.toNat ≤ q := by
  refine h.nodup.imp_of_mem ?_
  intro q q' hq hq' hne
  obtain ⟨p, hp, k, hk, rfl, hin⟩ := h.live_inside hfits hq
  obtain ⟨p', hp', j, hj, rfl, hin'⟩ := h.live_inside hfits hq'
  by_cases heq : p = p'
  · subst heq
    exact item_apart fun hkj => hne (by rw [hkj])
  · rcases h.apart hp hp' heq with hle | hle
    · exact .inl (by omega)
    · exact .inr (by omega)

theorem giveBack_only (hfits : c.Fits) (hk : k ∈ c.used s.mem p) : Only c s (c.giveBack s p k) p :=
  ⟨rfl, rfl, rfl, rfl, fun _ hne => update_of_ne hne _ _, flag_word hfits (used_lt hk) same_mskarrClr⟩

/-- **What the numbers and flags say.** -/
theorem right {u : DynpoolUse} (h : Inv c u.pool u.live ps) (hfits : c.Fits) (hgc : c.gcEn = false) (hnum : c.poolNum = 0)
    (hlen : ps.length < 2 ^ 16) : Right c A u ps := by
  refine ⟨h.chain, ?_, ?_, ?_, hfits.itemSize_le, ?_, h.items_apart hfits, ?_, ?_⟩
  · rw [h.num, UInt16.toNat_ofNat', Nat.mod_eq_of_lt hlen]
  · intro p hp
    rw [setFlags_eq (h.rest p hp)]
    exact h.count p hp
  · intro p hp
    rw [h.items hfits hp]
    exact h.count p hp
  · intro q hq
    obtain ⟨p, hp, -, -, -, hin⟩ := h.live_inside hfits hq
    exact ⟨p, hp, h.block hp, hin⟩
  · obtain ⟨r, s', halloc, -, ⟨-, q, rfl, -⟩ | ⟨-, a, q, -, rfl, -⟩ | ⟨hfull, rfl, -, hfail⟩⟩ := h.alloc_spec hfits (A := A)
    · exact ⟨_, _, halloc, nofun⟩
    · exact ⟨_, _, halloc, nofun⟩
    · refine ⟨_, _, halloc, fun _ => ⟨fun p hp => ?_, hfail hnum⟩⟩
      have hge := hfull p hp
      have hle := h.allocated_le hp
      rw [lt_iff_toNat_lt, UInt16.toNat_toUInt32] at hge
      apply UInt32.toNat_inj.mp
      rw [UInt16.toNat_toUInt32]
      omega
  · intro now q hq
    obtain ⟨p, hp, k, hk, rfl, hin⟩ := h.live_inside hfits hq
    obtain ⟨-, hfree⟩ := h.free_spec hfits now hp hk
    rw [hgc, if_neg (fun hand => Bool.false_ne_true hand.1)] at hfree
    exact ⟨_, hfree, p, hp, hin.1, hin.2, giveBack_only hfits hk⟩

/-- **A step without garbage collection.** Only an allocation links a pool. -/
theorem exec {u u' : DynpoolUse} {op : DynpoolUse.Op} (h : Inv c u.pool u.live ps) (hfits : c.Fits) (hgc : c.gcEn = false)
    (hl : u.Legal c op) (he : u.exec c A op = some u') : ∃ ps', Inv c u'.pool u'.live ps' ∧ (ps' = ps ∨
      op = .alloc ∧ c.Full u.pool ps ∧ ∃ a, (u.pool.heap.malloc A c.blockSize.toNat).1 = some a ∧ ps' = a :: ps) := by
  cases op with
  | alloc =>
    obtain ⟨r, s', halloc, -, hcases⟩ := h.alloc_spec hfits (A := A)
    rw [DynpoolUse.exec, halloc] at he
    obtain rfl := some.inj he
    rcases hcases with ⟨-, q, rfl, -, hinv⟩ | ⟨hfull, a, q, ha, rfl, -, hinv⟩ | ⟨-, rfl, hinv, -⟩
    · exact ⟨ps, hinv, .inl rfl⟩
    · exact ⟨a :: ps, hinv, .inr ⟨rfl, hfull, a, ha, rfl⟩⟩
    · exact ⟨ps, hinv, .inl rfl⟩
  | free now q =>
    obtain ⟨p, hp, k, hk, rfl, -⟩ := h.live_inside hfits hl
    obtain ⟨hinv, hfree⟩ := h.free_spec hfits now hp hk
    rw [hgc, if_neg (fun hand => Bool.false_ne_true hand.1)] at hfree
    rw [DynpoolUse.exec, hfree] at he
    obtain rfl := some.inj he
    exact ⟨ps, hinv, .inl rfl⟩
  | use q a v =>
    obtain rfl := some.inj he
    exact ⟨ps, h.use hfits hl.1 hl.2 v, .inl rfl⟩
  | tick now =>
    rw [DynpoolUse.Legal, hgc] at hl
    cases hl.1

theorem init (m : Mem) (node : ℕ → PoolNode) (next : ℕ → Option ℕ) : Inv c (Dynpool.init m node next) [] [] := by
  refine ⟨chain_nil.mpr rfl, Heap.Ok.empty, ?_, nofun, nofun, nofun, nodup_nil, ?_, rfl⟩
  · simp [Dynpool.init, Heap.empty]
  · simp

end Inv

/-- No pool is made after the 65535th. -/
def Below (c : Config) (A : Allocator) (u : DynpoolUse) (op : DynpoolUse.Op) : Prop :=
  ∀ ps, op = .alloc → Chain u.pool.next u.pool.head ps → ps.length = 65535 → c.Full u.pool ps →
    (u.pool.heap.malloc A c.blockSize.toNat).1 = none

/-- **Numbers, flags and blocks agree** in every run, as long as a block is as long as its parts and the
pools' number fits in 16 bits. -/
theorem dynpool_right (hgc : c.gcEn = false) (hnum : c.poolNum = 0) (hfits : c.Fits) {u : DynpoolUse}
    (hr : ((DynpoolUse.system c A).restrict (Below c A)).Reach u) : ∃ ps, Right c A u ps := by
  have hinv : ∃ ps, Inv c u.pool u.live ps ∧ ps.length < 2 ^ 16 := by
    refine hr.invariant (P := fun u => ∃ ps, Inv c u.pool u.live ps ∧ ps.length < 2 ^ 16) ?_ ?_
    · rintro _ ⟨m, node, next, rfl⟩
      exact ⟨[], Inv.init m node next, by decide⟩
    · rintro u op u' - ⟨ps, h, hlen⟩ ⟨hbelow, hl, he⟩
      obtain ⟨ps', hinv, rfl | ⟨hop, hfull, a, ha, rfl⟩⟩ := h.exec hfits hgc hl he
      · exact ⟨_, hinv, hlen⟩
      · refine ⟨_, hinv, ?_⟩
        have hne : ps.length ≠ 65535 := by
          intro hlast
          have hfail := hbelow ps hop h.chain hlast hfull
          rw [ha] at hfail
          cases hfail
        rw [length_cons]
        omega
  obtain ⟨ps, h, hlen⟩ := hinv
  exact ⟨ps, h.right hfits hgc hnum hlen⟩

/-- No pools, and no zeros in the memory. -/
def fresh : DynpoolUse := ⟨Dynpool.init (fun _ => 0xFF) (fun _ => ⟨0, 0, 0, 0, 0, 0⟩) fun _ => none, []⟩

theorem below_of_chain (ps : List ℕ) {u : DynpoolUse} {op : DynpoolUse.Op} (h : Chain u.pool.next u.pool.head ps) (hlt : ps.length < 65535) :
    Below c A u op :=
  fun _ _ hchain hlen => absurd (hchain.unique h ▸ hlen) (by omega)

/-- Three items, of two pools of two, and one is given back. -/
theorem dynpool_right_pair : ∃ u ps, [.alloc, .alloc, .alloc, .free 0 0x101C].foldlM
      (fun u op => DynpoolUse.exec ⟨false, 6, 2, 0, 0⟩ (.placed fun n => 0x1000 * (n + 1)) u op) fresh = some u ∧
    u.live = [0x201C, 0x1024] ∧ Right ⟨false, 6, 2, 0, 0⟩ (.placed fun n => 0x1000 * (n + 1)) u ps := by
  let c : Config := ⟨false, 6, 2, 0, 0⟩
  let A : Allocator := .placed fun n => 0x1000 * (n + 1)
  have h : ((fresh.exec c A .alloc).bind fun u1 => (u1.exec c A .alloc).bind fun u2 => (u2.exec c A .alloc).bind fun u3 =>
      (u3.exec c A (.free 0 0x101C)).map fun u4 => ([u1, u2].map fun u => (u.pool.head, u.pool.next 0x1000), u3.live, u4.live)) =
        some ([(some 0x1000, none), (some 0x1000, none)], [0x201C, 0x1024, 0x101C], [0x201C, 0x1024]) := by
    decide +kernel
  obtain ⟨u1, h1, h⟩ := Option.bind_eq_some_iff.mp h
  obtain ⟨u2, h2, h⟩ := Option.bind_eq_some_iff.mp h
  obtain ⟨u3, h3, h⟩ := Option.bind_eq_some_iff.mp h
  obtain ⟨u4, h4, h⟩ := Option.map_eq_some_iff.mp h
  simp only [map_cons, map_nil, Prod.mk.injEq, List.cons.injEq, and_true] at h
  obtain ⟨⟨hchain1, hchain2⟩, hlive3, hlive4⟩ := h
  have hreach1 : ((DynpoolUse.system c A).restrict (Below c A)).Reach u1 :=
    .step (i := .alloc) (.start ⟨_, _, _, rfl⟩) ⟨below_of_chain [] rfl (by decide), trivial, h1⟩
  have hreach2 := hreach1.step (i := DynpoolUse.Op.alloc) ⟨below_of_chain [0x1000] hchain1 (by decide), trivial, h2⟩
  have hreach3 := hreach2.step (i := DynpoolUse.Op.alloc) ⟨below_of_chain [0x1000] hchain2 (by decide), trivial, h3⟩
  have hlegal : u3.Legal c (.free 0 0x101C) := by
    show 0x101C ∈ u3.live
    rw [hlive3]
    decide
  have hreach4 := hreach3.step (i := DynpoolUse.Op.free 0 0x101C) ⟨nofun, hlegal, h4⟩
  obtain ⟨ps, hright⟩ := dynpool_right rfl rfl ⟨by decide, by decide, by decide⟩ hreach4
  have hrun : [.alloc, .alloc, .alloc, .free 0 0x101C].foldlM (fun u op => DynpoolUse.exec c A u op) fresh = some u4 := by
    simp [h1, h2, h3, h4]
  exact ⟨u4, ps, hrun, hlive4, hright⟩

/-- Two items of 2 GiB: the block holds its header and flags, the item is behind it. -/
theorem item_behind : ¬∀ (c : Config) (A : Allocator) (u : DynpoolUse), c.gcEn = false → c.poolNum = 0 → 1 ≤ c.poolSize.toNat →
    (DynpoolUse.system c A).Reach u → ∃ ps, Right c A u ps := by
  intro hall
  obtain ⟨u, hu⟩ : ∃ u, fresh.exec ⟨false, 0x80000000, 2, 0, 0⟩ (.placed fun _ => 0x1000) .alloc = some u := ⟨_, rfl⟩
  have hlive : u.live = [0x101C] ∧ u.pool.heap.live = [⟨0x1000, 28⟩] := by
    have h : (fresh.exec ⟨false, 0x80000000, 2, 0, 0⟩ (.placed fun _ => 0x1000) .alloc).map
        (fun u => (u.live, u.pool.heap.live)) = some ([0x101C], [⟨0x1000, 28⟩]) := by
      decide +kernel
    rw [hu] at h
    exact Prod.ext_iff.mp (some.inj h)
  have hlegal : fresh.Legal ⟨false, 0x80000000, 2, 0, 0⟩ .alloc := trivial
  obtain ⟨ps, hright⟩ := hall ⟨false, 0x80000000, 2, 0, 0⟩ _ u rfl rfl (by decide) (.step (.start ⟨_, _, _, rfl⟩) ⟨hlegal, hu⟩)
  obtain ⟨p, -, hblock, -, hend⟩ := hright.inside 0x101C (by rw [hlive.1]; exact mem_singleton_self _)
  rw [hlive.2, mem_singleton, Block.mk.injEq] at hblock
  rw [hblock.1, hblock.2] at hend
  revert hend
  decide

end Dynpool
end Vsf
