/-
# Pools with a limit

`vsf_dynpool_alloc` compares `pool_num` with the number of the pools the wrong way round. There are
none at first, so where there is a limit there never is a pool, and no item (`DynpoolUse.Idle`).
-/
import Mathlib
import Vsf.Tool.Dynpool

namespace Vsf

open Dynpool Malloc Option

namespace DynpoolUse

/-- There is no pool and no item, and memory was never asked for. -/
structure Idle (u : DynpoolUse) : Prop where
  head : u.pool.head = none
  num : u.pool.curPoolNum = 0
  heap : u.pool.heap = Heap.empty
  live : u.live = []

/-- The allocator does not fail for a pool, in any state that is reached. -/
def Serves (c : Config) (A : Allocator) : Prop :=
  ∀ u, (DynpoolUse.system c A).Reach u → (u.pool.heap.malloc A c.blockSize.toNat).1 ≠ none

/-- The limit is kept, and an item can be had while fewer than the pools have are live. -/
def Bounded (c : Config) (A : Allocator) : Prop :=
  ∀ u, (DynpoolUse.system c A).Reach u → u.pool.curPoolNum.toNat ≤ c.poolNum.toNat ∧
    (u.live.length < c.poolNum.toNat * c.poolSize.toNat → ∃ q s, u.pool.alloc c A = some (some q, s))

variable {c : Config} {A : Allocator} {u u' : DynpoolUse} {op : Op}

theorem Idle.alloc (h : u.Idle) (hnum : 0 < c.poolNum.toNat) : u.pool.alloc c A = some (none, u.pool) := by
  have hroom : u.pool.roomLoop c walkFuel u.pool.head = some none := by
    rw [h.head, roomLoop]
  have hlimit : ¬(c.poolNum = 0 ∨ c.poolNum < u.pool.curPoolNum) := by
    rw [h.num]
    rintro (hzero | hlt)
    · rw [hzero] at hnum
      exact absurd hnum (lt_irrefl 0)
    · exact absurd (UInt16.lt_iff_toNat_lt.mp hlt) (Nat.not_lt_zero _)
  rw [Dynpool.alloc, hroom, map_some]
  dsimp only
  rw [if_neg hlimit]

/-- **It stays like that.** Nothing is live, so nothing is given back or written to. -/
theorem Idle.exec (h : u.Idle) (hnum : 0 < c.poolNum.toNat) (hl : u.Legal c op) (he : u.exec c A op = some u') : u'.Idle := by
  cases op with
  | alloc =>
    rw [DynpoolUse.exec, h.alloc hnum] at he
    obtain rfl := some.inj he
    exact ⟨h.head, h.num, h.heap, h.live⟩
  | free now q =>
    have hq : q ∈ u.live := hl
    rw [h.live] at hq
    cases hq
  | use q a v =>
    have hq : q ∈ u.live := hl.1
    rw [h.live] at hq
    cases hq
  | tick now =>
    have htick : u.pool.tick c now = some u.pool := by
      rw [Dynpool.tick, h.head, tickLoop]
    rw [DynpoolUse.exec, htick] at he
    obtain rfl := some.inj he
    exact ⟨h.head, h.num, h.heap, h.live⟩

/-- **Where there is a limit** there never is a pool. -/
theorem idle_reach (hnum : 0 < c.poolNum.toNat) (hr : (DynpoolUse.system c A).Reach u) : u.Idle := by
  refine hr.invariant (P := Idle) ?_ ?_
  · rintro _ ⟨m, node, next, rfl⟩
    exact ⟨rfl, rfl, rfl, rfl⟩
  · rintro u op u' - h ⟨hl, he⟩
    exact h.exec hnum hl he

/-- An allocator that has a block for the first pool does not fail. -/
theorem serves_of_empty (hnum : 0 < c.poolNum.toNat) (h : (Heap.empty.malloc A c.blockSize.toNat).1 ≠ none) : Serves c A := by
  intro u hr
  rw [(idle_reach hnum hr).heap]
  exact h

/-- **Pools with a limit** keep it and have their items just when a pool is of none, whatever the allocator
does. -/
theorem bounded_iff (c : Config) (A : Allocator) (hnum : 0 < c.poolNum.toNat) : Bounded c A ↔ c.poolSize.toNat = 0 := by
  constructor
  · intro hb
    by_contra hsize
    -- nothing is live at the start
    have hstart : (DynpoolUse.system c A).Reach fresh := .start ⟨_, _, _, rfl⟩
    have hidle := idle_reach hnum hstart
    have hroom : fresh.live.length < c.poolNum.toNat * c.poolSize.toNat := by
      rw [hidle.live]
      exact mul_pos hnum (pos_of_ne_zero hsize)
    obtain ⟨q, s, halloc⟩ := (hb fresh hstart).2 hroom
    rw [hidle.alloc hnum] at halloc
    cases halloc
  · intro hsize u hr
    refine ⟨?_, fun hlt => ?_⟩
    · rw [(idle_reach hnum hr).num]
      exact Nat.zero_le _
    · rw [hsize] at hlt
      exact absurd hlt (Nat.not_lt_zero _)

theorem bounded_one_iff : Bounded ⟨false, 4, 2, 1, 0⟩ (.placed fun _ => 0x1000) ↔ (2 : UInt16).toNat = 0 :=
  bounded_iff ⟨false, 4, 2, 1, 0⟩ (.placed fun _ => 0x1000) (by decide)

/-- None of them can be had, though there is memory for it. -/
theorem bounded_none : ¬∀ (c : Config) (A : Allocator), 0 < c.poolNum.toNat → Serves c A → Bounded c A := by
  intro hall
  have hnum : 0 < (Config.poolNum ⟨false, 4, 2, 1, 0⟩).toNat := by decide
  have hserves : Serves ⟨false, 4, 2, 1, 0⟩ (.placed fun _ => 0x1000) := serves_of_empty hnum (by decide +kernel)
  have hstart : (DynpoolUse.system ⟨false, 4, 2, 1, 0⟩ (.placed fun _ => 0x1000)).Reach fresh := .start ⟨_, _, _, rfl⟩
  obtain ⟨q, s, halloc⟩ := (hall _ _ hnum hserves fresh hstart).2 (by decide)
  rw [(idle_reach hnum hstart).alloc hnum] at halloc
  cases halloc

end DynpoolUse
end Vsf
