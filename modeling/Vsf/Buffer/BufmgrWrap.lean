/-
# Sizes near 2³²

`vsf_bufmgr_malloc_aligned` rounds the size up and adds the offset to the aligned address in 32
bits: a sum that wraps is small, and passes. As long as the first block that passes does so without
a wrap, the result has the bytes that were asked for (`malloc_sized`).
-/
import Mathlib
import Vsf.Buffer.BufmgrRuns

namespace Vsf
namespace Bufmgr

open ByteMem Option

/-- A request takes a block that is large enough; the rest is as in `legal`. -/
def fitting (r : Region) (s : State) : Op → Prop
  | .malloc size align => ∀ fs, blocks r s.mem .freed = some fs → FirstFits s.mem fs size align
  | .free ptr => legal r s (.free ptr)
  | .write addr v => legal r s (.write addr v)

/-- The runs in which every request takes such a block, or none. -/
def fitSystem (r : Region) : System State Op where
  start := (system r).start
  step s op s' := fitting r s op ∧ step r s op = some s'

/-- `NULL`, or an address with `size` bytes in one allocated block; the heap is still one. -/
def Sized (r : Region) (s : State) (size align : UInt32) : Prop :=
  ∃ m p, mallocAligned r s.mem size align = some (m, p) ∧ (p = 0 ∧ m = s.mem ∨ p ≠ 0 ∧ ∃ ts ls,
    Inv r ⟨m, s.live ++ [⟨p, size.toNat, align.toNat⟩]⟩ ts ls ∧
      Served ⟨m, s.live ++ [⟨p, size.toNat, align.toNat⟩]⟩ (ls .allocated) ⟨p, size.toNat, align.toNat⟩)

variable {r : Region} {s : State} {ts : List Tile} {ls : Lst → List ℕ}

theorem fitting_inv (h : Inv r s ts ls) {op : Op} (hl : fitting r s op) :
    ∃ s' ts' ls', step r s op = some s' ∧ Inv r s' ts' ls' := by
  cases op with
  | malloc size align =>
    obtain ⟨s', ts', ls', hstep, hinv, -⟩ := malloc_inv h (hl _ (h.heap.blocks_eq .freed))
    exact ⟨s', ts', ls', hstep, hinv⟩
  | free ptr => exact step_inv h hl
  | write addr v => exact step_inv h hl

theorem fit_reach_inv (hr : (fitSystem r).Reach s) : ∃ ts ls, Inv r s ts ls := by
  refine hr.invariant (fun s ⟨m, hs⟩ => hs ▸ init_inv r m) ?_
  rintro s op s' - ⟨ts, ls, h⟩ ⟨hl, hstep⟩
  obtain ⟨s'', ts', ls', hstep', h'⟩ := fitting_inv h hl
  obtain rfl : s' = s'' := some.inj (hstep.symm.trans hstep')
  exact ⟨ts', ls', h'⟩

/-- **The result has the size** asked for, where the block taken has. -/
theorem malloc_sized (hr : (fitSystem r).Reach s) {size align : UInt32} (hl : fitting r s (.malloc size align)) :
    Sized r s size align := by
  obtain ⟨ts, ls, h⟩ := fit_reach_inv hr
  have hfits := hl _ (h.heap.blocks_eq .freed)
  rcases malloc_spec h.heap hfits with hnull | ⟨m', -, -, -, -, -, -, a, hres, hptr, hsize, halign, -, -, -, -⟩
  · exact ⟨s.mem, 0, hnull, .inl ⟨rfl, rfl⟩⟩
  · refine ⟨m', a.ptr, hres, .inr ⟨hptr, ?_⟩⟩
    obtain ⟨s', ts', ls', hstep, hinv, -⟩ := malloc_inv h hfits
    have hs' : (⟨m', s.live ++ [⟨a.ptr, size.toNat, align.toNat⟩]⟩ : State) = s' := by
      apply some.inj
      rw [← hstep, step]
      dsimp only
      rw [hres, bind_eq_bind, bind_some, if_neg hptr]
    refine ⟨ts', ls', hs' ▸ hinv, ?_⟩
    subst hs'
    exact hinv.served (List.mem_append_right _ (List.mem_singleton.mpr rfl))

theorem malloc_sized_twenty : Sized exampleRegion exampleStart 20 32 := by
  refine malloc_sized (.start ⟨fun _ => 0, rfl⟩) fun fs hfs => ?_
  obtain rfl : initLists exampleRegion .freed = fs :=
    some.inj (((init_heap exampleRegion fun _ => 0).blocks_eq .freed).symm.trans hfs)
  refine NoWrap.firstFits ?_
  decide +kernel

/-- **A result that is too small**: 2³² - 3 bytes are rounded up to none. -/
theorem malloc_wraps : ¬∀ (r : Region) (s : State), (fitSystem r).Reach s → ∀ size align, Sized r s size align := by
  intro hall
  have hptr : (mallocAligned exampleRegion exampleStart.mem 0xFFFFFFFD 4).map Prod.snd = some 0x100C := by
    decide +kernel
  obtain ⟨m, p, hres, hcases⟩ := hall exampleRegion exampleStart (.start ⟨fun _ => 0, rfl⟩) 0xFFFFFFFD 4
  rw [hres] at hptr
  obtain rfl : p = 0x100C := some.inj hptr
  rcases hcases with ⟨hzero, -⟩ | ⟨-, ts, ls, hinv, -⟩
  · cases hzero
  · obtain ⟨t, ht, hkind⟩ := (hinv.live ⟨0x100C, (0xFFFFFFFD : UInt32).toNat, (4 : UInt32).toNat⟩).mp
      (List.mem_append_right _ (List.mem_singleton.mpr rfl))
    have hupper := (hinv.fits t ht _ hkind).upper
    have hend := (hinv.heap.tiled.bounds.2 t ht).2.2
    have hsize : (0xFFFFFFFD : UInt32).toNat = 0xFFFFFFFD := rfl
    rw [hsize] at hupper
    have hregion : exampleRegion.buf + exampleRegion.size = 0x1100 := rfl
    dsimp only at hupper
    omega

end Bufmgr
end Vsf
