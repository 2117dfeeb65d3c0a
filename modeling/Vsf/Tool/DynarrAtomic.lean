/-
# A size that cannot be had

`vsf_dynarr_set_size` rounds the length up to full buffers, adds a buffer's items after each, and
returns as it is when a block is not to be had. So the array is as before just if its buffers were
full and the first one was not got (`Dynarr.atomic_iff`).
-/
import Mathlib
import Vsf.Tool.DynarrRun

namespace Vsf

open ByteMem Bittool Linked Malloc Option

namespace Dynarr

/-- `vsf_dynarr_get_size`. -/
def getSize (s : Dynarr) : UInt32 := s.length

/-- The first buffer got when the array grows, behind a table if the tables are full. -/
def firstBuffer (c : Config) (A : Allocator) (s : Dynarr) : Option ℕ :=
  if (c.bufferNum s.length).toNat % c.perTable = 0 then
    match s.heap.malloc A c.tableSize.toNat with
    | (none, _) => none
    | (some _, heap) => (heap.malloc A c.bufferSize.toNat).1
  else (s.heap.malloc A c.bufferSize.toNat).1

/-- The array is as it was. -/
def Unchanged (c : Config) (s s' : Dynarr) : Prop := s'.getSize = s.getSize ∧ ∀ pos, s'.get c pos = s.get c pos

variable {c : Config} {A : Allocator} {s s' : Dynarr} {size : UInt32} {ts bs : List ℕ} {table : Option ℕ} {idx : UInt32} {n : ℕ}

/-! ### The loop -/

theorem growLoop_length (hfits : c.Fits) (table : Option ℕ) (idx : UInt32) (hlt : s.length.toNat + n * c.perBuffer < 2 ^ 32) :
    s.length.toNat ≤ (growLoop c A n table idx s).2.length.toNat := by
  induction n generalizing s table idx with
  | zero => exact le_rfl
  | succ n ih =>
    have hone : (s.length + c.bufferItemNum).toNat = s.length.toNat + c.perBuffer := by
      rw [Nat.succ_mul] at hlt
      rw [UInt32.toNat_add, hfits.toNat_bufferItemNum, Nat.mod_eq_of_lt (by omega)]
    have hnext : ∀ (table : Option ℕ) (idx : UInt32) (t : Dynarr), t.length = s.length + c.bufferItemNum →
        s.length.toNat ≤ (growLoop c A n table idx t).2.length.toNat := by
      intro table idx t ht
      rw [Nat.succ_mul] at hlt
      have hle := ih (s := t) table idx (by rw [ht, hone]; omega)
      rw [ht, hone] at hle
      omega
    rw [growLoop]
    split_ifs
    · split
      · exact le_rfl
      · split
        · exact le_rfl
        · exact hnext _ _ _ rfl
    · split
      · exact le_rfl
      · exact hnext _ _ _ rfl

/-- The last buffer is the last of a table when full tables hold just them. -/
theorem Growing.full_iff (h : Growing c s ts bs table idx) (hfits : c.Fits) : idx + 1 = c.tableBufferNum ↔ bs.length % c.perTable = 0 := by
  have hT := hfits.toNat_tableBufferNum
  have hTle := hfits.perTable_le
  have hlast : lastIdx c bs.length < c.perTable := Nat.mod_lt _ (perTable_pos c)
  have hsucc : (idx + 1).toNat = lastIdx c bs.length + 1 := by
    rw [UInt32.toNat_add, h.idx, show (1 : UInt32).toNat = 1 from rfl, Nat.mod_eq_of_lt (by omega)]
  rw [← UInt32.toNat_inj, hsucc, hT]
  by_cases hmod : bs.length % c.perTable = 0
  · exact iff_of_true (lastIdx_full hmod) hmod
  · refine iff_of_false ?_ hmod
    rw [lastIdx_part hmod]
    exact (Nat.mod_lt _ (perTable_pos c)).ne

/-- **No first buffer**: the length stays. -/
theorem Growing.refused (h : Growing c s ts bs table idx) (hfits : c.Fits) (hnum : (c.bufferNum s.length).toNat = bs.length)
    (hfirst : firstBuffer c A s = none) : (growLoop c A (n + 1) table idx s).2.length = s.length := by
  unfold firstBuffer at hfirst
  rw [hnum] at hfirst
  rw [growLoop]
  by_cases hmod : bs.length % c.perTable = 0
  · rw [if_pos hmod] at hfirst
    rw [if_pos ((h.full_iff hfits).mpr hmod)]
    rcases heq : s.heap.malloc A c.tableSize.toNat with ⟨_ | nt, w⟩
    · rfl
    · rw [heq] at hfirst
      dsimp only at hfirst ⊢
      rcases Heap.malloc_cases A c.bufferSize.toNat w with ⟨nb, hsome, -⟩ | ⟨hnone, hheap⟩
      · rw [hfirst] at hsome
        cases hsome
      · rw [show w.malloc A c.bufferSize.toNat = (none, _) from Prod.ext hnone hheap]
  · rw [if_neg hmod] at hfirst
    rw [if_neg (mt (h.full_iff hfits).mp hmod)]
    rcases Heap.malloc_cases A c.bufferSize.toNat s.heap with ⟨nb, hsome, -⟩ | ⟨hnone, hheap⟩
    · rw [hfirst] at hsome
      cases hsome
    · rw [show s.heap.malloc A c.bufferSize.toNat = (none, _) from Prod.ext hnone hheap]

/-- **A first buffer**: its items are there afterwards, whatever comes. -/
theorem Growing.granted (h : Growing c s ts bs table idx) (hfits : c.Fits) (hnum : (c.bufferNum s.length).toNat = bs.length)
    (hlt : (bs.length + (n + 1)) * c.perBuffer < 2 ^ 32) {nb : ℕ} (hfirst : firstBuffer c A s = some nb) :
    s.length.toNat + c.perBuffer ≤ (growLoop c A (n + 1) table idx s).2.length.toNat := by
  have hsum : s.length.toNat + c.perBuffer + n * c.perBuffer < 2 ^ 32 := by
    have hsplit : (bs.length + (n + 1)) * c.perBuffer = bs.length * c.perBuffer + c.perBuffer + n * c.perBuffer := by ring
    rw [h.length]
    omega
  have hone : (s.length + c.bufferItemNum).toNat = s.length.toNat + c.perBuffer := by
    rw [UInt32.toNat_add, hfits.toNat_bufferItemNum, Nat.mod_eq_of_lt (by omega)]
  have hnext : ∀ (table : Option ℕ) (idx : UInt32) (t : Dynarr), t.length = s.length + c.bufferItemNum →
      s.length.toNat + c.perBuffer ≤ (growLoop c A n table idx t).2.length.toNat := by
    intro table idx t ht
    have hle := growLoop_length (A := A) (s := t) (n := n) hfits table idx (by rw [ht, hone]; exact hsum)
    rwa [ht, hone] at hle
  unfold firstBuffer at hfirst
  rw [hnum] at hfirst
  rw [growLoop]
  by_cases hmod : bs.length % c.perTable = 0
  · rw [if_pos hmod] at hfirst
    rw [if_pos ((h.full_iff hfits).mpr hmod)]
    rcases heq : s.heap.malloc A c.tableSize.toNat with ⟨_ | nt, w⟩ <;> rw [heq] at hfirst
    · cases hfirst
    · dsimp only at hfirst ⊢
      rw [show w.malloc A c.bufferSize.toNat = (some nb, (w.malloc A c.bufferSize.toNat).2) from Prod.ext hfirst rfl]
      exact hnext _ _ _ rfl
  · rw [if_neg hmod] at hfirst
    rw [if_neg (mt (h.full_iff hfits).mp hmod),
      show s.heap.malloc A c.bufferSize.toNat = (some nb, (s.heap.malloc A c.bufferSize.toNat).2) from Prod.ext hfirst rfl]
    exact hnext _ _ _ rfl

/-! ### The size -/

/-- Only a size that can be rounded up needs more buffers. -/
theorem size_of_grow (hb : c.itemNumBitlen.toNat < 32) (h : c.bufferNum s.length < c.bufferNum size) : size.toNat + c.perBuffer - 1 < 2 ^ 32 := by
  by_contra hge
  have hB : c.bufferItemNum.toNat = c.perBuffer := toNat_one_shiftLeft_of _ hb
  have hlt := size.toNat_lt
  have hlt' := c.bufferItemNum.toNat_lt
  have hwrap : (size + c.bufferItemNum - 1).toNat < c.perBuffer := by
    rw [UInt32.toNat_sub, UInt32.toNat_add, hB, show (1 : UInt32).toNat = 1 from rfl]
    rw [hB] at hlt'
    omega
  have hzero : (c.bufferNum size).toNat = 0 := by
    rw [Config.bufferNum, toNat_shiftRight_of _ _ hb]
    exact Nat.div_eq_of_lt hwrap
  rw [UInt32.lt_iff_toNat_lt, hzero] at h
  exact absurd h (Nat.not_lt_zero _)

theorem grow_of_error (he : s.setSize c A size = some (.notEnoughResources, s')) : c.bufferNum s.length < c.bufferNum size ∧
    (grow c A { s with length := c.bufferNum s.length * c.bufferItemNum } (c.bufferNum size) (c.bufferNum s.length)).2 = s' := by
  rw [Dynarr.setSize] at he
  split_ifs at he with hgrow hshrink
  · refine ⟨hgrow, ?_⟩
    generalize grow c A _ _ _ = r at he
    obtain ⟨e, t⟩ := r
    cases e with
    | none => cases he
    | notEnoughResources =>
      obtain ⟨-, rfl⟩ := Prod.ext_iff.mp (some.inj he)
      rfl
  · obtain ⟨t, -, hsome⟩ := map_eq_some_iff.mp he
    cases hsome
  · cases he

/-- **An array that fails to grow** is unchanged just when it was full and the first buffer was not got. -/
theorem Good.unchanged_iff (h : Good c s ts bs) (hfits : c.Fits) (he : s.setSize c A size = some (.notEnoughResources, s')) :
    Unchanged c s s' ↔ c.perBuffer ∣ s.length.toNat ∧ firstBuffer c A s = none := by
  obtain ⟨hgrow, heq⟩ := grow_of_error he
  have hsize := size_of_grow hfits.items hgrow
  have hnum := Dynarr.toNat_bufferNum hfits.items hsize
  have horig := h.toNat_bufferNum hfits
  obtain ⟨hle, hmul⟩ := h.le_mul
  have hpos := perBuffer_pos c
  -- the array with the length rounded up
  have hlen : (c.bufferNum s.length * c.bufferItemNum).toNat = bs.length * c.perBuffer := by
    rw [UInt32.toNat_mul, horig, hfits.toNat_bufferItemNum, Nat.mod_eq_of_lt hmul]
  have hround : (c.bufferNum (c.bufferNum s.length * c.bufferItemNum)).toNat = bs.length := by
    have hend := mul_perBuffer_le hfits hmul
    rw [Dynarr.toNat_bufferNum hfits.items (by rw [hlen]; omega), hlen, div_mul_perBuffer]
  have hfirst : firstBuffer c A { s with length := c.bufferNum s.length * c.bufferItemNum } = firstBuffer c A s := by
    unfold firstBuffer
    rw [hround, horig]
  rw [UInt32.lt_iff_toNat_lt] at hgrow
  obtain ⟨table, idx, hgrowing, hloop⟩ := grow_eq (A := A) (h.inv.length _) h.tight hfits hlen horig hgrow
  obtain ⟨n, hn⟩ : ∃ n, (c.bufferNum size).toNat - (c.bufferNum s.length).toNat = n + 1 :=
    Nat.exists_eq_succ_of_ne_zero (by omega)
  have hlt : (bs.length + (n + 1)) * c.perBuffer < 2 ^ 32 := by
    rw [← hn, ← horig, Nat.add_sub_cancel' hgrow.le, hnum]
    exact lt_of_le_of_lt (Nat.div_mul_le_self _ _) hsize
  rw [hloop, hn] at heq
  -- how long it is afterwards
  have hrefused : firstBuffer c A s = none → s'.length.toNat = bs.length * c.perBuffer := by
    intro hnone
    rw [← heq, hgrowing.refused hfits hround (hfirst.trans hnone), hlen]
  have hgranted : ∀ nb, firstBuffer c A s = some nb → bs.length * c.perBuffer + c.perBuffer ≤ s'.length.toNat := by
    intro nb hsome
    have hmore := hgrowing.granted hfits hround hlt (hfirst.trans hsome)
    rwa [heq, hlen] at hmore
  have hfull : c.perBuffer ∣ s.length.toNat ↔ s.length.toNat = bs.length * c.perBuffer := by
    constructor
    · rintro ⟨k, hk⟩
      rw [h.buffers, hk, mul_comm, div_mul_perBuffer]
    · exact fun heq => ⟨bs.length, by rw [heq, mul_comm]⟩
  rw [hfull]
  constructor
  · rintro ⟨hsame, -⟩
    have hsame' : s'.length.toNat = s.length.toNat := congrArg UInt32.toNat hsame
    cases hb : firstBuffer c A s with
    | none => exact ⟨hsame'.symm.trans (hrefused hb), rfl⟩
    | some nb =>
      have hmore := hgranted nb hb
      omega
  · rintro ⟨hall, hnone⟩
    have hsame : s'.length = s.length := UInt32.toNat_inj.mp ((hrefused hnone).trans hall.symm)
    have htables : ts.length ≤ c.tableNum ((size.toNat + c.perBuffer - 1) / c.perBuffer) + 1 := by
      rw [h.tight.tables h.inv.laid.room, ← hnum]
      exact (Nat.div_le_div_right (by omega)).trans (Nat.le_succ _)
    obtain ⟨e, t, hset, -, -, hkeeps⟩ := h.setSize (A := A) hfits hsize htables
    obtain ⟨-, rfl⟩ := Prod.ext_iff.mp (some.inj (hset.symm.trans he))
    refine ⟨hsame, fun pos => ?_⟩
    by_cases hlt : pos < s.length
    · exact (hkeeps pos hlt (hsame ▸ hlt)).1
    · rw [get_none (UInt32.not_lt.mp hlt), get_none (by rw [hsame]; exact UInt32.not_lt.mp hlt)]

/-- An array without items that gets no buffers stays without. -/
theorem Inv.unchanged_void (h : Inv c s [] []) (hlen : s.length = 0) (hvoid : c.Void) (he : s.setSize c A size = some (.notEnoughResources, s')) :
    Unchanged c s s' ∧ c.perBuffer ∣ s.length.toNat ∧ firstBuffer c A s = none := by
  have hsize := size_of_grow hvoid.1 (grow_of_error he).1
  obtain ⟨e, t, hset, -, -, hlen'⟩ := h.setSize_void (A := A) hlen hvoid hsize
  obtain ⟨-, rfl⟩ := Prod.ext_iff.mp (some.inj (hset.symm.trans he))
  have hnone : ∀ (t : Dynarr) (pos : UInt32), t.length = 0 → t.get c pos = none :=
    fun t pos ht => get_none (by rw [ht]; exact UInt32.zero_le)
  have hmalloc : ∀ w : Heap, (w.malloc A c.bufferSize.toNat).1 = none := by
    intro w
    rw [hvoid.2]
    rfl
  refine ⟨⟨hlen'.trans hlen.symm, fun pos => (hnone _ pos hlen').trans (hnone s pos hlen).symm⟩, ?_, ?_⟩
  · rw [hlen]
    exact dvd_zero _
  · unfold firstBuffer
    split_ifs
    · split
      · rfl
      · exact hmalloc _
    · exact hmalloc _

/-- **A size that cannot be had** leaves the array just when its buffers were full and the first one was not
got. -/
theorem atomic_iff (hc : c.Fits ∨ c.Void) (hr : ((system c A).restrict (Clean c)).Reach s)
    (he : s.setSize c A size = some (.notEnoughResources, s')) :
    Unchanged c s s' ↔ c.perBuffer ∣ s.length.toNat ∧ firstBuffer c A s = none := by
  rcases hc with hfits | hvoid
  · obtain ⟨ts, bs, h⟩ := reach_good hfits hr
    exact h.unchanged_iff hfits he
  · obtain ⟨h, hlen⟩ := reach_void hvoid hr
    obtain ⟨hsame, hcond⟩ := h.unchanged_void hlen hvoid he
    exact iff_of_true hsame hcond

/-- Memory for one table and one buffer of two items. -/
def twoBlocks : Allocator := .placed fun n => if n < 2 then 0x1000 * (n + 1) else 0

/-- Two items fill their buffer, and there is no second one: they stay. -/
theorem atomic_iff_none : ∃ s s', (init 0x100 fun _ => 0xFF).setSize ⟨6, 1, 1⟩ twoBlocks 2 = some (.none, s) ∧
    s.setSize ⟨6, 1, 1⟩ twoBlocks 4 = some (.notEnoughResources, s') ∧ s.length = 2 ∧ Unchanged ⟨6, 1, 1⟩ s s' := by
  have h : ((init 0x100 fun _ => 0xFF).setSize ⟨6, 1, 1⟩ twoBlocks 2).bind (fun r => (r.2.setSize ⟨6, 1, 1⟩ twoBlocks 4).map
      fun r' => (r.1, r'.1, r.2.length, firstBuffer ⟨6, 1, 1⟩ twoBlocks r.2)) = some (.none, .notEnoughResources, 2, none) := by
    decide
  obtain ⟨⟨e, s⟩, hset, h⟩ := bind_eq_some_iff.mp h
  obtain ⟨⟨e', s'⟩, hset', h⟩ := map_eq_some_iff.mp h
  simp only [Prod.mk.injEq] at h
  obtain ⟨rfl, rfl, hlen, hfirst⟩ := h
  have hreach : ((system ⟨6, 1, 1⟩ twoBlocks).restrict (Clean ⟨6, 1, 1⟩)).Reach s :=
    .step (i := .setSize 2) (.start ⟨0x100, fun _ => 0xFF, by decide, by decide, by decide, rfl⟩)
      ⟨⟨by decide, by decide⟩, trivial, map_eq_some_iff.mpr ⟨_, hset, rfl⟩⟩
  have hatomic := atomic_iff (.inl ⟨by decide, by decide, by decide, by decide⟩) hreach hset'
  exact ⟨s, s', hset, hset', hlen, hatomic.mpr ⟨by rw [hlen]; decide, hfirst⟩⟩

/-- **Two items to a buffer**, memory for one buffer: two items stay after four failed. -/
theorem atomic_breaks : ¬∀ (c : Config) (A : Allocator) (s s' : Dynarr) (size : UInt32), c.Fits → ((system c A).restrict (Clean c)).Reach s →
    s.setSize c A size = some (.notEnoughResources, s') → Unchanged c s s' := by
  intro hall
  let A : Allocator := .placed fun n => if n < 2 then 0x1000 * (n + 1) else 0
  have h : ((init 0x100 fun _ => 0).setSize ⟨4, 1, 1⟩ A 4).map (fun r => (r.1, r.2.length)) = some (.notEnoughResources, 2) := by
    decide
  obtain ⟨⟨e, s'⟩, hset, heq⟩ := map_eq_some_iff.mp h
  obtain ⟨rfl, hlen⟩ := Prod.ext_iff.mp heq
  obtain ⟨hsame, -⟩ := hall ⟨4, 1, 1⟩ A (init 0x100 fun _ => 0) s' 4 ⟨by decide, by decide, by decide, by decide⟩
    (.start ⟨_, _, by decide, by decide, by decide, rfl⟩) hset
  have htwo : s'.getSize = 2 := hlen
  rw [htwo] at hsame
  exact absurd hsame (by decide)

end Dynarr
end Vsf
