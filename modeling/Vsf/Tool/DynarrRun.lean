/-
# Arrays over all runs

An item is at a place of its own (`Inv.get`), and stays there while the array grows and shrinks;
`vsf_dynarr_set_size` leaves just the buffers and tables that the length needs, as long as the
widths fit, sizes can be rounded up in 32 bits, and a call gives back at most one table
(`dynarr_right`).
-/
import Mathlib
import Vsf.Tool.DynarrShrink

namespace Vsf

open ByteMem Bittool Linked Malloc List Option UInt32

namespace Dynarr

variable {c : Config} {A : Allocator} {s s' : Dynarr} {m m' : Mem} {p q k n : ℕ} {ts bs : List ℕ}

/-! ### Items -/

theorem four_dvd_stride (c : Config) : 4 ∣ c.stride.toNat := by
  rw [Config.stride, toNat_and_not_three]
  exact dvd_mul_left 4 _

theorem Config.Fits.itemSize_le (h : c.Fits) : c.itemSize.toNat ≤ c.stride.toNat := by
  have hpos := h.stride
  have hlt := c.itemSize.toNat_lt
  rw [Config.stride, toNat_and_not_three, UInt32.toNat_add, show (3 : UInt32).toNat = 3 from rfl] at hpos ⊢
  omega

/-- Where an item is. -/
def item (c : Config) (bs : List ℕ) (pos : ℕ) : ℕ := bs.getD (pos / c.perBuffer) 0 + pos % c.perBuffer * c.stride.toNat

theorem item_inside (hfits : c.Fits) (bs : List ℕ) (pos : ℕ) : bs.getD (pos / c.perBuffer) 0 ≤ item c bs pos ∧
    item c bs pos + c.stride.toNat ≤ bs.getD (pos / c.perBuffer) 0 + c.bufferSize.toNat := by
  have hmul : (pos % c.perBuffer + 1) * c.stride.toNat ≤ c.perBuffer * c.stride.toNat :=
    Nat.mul_le_mul_right _ (Nat.mod_lt pos (perBuffer_pos c))
  rw [Nat.succ_mul] at hmul
  rw [hfits.toNat_bufferSize, item]
  omega

theorem buffer_mem {pos : ℕ} (hpos : pos < bs.length * c.perBuffer) : bs.getD (pos / c.perBuffer) 0 ∈ bs :=
  getD_mem (Nat.div_lt_of_lt_mul (by rwa [mul_comm]))

/-- **What `vsf_dynarr_get` gives.** -/
theorem Inv.get (h : Inv c s ts bs) (hfits : c.Fits) (hlen : s.length.toNat ≤ bs.length * c.perBuffer) {pos : UInt32} (hpos : pos < s.length) :
    s.get c pos = some (item c bs pos.toNat) := by
  have hlt : pos.toNat < bs.length * c.perBuffer := lt_of_lt_of_le (lt_iff_toNat_lt.mp hpos) hlen
  have hi : pos.toNat / c.perBuffer < bs.length := Nat.div_lt_of_lt_mul (by rwa [mul_comm])
  have htable : pos.toNat / c.perBuffer / c.perTable < ts.length :=
    Nat.div_lt_of_lt_mul (by rw [mul_comm]; exact lt_of_lt_of_le hi h.laid.room)
  have ht32 : c.tableSizeBitlen.toNat < 32 := lt_of_le_of_lt hfits.table (by decide)
  obtain ⟨-, hinside⟩ := item_inside hfits bs pos.toNat
  have hstride := hfits.stride
  obtain ⟨-, -, -, hspace⟩ := h.ok.inside _ (h.buffer_block (buffer_mem hlt))
  obtain ⟨r, hr⟩ := four_dvd_stride c
  have hitem : item c bs pos.toNat = bs.getD (pos.toNat / c.perBuffer) 0 + pos.toNat % c.perBuffer * c.stride.toNat := rfl
  dsimp only at hspace
  have hoffset : 4 * (((pos &&& (c.bufferItemNum - 1)) * c.stride) >>> 2).toNat = pos.toNat % c.perBuffer * c.stride.toNat := by
    rw [UInt32.toNat_shiftRight, UInt32.toNat_mul, Config.bufferItemNum, toNat_and_mask _ _ hfits.items,
      show (2 : UInt32).toNat % 32 = 2 from rfl, Nat.shiftRight_eq_div_pow]
    change 4 * (pos.toNat % c.perBuffer * c.stride.toNat % 2 ^ 32 / 4) = _
    rw [Nat.mod_eq_of_lt (by omega), Nat.mul_div_cancel' (Dvd.dvd.mul_left ⟨r, hr⟩ _)]
  rw [Dynarr.get, if_pos hpos]
  dsimp only
  rw [toNat_shiftRight_of _ _ ht32, Config.tableBufferNum, toNat_and_mask _ _ ht32, toNat_shiftRight_of _ _ hfits.items]
  change Option.map _ (walk s.mem (pos.toNat / c.perBuffer / c.perTable) (next s.mem s.root)) = _
  rw [walk_spec (chain_cons.mp h.laid.chain).2 htable, map_some, hoffset]
  change some ((buffer s.mem (ts.getD (pos.toNat / c.perBuffer / c.perTable) 0) (pos.toNat / c.perBuffer % c.perTable) + _) % 2 ^ 32) = _
  rw [h.laid.slots _ hi, Nat.mod_eq_of_lt (by omega)]
  rfl

theorem get_none {pos : UInt32} (hpos : s.length ≤ pos) : s.get c pos = none := if_neg (UInt32.not_lt.mpr hpos)

theorem Inv.items_apart (h : Inv c s ts bs) (hfits : c.Fits) {i j : ℕ} (hi : i < bs.length * c.perBuffer) (hj : j < bs.length * c.perBuffer)
    (hne : i ≠ j) : item c bs i + c.stride.toNat ≤ item c bs j ∨ item c bs j + c.stride.toNat ≤ item c bs i := by
  have hini := item_inside hfits bs i
  have hinj := item_inside hfits bs j
  by_cases hbuffer : i / c.perBuffer = j / c.perBuffer
  · have hmod : i % c.perBuffer ≠ j % c.perBuffer := by
      intro heq
      have hdi := Nat.div_add_mod i c.perBuffer
      have hdj := Nat.div_add_mod j c.perBuffer
      rw [hbuffer, heq] at hdi
      omega
    unfold item
    rw [hbuffer]
    rcases Nat.lt_or_gt_of_ne hmod with hlt | hlt
    · have hmul := Nat.mul_le_mul_right c.stride.toNat (Nat.succ_le_of_lt hlt)
      rw [Nat.succ_mul] at hmul
      exact .inl (by omega)
    · have hmul := Nat.mul_le_mul_right c.stride.toNat (Nat.succ_le_of_lt hlt)
      rw [Nat.succ_mul] at hmul
      exact .inr (by omega)
  · have hli : i / c.perBuffer < bs.length := Nat.div_lt_of_lt_mul (by rwa [mul_comm])
    have hlj : j / c.perBuffer < bs.length := Nat.div_lt_of_lt_mul (by rwa [mul_comm])
    have hne' : bs.getD (i / c.perBuffer) 0 ≠ bs.getD (j / c.perBuffer) 0 := by
      intro heq
      rw [getD_eq_getElem _ _ hli, getD_eq_getElem _ _ hlj] at heq
      exact hbuffer ((nodup_append.mp (nodup_cons.mp h.nodup).2).2.1.getElem_inj_iff.mp heq)
    have happart := h.ok.apart_of_ne (h.buffer_block (buffer_mem hi)) (h.buffer_block (buffer_mem hj)) hne'
    rcases happart with hle | hle <;> dsimp only at hle <;> omega

theorem Inv.write (h : Inv c s ts bs) (hfits : c.Fits) (hp : p ∈ bs) (hm : ∀ a, a < p ∨ p + c.bufferSize.toNat ≤ a → m a = s.mem a) :
    Inv c { s with mem := m } ts bs := by
  obtain ⟨hroot, htables⟩ := h.buffer_apart hfits hp
  refine ⟨h.laid.congr (fun i hlo hhi => hm i ?_) fun t ht i hlo hhi => hm i ?_, h.ok, h.blocks, h.nodup, h.once⟩
  · omega
  · rcases htables t ht with hle | hle <;> omega

/-! ### Sizes -/

theorem toNat_bufferNum (hb : c.itemNumBitlen.toNat < 32) {x : UInt32} (h : x.toNat + c.perBuffer - 1 < 2 ^ 32) :
    (c.bufferNum x).toNat = (x.toNat + c.perBuffer - 1) / c.perBuffer := by
  have hpos := perBuffer_pos c
  have hB : c.bufferItemNum.toNat = c.perBuffer := toNat_one_shiftLeft_of _ hb
  have hlt := c.bufferItemNum.toNat_lt
  have hsub : (x + c.bufferItemNum - 1).toNat = x.toNat + c.perBuffer - 1 := by
    rw [UInt32.toNat_sub, UInt32.toNat_add, hB, show (1 : UInt32).toNat = 1 from rfl]
    rw [hB] at hlt
    omega
  rw [Config.bufferNum, toNat_shiftRight_of _ _ hb, hsub]
  rfl

theorem mul_perBuffer_le (hfits : c.Fits) (h : n * c.perBuffer < 2 ^ 32) : n * c.perBuffer + c.perBuffer ≤ 2 ^ 32 := by
  have hsplit : 2 ^ 32 = 2 ^ (32 - c.itemNumBitlen.toNat) * c.perBuffer := by
    rw [Config.perBuffer, ← Nat.pow_add, Nat.sub_add_cancel hfits.items.le]
  rw [hsplit] at h ⊢
  rw [← Nat.succ_mul]
  exact Nat.mul_le_mul_right _ (Nat.lt_of_mul_lt_mul_right h)

theorem div_mul_perBuffer (c : Config) (n : ℕ) : (n * c.perBuffer + c.perBuffer - 1) / c.perBuffer = n := by
  have hpos := perBuffer_pos c
  rw [Nat.add_sub_assoc hpos, Nat.mul_comm, Nat.mul_add_div hpos, Nat.div_eq_of_lt (by omega), Nat.add_zero]

/-- An array between two calls. -/
structure Good (c : Config) (s : Dynarr) (ts bs : List ℕ) : Prop where
  inv : Inv c s ts bs
  tight : Tight c ts bs
  buffers : bs.length = (s.length.toNat + c.perBuffer - 1) / c.perBuffer
  length : s.length.toNat + c.perBuffer - 1 < 2 ^ 32

namespace Good

theorem le_mul (h : Good c s ts bs) : s.length.toNat ≤ bs.length * c.perBuffer ∧ bs.length * c.perBuffer < 2 ^ 32 := by
  have hpos := perBuffer_pos c
  have hlen := h.length
  have hsplit := Nat.div_add_mod (s.length.toNat + c.perBuffer - 1) c.perBuffer
  have hmod := Nat.mod_lt (s.length.toNat + c.perBuffer - 1) hpos
  rw [← h.buffers, mul_comm] at hsplit
  omega

theorem toNat_bufferNum (h : Good c s ts bs) (hfits : c.Fits) : (c.bufferNum s.length).toNat = bs.length := by
  rw [Dynarr.toNat_bufferNum hfits.items h.length, h.buffers]

end Good

theorem Inv.length (h : Inv c s ts bs) (l : UInt32) : Inv c { s with length := l } ts bs :=
  ⟨h.laid, h.ok, h.blocks, h.nodup, h.once⟩

theorem grow_eq (h : Inv c s ts bs) (htight : Tight c ts bs) (hfits : c.Fits) (hlen : s.length.toNat = bs.length * c.perBuffer)
    {num orig : UInt32} (horig : orig.toNat = bs.length) (hlt : orig.toNat < num.toNat) :
    ∃ table idx, Growing c s ts bs table idx ∧ s.grow c A num orig = growLoop c A (num.toNat - orig.toNat) table idx s := by
  have hpos := perTable_pos c
  have ht32 : c.tableSizeBitlen.toNat < 32 := lt_of_le_of_lt hfits.table (by decide)
  by_cases hzero : orig = 0
  · subst hzero
    obtain rfl : bs = [] := length_eq_zero_iff.mp horig.symm
    obtain rfl : ts = [] := by
      have htables := htight.tables h.laid.room
      rw [length_nil, zero_add, Nat.div_eq_of_lt (by omega)] at htables
      exact length_eq_zero_iff.mp htables
    refine ⟨next s.mem s.root, c.tableBufferNum - 1, ⟨h, htight, ?_, ?_, hlen⟩, ?_⟩
    · exact chain_nil.mp (chain_cons.mp h.laid.chain).2
    · have hone : (1 : UInt32) ≤ c.tableBufferNum := by
        rw [le_iff_toNat_le, hfits.toNat_tableBufferNum]
        exact hpos
      have hfull := lastIdx_full (c := c) (Nat.zero_mod _)
      rw [UInt32.toNat_sub_of_le _ _ hone, hfits.toNat_tableBufferNum, show (1 : UInt32).toNat = 1 from rfl, length_nil]
      omega
    · rw [grow, if_pos rfl]
      rfl
  · obtain ⟨n, hn⟩ : ∃ n, bs.length = n + 1 := by
      refine ⟨bs.length - 1, ?_⟩
      have hne : orig.toNat ≠ 0 := fun heq => hzero (UInt32.toNat_inj.mp heq)
      omega
    have hone : ∀ x : UInt32, 0 < x.toNat → (1 : UInt32) ≤ x := fun x hx => by
      rw [le_iff_toNat_le]
      exact hx
    have horig1 : (orig - 1).toNat = n := by
      rw [UInt32.toNat_sub_of_le _ _ (hone orig (by omega)), show (1 : UInt32).toNat = 1 from rfl]
      omega
    have hnum1 : (num - 1).toNat = num.toNat - 1 := UInt32.toNat_sub_of_le _ _ (hone num (by omega))
    have htables : ts.length = n / c.perTable + 1 := by
      rw [htight.tables h.laid.room, hn, Nat.add_right_comm, Nat.add_sub_cancel, Nat.add_div_right _ hpos]
    have hlast : n / c.perTable < ts.length := by
      rw [htables]
      exact Nat.lt_succ_self _
    have hwalk : walk s.mem ((orig - 1) >>> c.tableSizeBitlen).toNat (next s.mem s.root) = ts.getLast? := by
      rw [toNat_shiftRight_of _ _ ht32, horig1]
      change walk s.mem (n / c.perTable) (next s.mem s.root) = ts.getLast?
      rw [walk_spec (chain_cons.mp h.laid.chain).2 hlast, getLast?_eq_getElem?, htables, Nat.add_sub_cancel,
        getD_eq_getElem _ _ hlast, getElem?_eq_getElem hlast]
    refine ⟨ts.getLast?, (orig - 1) &&& (c.tableBufferNum - 1), ⟨h, htight, rfl, ?_, hlen⟩, ?_⟩
    · rw [Config.tableBufferNum, toNat_and_mask _ _ ht32, horig1, hn, lastIdx_succ]
      rfl
    · have hcount : (num - 1 - (orig - 1)).toNat = num.toNat - orig.toNat := by
        rw [UInt32.toNat_sub_of_le _ _ (by rw [le_iff_toNat_le]; omega), hnum1, horig1]
        omega
      rw [grow, if_neg hzero]
      dsimp only
      rw [hwalk, hcount]

/-- Items that are there before and after stay where they are, with their bytes. -/
def Keeps (c : Config) (s s' : Dynarr) : Prop := ∀ pos, pos < s.length → pos < s'.length →
  s'.get c pos = s.get c pos ∧ ∀ q, s.get c pos = some q → ∀ a, q ≤ a → a < q + c.stride.toNat → s'.mem a = s.mem a

theorem Good.keeps (h : Good c s ts bs) {ts' bs' : List ℕ} (h' : Good c s' ts' bs') (hfits : c.Fits)
    (hsame : ∀ i, i < bs.length → i < bs'.length → bs'.getD i 0 = bs.getD i 0)
    (hmem : ∀ p ∈ bs, ∀ a, p ≤ a → a < p + c.bufferSize.toNat → s'.mem a = s.mem a) : Keeps c s s' := by
  intro pos hpos hpos'
  have hlt := lt_of_lt_of_le (lt_iff_toNat_lt.mp hpos) h.le_mul.1
  have hlt' := lt_of_lt_of_le (lt_iff_toNat_lt.mp hpos') h'.le_mul.1
  have hbuffer := hsame (pos.toNat / c.perBuffer) (Nat.div_lt_of_lt_mul (by rwa [mul_comm])) (Nat.div_lt_of_lt_mul (by rwa [mul_comm]))
  rw [h.inv.get hfits h.le_mul.1 hpos, h'.inv.get hfits h'.le_mul.1 hpos']
  refine ⟨by rw [item, hbuffer]; rfl, ?_⟩
  rintro q hq a hlo hhi
  obtain rfl := some.inj hq
  obtain ⟨hfirst, hlast⟩ := item_inside hfits bs pos.toNat
  exact hmem _ (buffer_mem hlt) a (by omega) (by omega)

theorem Good.setSize_same (h : Good c s ts bs) (hfits : c.Fits) {size : UInt32} (hsize : size.toNat + c.perBuffer - 1 < 2 ^ 32)
    (hsame : (size.toNat + c.perBuffer - 1) / c.perBuffer = bs.length) :
    s.setSize c A size = some (.none, { s with length := size }) ∧ Good c { s with length := size } ts bs := by
  have hnum : c.bufferNum size = c.bufferNum s.length := by
    apply UInt32.toNat_inj.mp
    rw [Dynarr.toNat_bufferNum hfits.items hsize, hsame, h.toNat_bufferNum hfits]
  refine ⟨?_, ⟨h.inv.length size, h.tight, hsame.symm, hsize⟩⟩
  have hnot : ¬c.bufferNum s.length < c.bufferNum s.length := by
    rw [lt_iff_toNat_lt]
    exact lt_irrefl _
  rw [Dynarr.setSize, hnum, if_neg hnot, if_neg hnot]

/-- **Setting the size.** -/
theorem Good.setSize (h : Good c s ts bs) (hfits : c.Fits) {size : UInt32} (hsize : size.toNat + c.perBuffer - 1 < 2 ^ 32)
    (hone : ts.length ≤ c.tableNum ((size.toNat + c.perBuffer - 1) / c.perBuffer) + 1) : ∃ e s', s.setSize c A size = some (e, s') ∧
      ((e = .none → s'.length = size) ∧ (e = .notEnoughResources → s.length ≤ s'.length)) ∧
      (∃ ts' bs', Good c s' ts' bs') ∧ Keeps c s s' := by
  have hnum := Dynarr.toNat_bufferNum hfits.items hsize
  have horig := h.toNat_bufferNum hfits
  obtain ⟨-, hmul⟩ := h.le_mul
  have hlen : (c.bufferNum s.length * c.bufferItemNum).toNat = bs.length * c.perBuffer := by
    rw [UInt32.toNat_mul, horig, hfits.toNat_bufferItemNum, Nat.mod_eq_of_lt hmul]
  have hinv := h.inv.length (c.bufferNum s.length * c.bufferItemNum)
  rw [Dynarr.setSize]
  by_cases hgrow : c.bufferNum s.length < c.bufferNum size
  · rw [if_pos hgrow]
    rw [lt_iff_toNat_lt] at hgrow
    obtain ⟨table, idx, hgrowing, heq⟩ := grow_eq (A := A) hinv h.tight hfits hlen horig hgrow
    have hlt : (bs.length + ((c.bufferNum size).toNat - (c.bufferNum s.length).toNat)) * c.perBuffer < 2 ^ 32 := by
      rw [← horig, Nat.add_sub_cancel' hgrow.le, hnum]
      exact lt_of_le_of_lt (Nat.div_mul_le_self _ _) hsize
    obtain ⟨ts', bs', ⟨hinv', htight', hlen'⟩, hgrown, hle, hnone⟩ := growLoop_spec (A := A) hfits hgrowing hlt
    have hsame : ∀ i, i < bs.length → i < bs'.length → bs'.getD i 0 = bs.getD i 0 := by
      intro i hi hi'
      obtain ⟨rest, rfl⟩ := hgrown.first
      exact getD_append _ _ _ _ hi
    rw [heq]
    generalize growLoop c A _ table idx _ = r at hinv' hlen' hgrown hnone
    obtain ⟨e, s'⟩ := r
    cases e with
    | none =>
      have hall : bs'.length = (size.toNat + c.perBuffer - 1) / c.perBuffer := by
        rw [hnone rfl, ← hnum]
        omega
      have hgood : Good c { s' with length := size } ts' bs' := ⟨hinv'.length size, htight', hall, hsize⟩
      exact ⟨_, _, rfl, ⟨fun _ => rfl, by simp⟩, ⟨ts', bs', hgood⟩, h.keeps hgood hfits hsame hgrown.kept⟩
    | notEnoughResources =>
      have hlt' : bs'.length * c.perBuffer < 2 ^ 32 := Nat.lt_of_le_of_lt (Nat.mul_le_mul_right _ hle) hlt
      have hend := mul_perBuffer_le hfits hlt'
      have hgood : Good c s' ts' bs' := ⟨hinv', htight', by rw [hlen', div_mul_perBuffer], by rw [hlen']; omega⟩
      have hmore : s.length ≤ s'.length := by
        rw [UInt32.le_iff_toNat_le, hlen']
        exact h.le_mul.1.trans (Nat.mul_le_mul_right _ hgrown.first.length_le)
      exact ⟨_, _, rfl, ⟨by simp, fun _ => hmore⟩, ⟨ts', bs', hgood⟩, h.keeps hgood hfits hsame hgrown.kept⟩
  · rw [if_neg hgrow]
    rw [lt_iff_toNat_lt] at hgrow
    by_cases hshrink : c.bufferNum size < c.bufferNum s.length
    · rw [if_pos hshrink]
      rw [lt_iff_toNat_lt] at hshrink
      rw [← hnum] at hone
      obtain ⟨s', heq, -, hinv', htight', hkept⟩ := shrink_spec hinv h.tight hfits horig hshrink hone
      have htake : (bs.take (c.bufferNum size).toNat).length = (c.bufferNum size).toNat := by
        rw [length_take]
        omega
      have hgood : Good c { s' with length := size } (ts.take (c.tableNum (c.bufferNum size).toNat)) (bs.take (c.bufferNum size).toNat) :=
        ⟨hinv'.length size, htight', by rw [htake, hnum], hsize⟩
      have hsame : ∀ i, i < bs.length → i < (bs.take (c.bufferNum size).toNat).length →
          (bs.take (c.bufferNum size).toNat).getD i 0 = bs.getD i 0 := by
        intro i _ hi
        rw [htake] at hi
        rw [getD_eq_getElem?_getD, getD_eq_getElem?_getD, getElem?_take_of_lt hi]
      rw [heq]
      exact ⟨_, _, rfl, ⟨fun _ => rfl, by simp⟩, ⟨_, _, hgood⟩, h.keeps hgood hfits hsame hkept⟩
    · rw [lt_iff_toNat_lt] at hshrink
      obtain ⟨hset, hgood⟩ := h.setSize_same (A := A) hfits hsize (by rw [← hnum]; omega)
      rw [Dynarr.setSize, if_neg (by rw [lt_iff_toNat_lt]; exact hgrow)] at hset
      exact ⟨_, _, hset, ⟨fun _ => rfl, by simp⟩, ⟨ts, bs, hgood⟩, h.keeps hgood hfits (fun _ _ _ => rfl) fun _ _ _ _ _ => rfl⟩

/-- **The end**: no buffers and no tables. -/
theorem Good.fini (h : Good c s ts bs) (hfits : c.Fits) : ∃ s', s.fini c = some s' ∧ s'.root = s.root ∧ s'.length = 0 ∧ Inv c s' [] [] := by
  obtain ⟨xs, hperm, hloop⟩ := finiLoop_spec (w := s.heap) hfits (chain_cons.mp h.inv.laid.chain).2 h.inv.laid.slots h.inv.laid.room h.tight
    (h.toNat_bufferNum hfits) (h.toNat_bufferNum hfits).ge
  have hlaid := h.inv.laid.cut (h.inv.sep hfits) (Nat.zero_le _) (Nat.zero_le (0 * c.perTable))
  rw [Dynarr.fini, hloop]
  exact ⟨_, rfl, rfl, rfl, h.inv.drop (k := 0) (n := 0) hlaid hperm⟩

/-! ### Buffers of no bytes -/

/-- In 32 bits a buffer has no bytes, and none is allocated. -/
def Config.Void (c : Config) : Prop := c.itemNumBitlen.toNat < 32 ∧ c.bufferSize = 0

theorem Inv.setSize_void (h : Inv c s [] []) (hlen : s.length = 0) (hvoid : c.Void) {size : UInt32}
    (hsize : size.toNat + c.perBuffer - 1 < 2 ^ 32) : ∃ e s', s.setSize c A size = some (e, s') ∧ (e = .none → s'.length = size) ∧
      Inv c s' [] [] ∧ s'.length = 0 := by
  obtain ⟨hb, hnone⟩ := hvoid
  have hB := perBuffer_pos c
  have horig : c.bufferNum s.length = 0 := by
    apply UInt32.toNat_inj.mp
    rw [hlen, toNat_bufferNum hb (by rw [UInt32.toNat_zero]; omega), UInt32.toNat_zero, Nat.div_eq_of_lt (by omega)]
  have hmul : (0 : UInt32) * c.bufferItemNum = 0 := zero_mul
  rw [Dynarr.setSize, horig]
  rw [hmul]
  by_cases hzero : size = 0
  · subst hzero
    have hnum : c.bufferNum 0 = 0 := by rwa [hlen] at horig
    rw [hnum, if_neg (by decide), if_neg (by decide)]
    exact ⟨_, _, rfl, fun _ => rfl, h.length 0, rfl⟩
  have hpos : 0 < (c.bufferNum size).toNat := by
    rw [toNat_bufferNum hb hsize]
    have hne : size.toNat ≠ 0 := fun heq => hzero (UInt32.toNat_inj.mp heq)
    exact Nat.div_pos (by omega) hB
  obtain ⟨n, hn⟩ : ∃ n, (c.bufferNum size).toNat = n + 1 := ⟨(c.bufferNum size).toNat - 1, by omega⟩
  have hnext : next s.mem s.root = none := chain_nil.mp (chain_cons.mp h.laid.chain).2
  have hmalloc : ∀ w : Heap, w.malloc A c.bufferSize.toNat = (none, { w with calls := w.calls + 1 }) := by
    intro w
    rw [hnone, UInt32.toNat_zero]
    rfl
  rw [if_pos (by rw [lt_iff_toNat_lt]; exact hpos), grow, if_pos rfl, hn]
  rw [hnext, growLoop, UInt32.sub_add_cancel, if_pos rfl]
  rcases Heap.malloc_cases A c.tableSize.toNat s.heap with ⟨nt, h1, htable, hpick, h2⟩ | ⟨h1, h2⟩
  · rw [show s.heap.malloc A c.tableSize.toNat = (some nt, _) from Prod.ext h1 h2]
    dsimp only
    rw [hmalloc]
    exact ⟨_, _, rfl, by simp, (h.unused (.inr rfl) htable hpick (s.heap.calls + 1 + 1)).length 0, rfl⟩
  · rw [show s.heap.malloc A c.tableSize.toNat = (none, _) from Prod.ext h1 h2]
    exact ⟨_, _, rfl, by simp, (h.fail (s.heap.calls + 1)).length 0, rfl⟩

/-! ### Runs -/

/-- A size that can be rounded up, and that gives back one table at most. -/
def Clean (c : Config) (s : Dynarr) : Op → Prop
  | .setSize size => size.toNat + c.perBuffer - 1 < 2 ^ 32 ∧ c.tableNum ((s.length.toNat + c.perBuffer - 1) / c.perBuffer) ≤
      c.tableNum ((size.toNat + c.perBuffer - 1) / c.perBuffer) + 1
  | .use .. => True

/-- The tables `ts` and the buffers `bs` are what the length needs, and all that is allocated; each position
has an item of its own. -/
structure Right (c : Config) (s : Dynarr) (ts bs : List ℕ) : Prop where
  linked : Chain (next s.mem) (some s.root) (s.root :: ts)
  buffers : bs.length = (s.length.toNat + c.perBuffer - 1) / c.perBuffer
  tables : ts.length = (bs.length + c.perTable - 1) / c.perTable
  heap : s.heap.live.Perm (⟨s.root, 4⟩ :: ((ts.map fun t => ⟨t, c.tableSize.toNat⟩) ++ bs.map fun p => ⟨p, c.bufferSize.toNat⟩))
  once : s.heap.strays = 0
  inside : ∀ pos < s.length, c.itemSize.toNat ≤ c.stride.toNat ∧
    ∃ q, s.get c pos = some q ∧ ∃ p ∈ bs, p ≤ q ∧ q + c.stride.toNat ≤ p + c.bufferSize.toNat
  apart : ∀ pos pos' q q', s.get c pos = some q → s.get c pos' = some q' → pos ≠ pos' → q + c.stride.toNat ≤ q' ∨ q' + c.stride.toNat ≤ q
  outside : ∀ pos, s.length ≤ pos → s.get c pos = none
  fini : ∃ s', s.fini c = some s' ∧ s'.heap.live = [⟨s.root, 4⟩] ∧ s'.heap.strays = 0

theorem Inv.perm (h : Inv c s ts bs) :
    s.heap.live.Perm (⟨s.root, 4⟩ :: ((ts.map fun t => ⟨t, c.tableSize.toNat⟩) ++ bs.map fun p => ⟨p, c.bufferSize.toNat⟩)) := by
  refine (perm_ext_iff_of_nodup h.ok.nodup ?_).mpr fun b => ?_
  · refine List.Nodup.of_map Block.addr ?_
    simpa [Function.comp_def] using h.nodup
  · rw [h.blocks]
    simp [eq_comm]

theorem Good.right (h : Good c s ts bs) (hfits : c.Fits) : Right c s ts bs := by
  have hlt : ∀ pos : UInt32, pos < s.length → pos.toNat < bs.length * c.perBuffer := fun pos hpos =>
    lt_of_lt_of_le (lt_iff_toNat_lt.mp hpos) h.le_mul.1
  have hpos : ∀ pos q, s.get c pos = some q → pos < s.length ∧ q = item c bs pos.toNat := by
    intro pos q hq
    by_cases hpos : pos < s.length
    · rw [h.inv.get hfits h.le_mul.1 hpos] at hq
      exact ⟨hpos, (some.inj hq).symm⟩
    · rw [get_none (UInt32.not_lt.mp hpos)] at hq
      cases hq
  refine ⟨h.inv.laid.chain, h.buffers, h.tight.tables h.inv.laid.room, h.inv.perm, h.inv.once, ?_, ?_,
    fun _ => get_none, ?_⟩
  · intro pos hpos
    exact ⟨hfits.itemSize_le, _, h.inv.get hfits h.le_mul.1 hpos, _, buffer_mem (hlt pos hpos), item_inside hfits bs pos.toNat⟩
  · intro pos pos' q q' hq hq' hne
    obtain ⟨hp, rfl⟩ := hpos pos q hq
    obtain ⟨hp', rfl⟩ := hpos pos' q' hq'
    exact h.inv.items_apart hfits (hlt pos hp) (hlt pos' hp') fun heq => hne (UInt32.toNat_inj.mp heq)
  · obtain ⟨s', hfini, hroot, -, hinv⟩ := h.fini hfits
    have hperm := hinv.perm
    rw [hroot] at hperm
    exact ⟨s', hfini, perm_singleton.mp hperm, hinv.once⟩

theorem Inv.init (c : Config) {root : ℕ} (hpos : 0 < root) (hdvd : 4 ∣ root) (hle : root + 4 ≤ 2 ^ 32) (m : Mem) :
    Inv c (init root m) [] [] := by
  have hend : next (store32 m root 0) root = none := by
    rw [next, load32_store32 m root (by decide), if_pos rfl]
  refine ⟨⟨⟨rfl, hend⟩, Nat.zero_le _, fun i hi => absurd hi (Nat.not_lt_zero i)⟩, ⟨?_, pairwise_singleton _ _⟩, ?_, nodup_singleton _, rfl⟩
  · intro b hb
    obtain rfl := mem_singleton.mp hb
    exact ⟨hpos, Nat.succ_pos 3, hdvd, hle⟩
  · simp [Dynarr.init]

theorem Inv.good (h : Inv c s [] []) (hlen : s.length = 0) (hb : c.itemNumBitlen.toNat < 32) : Good c s [] [] := by
  have hB := perBuffer_pos c
  have hlt : c.perBuffer < 2 ^ 32 := Nat.pow_lt_pow_right (by decide) hb
  refine ⟨h, ?_, ?_, ?_⟩
  · simpa [Tight] using perTable_pos c
  · rw [hlen, UInt32.toNat_zero, Nat.div_eq_of_lt (by omega)]
    rfl
  · rw [hlen, UInt32.toNat_zero]
    omega

theorem Inv.right_void (h : Inv c s [] []) (hlen : s.length = 0) (hb : c.itemNumBitlen.toNat < 32) : Right c s [] [] := by
  have hgood := h.good hlen hb
  have hnone : ∀ pos, s.get c pos = none := fun pos => get_none (by rw [hlen]; exact UInt32.zero_le)
  have hnum : c.bufferNum s.length = 0 := by
    apply UInt32.toNat_inj.mp
    rw [toNat_bufferNum hb hgood.length, ← hgood.buffers]
    rfl
  have hfini : s.fini c = some { s with mem := store32 s.mem s.root 0, length := 0 } := by
    rw [fini, hnum]
    rfl
  refine ⟨h.laid.chain, hgood.buffers, hgood.tight.tables h.laid.room, h.perm, h.once, ?_, ?_, fun pos _ => hnone pos, ?_⟩
  · intro pos hpos
    rw [hlen] at hpos
    exact absurd hpos UInt32.not_lt_zero
  · intro pos pos' q q' hq
    rw [hnone] at hq
    cases hq
  · exact ⟨_, hfini, perm_singleton.mp h.perm, h.once⟩

theorem Good.exec (h : Good c s ts bs) (hfits : c.Fits) {op : Op} (hclean : Clean c s op) (hl : s.Legal c op) (he : s.exec c A op = some s') :
    ∃ ts' bs', Good c s' ts' bs' := by
  cases op with
  | setSize size =>
    rw [Clean, ← h.buffers] at hclean
    obtain ⟨e, s1, hset, -, hgood, -⟩ := h.setSize (A := A) hfits hclean.1 (by
      rw [h.tight.tables h.inv.laid.room]
      exact hclean.2)
    rw [Dynarr.exec, hset] at he
    obtain rfl := some.inj he
    exact hgood
  | use pos a v =>
    obtain ⟨q, hq, hlo, hhi⟩ := hl
    obtain rfl := some.inj he
    have hpos : pos < s.length := by
      by_contra hge
      rw [get_none (UInt32.not_lt.mp hge)] at hq
      cases hq
    obtain ⟨hsize, q', hq', p, hp, hfirst, hlast⟩ := (h.right hfits).inside pos hpos
    rw [hq] at hq'
    obtain rfl := some.inj hq'
    refine ⟨ts, bs, h.inv.write hfits hp fun i hi => Function.update_of_ne ?_ _ _, h.tight, h.buffers, h.length⟩
    omega

theorem reach_good (hfits : c.Fits) (hr : ((system c A).restrict (Clean c)).Reach s) : ∃ ts bs, Good c s ts bs := by
  refine hr.invariant (P := fun s => ∃ ts bs, Good c s ts bs) ?_ ?_
  · rintro _ ⟨root, m, hpos, hdvd, hle, rfl⟩
    exact ⟨[], [], (Inv.init c hpos hdvd hle m).good rfl hfits.items⟩
  · rintro s op s' - ⟨ts, bs, h⟩ ⟨hclean, hl, he⟩
    exact h.exec hfits hclean hl he

/-- Where buffers have no bytes it stays without items. -/
theorem reach_void (hvoid : c.Void) (hr : ((system c A).restrict (Clean c)).Reach s) : Inv c s [] [] ∧ s.length = 0 := by
  refine hr.invariant (P := fun s => Inv c s [] [] ∧ s.length = 0) ?_ ?_
  · rintro _ ⟨root, m, hpos, hdvd, hle, rfl⟩
    exact ⟨Inv.init c hpos hdvd hle m, rfl⟩
  · rintro s op s' - ⟨h, hlen⟩ ⟨hclean, hl, he⟩
    cases op with
    | setSize size =>
      obtain ⟨e, s1, hset, -, hinv⟩ := h.setSize_void (A := A) hlen hvoid hclean.1
      rw [exec, hset] at he
      obtain rfl := some.inj he
      exact hinv
    | use pos a v =>
      obtain ⟨q, hq, -⟩ := hl
      rw [get_none (by rw [hlen]; exact UInt32.zero_le)] at hq
      cases hq

/-- **Dynamic arrays**, in every run whose sizes are clean. -/
theorem dynarr_right (hc : c.Fits ∨ c.Void) (hr : ((system c A).restrict (Clean c)).Reach s) : (∃ ts bs, Right c s ts bs) ∧
    ∀ size, Clean c s (.setSize size) → ∃ e s', s.setSize c A size = some (e, s') ∧ (e = .none → s'.length = size) ∧ Keeps c s s' := by
  rcases hc with hfits | hvoid
  · obtain ⟨ts, bs, h⟩ := reach_good hfits hr
    refine ⟨⟨ts, bs, h.right hfits⟩, fun size hclean => ?_⟩
    rw [Clean, ← h.buffers] at hclean
    obtain ⟨e, s', hset, ⟨hlen, -⟩, -, hkeeps⟩ := h.setSize (A := A) hfits hclean.1 (by
      rw [h.tight.tables h.inv.laid.room]
      exact hclean.2)
    exact ⟨e, s', hset, hlen, hkeeps⟩
  · obtain ⟨h, hlen⟩ := reach_void hvoid hr
    refine ⟨⟨[], [], h.right_void hlen hvoid.1⟩, fun size hclean => ?_⟩
    obtain ⟨e, s', hset, hsize, -, -⟩ := h.setSize_void (A := A) hlen hvoid hclean.1
    refine ⟨e, s', hset, hsize, fun pos hpos => ?_⟩
    rw [hlen] at hpos
    exact absurd hpos UInt32.not_lt_zero

/-- Three items of six bytes, two to a buffer. -/
theorem dynarr_right_three : ∃ s ts bs, (init 0x100 fun _ => 0xFF).exec ⟨6, 1, 1⟩ (.placed fun n => 0x1000 * (n + 1)) (.setSize 3) = some s ∧
    s.length = 3 ∧ Right ⟨6, 1, 1⟩ s ts bs := by
  have h : ((init 0x100 fun _ => 0xFF).exec ⟨6, 1, 1⟩ (.placed fun n => 0x1000 * (n + 1)) (.setSize 3)).map Dynarr.length = some 3 := by
    decide
  obtain ⟨s, hs, hlen⟩ := map_eq_some_iff.mp h
  have hclean : Clean ⟨6, 1, 1⟩ (init 0x100 fun _ => 0xFF) (.setSize 3) := ⟨by decide, by decide⟩
  have hstart : ((system ⟨6, 1, 1⟩ (.placed fun n => 0x1000 * (n + 1))).restrict (Clean ⟨6, 1, 1⟩)).Reach (init 0x100 fun _ => 0xFF) :=
    .start ⟨_, _, by decide, by decide, by decide, rfl⟩
  obtain ⟨⟨ts, bs, hright⟩, -⟩ := dynarr_right (.inl ⟨by decide, by decide, by decide, by decide⟩)
    (hstart.step (i := .setSize 3) ⟨hclean, trivial, hs⟩)
  exact ⟨s, ts, bs, hs, hlen, hright⟩

/-- Three buffers, each in its own table: when all go, one of each is given back. -/
theorem tables_left : ¬∀ (c : Config) (A : Allocator) (s : Dynarr), (system c A).Reach s → ∃ ts bs, Right c s ts bs := by
  intro hall
  let c : Config := ⟨4, 0, 0⟩
  let A : Allocator := .placed fun n => 0x1000 * (n + 1)
  have h : (((init 0x100 fun _ => 0).exec c A (.setSize 3)).bind fun s1 =>
      (s1.exec c A (.setSize 0)).map fun s2 => (s2.length, s2.heap.live.length)) = some (0, 5) := by
    decide
  obtain ⟨s1, h1, h⟩ := bind_eq_some_iff.mp h
  obtain ⟨s2, h2, h⟩ := map_eq_some_iff.mp h
  obtain ⟨hlen, hlive⟩ := Prod.ext_iff.mp h
  have hstart : (system c A).Reach (init 0x100 fun _ => 0) := .start ⟨_, _, by decide, by decide, by decide, rfl⟩
  have hreach1 : (system c A).Reach s1 := hstart.step (i := .setSize 3) ⟨trivial, h1⟩
  have hreach2 : (system c A).Reach s2 := hreach1.step (i := .setSize 0) ⟨trivial, h2⟩
  obtain ⟨ts, bs, hright⟩ := hall c A s2 hreach2
  have hbuffers : bs.length = 0 := by
    rw [hright.buffers, show s2.length = 0 from hlen, show c.perBuffer = 1 from rfl]
    decide
  have htables : ts.length = 0 := by
    rw [hright.tables, hbuffers, show c.perTable = 1 from rfl]
  have hcount := hright.heap.length_eq
  rw [show s2.heap.live.length = 5 from hlive, length_cons, length_append, length_map, length_map, hbuffers, htables] at hcount
  cases hcount

end Dynarr
end Vsf
