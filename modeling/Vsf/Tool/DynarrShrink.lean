/-
# Arrays that give buffers back

`vsf_dynarr_set_size` for fewer items gives back the rest of a table and then table by table. Its
index stays behind the end of a table after the first one, so the loop is right as long as no second
one has to go (`shrink_spec`). `vsf_dynarr_fini` gives back everything (`finiLoop_spec`).
-/
import Mathlib
import Vsf.Tool.Dynarr

namespace Vsf

open ByteMem Bittool Linked Malloc List Option UInt32

namespace Dynarr

variable {c : Config} {A : Allocator} {s s' : Dynarr} {m m' : Mem} {root p q t nt nb k n : ℕ} {ts bs : List ℕ} {w : Heap}

/-! ### Giving back -/

theorem freeBuffers_eq (m : Mem) (t n : ℕ) (w : Heap) : freeBuffers m t n w = w.freeAll ((List.range n).map (buffer m t)).reverse := by
  induction n generalizing w with
  | zero => rfl
  | succ n ih =>
    rw [freeBuffers, ih, range_succ, map_append, reverse_append]
    rfl

theorem row_eq (h : ∀ i < bs.length, buffer m (ts.getD (i / c.perTable) 0) (i % c.perTable) = bs.getD i 0) {j i r : ℕ}
    (hr : i + r ≤ c.perTable) (hlen : j * c.perTable + i + r ≤ bs.length) :
    (List.range r).map (fun x => buffer m (ts.getD j 0) (i + x)) = (bs.drop (j * c.perTable + i)).take r := by
  apply ext_getElem
  · rw [length_map, length_range, length_take, length_drop]
    omega
  · intro x hx hx'
    rw [length_map, length_range] at hx
    have hmod : (j * c.perTable + i + x) % c.perTable = i + x := by
      rw [add_assoc, mul_comm, Nat.mul_add_mod, Nat.mod_eq_of_lt (by omega)]
    have hdiv : (j * c.perTable + i + x) / c.perTable = j := by
      rw [add_assoc, mul_comm, Nat.mul_add_div (perTable_pos c), Nat.div_eq_of_lt (by omega), add_zero]
    have hlt : j * c.perTable + i + x < bs.length := by omega
    have hslot := h _ hlt
    rw [hmod, hdiv, getD_eq_getElem _ _ hlt] at hslot
    simpa using hslot

/-- **The rest of the array is given back**, in any order. -/
theorem Inv.drop (h : Inv c s ts bs) {l : UInt32} {xs : List ℕ} (hlaid : Laid c m s.root (ts.take k) (bs.take n))
    (hperm : xs.Perm (ts.drop k ++ bs.drop n)) :
    Inv c { s with length := l, mem := m, heap := s.heap.freeAll xs } (ts.take k) (bs.take n) := by
  obtain ⟨hroot, hnodup⟩ := nodup_cons.mp h.nodup
  obtain ⟨hts, hbs, hdisj⟩ := nodup_append.mp hnodup
  have hmem : ∀ x, x ∈ xs ↔ x ∈ ts.drop k ∨ x ∈ bs.drop n := fun x => by rw [hperm.mem_iff, mem_append]
  have hroot' : s.root ∉ xs := by
    rw [hmem]
    rintro (hx | hx)
    · exact hroot (mem_append_left _ (mem_of_mem_drop hx))
    · exact hroot (mem_append_right _ (mem_of_mem_drop hx))
  have htable : ∀ t ∈ ts.take k, t ∉ xs := by
    intro t ht
    rw [hmem]
    rintro (hx | hx)
    · exact disjoint_take_drop hts le_rfl ht hx
    · exact hdisj t (mem_of_mem_take ht) t (mem_of_mem_drop hx) rfl
  have hbuffer : ∀ p ∈ bs.take n, p ∉ xs := by
    intro p hp
    rw [hmem]
    rintro (hx | hx)
    · exact hdisj p (mem_of_mem_drop hx) p (mem_of_mem_take hp) rfl
    · exact disjoint_take_drop hbs le_rfl hp hx
  have hat : ∀ x ∈ xs, s.heap.At x := by
    intro x hx
    rcases (hmem x).mp hx with hx | hx
    · exact ⟨_, h.table_block (mem_of_mem_drop hx), rfl⟩
    · exact ⟨_, h.buffer_block (mem_of_mem_drop hx), rfl⟩
  have hxs : xs.Nodup :=
    hperm.nodup_iff.mpr (hnodup.sublist (List.Sublist.append (drop_sublist k ts) (drop_sublist n bs)))
  obtain ⟨hlive, honce⟩ := Heap.freeAll_spec hat hxs
  refine ⟨hlaid, h.ok.freeAll xs, ?_, ?_, honce.trans h.once⟩
  · intro b
    rw [hlive, h.blocks]
    constructor
    · rintro ⟨rfl | ⟨t, ht, rfl⟩ | ⟨p, hp, rfl⟩, hout⟩
      · exact .inl rfl
      · rw [← take_append_drop k ts, mem_append] at ht
        exact .inr (.inl ⟨t, ht.resolve_right fun hx => hout ((hmem t).mpr (.inl hx)), rfl⟩)
      · rw [← take_append_drop n bs, mem_append] at hp
        exact .inr (.inr ⟨p, hp.resolve_right fun hx => hout ((hmem p).mpr (.inr hx)), rfl⟩)
    · rintro (rfl | ⟨t, ht, rfl⟩ | ⟨p, hp, rfl⟩)
      · exact ⟨.inl rfl, hroot'⟩
      · exact ⟨.inr (.inl ⟨t, mem_of_mem_take ht, rfl⟩), htable t ht⟩
      · exact ⟨.inr (.inr ⟨p, mem_of_mem_take hp, rfl⟩), hbuffer p hp⟩
  · exact h.nodup.sublist ((List.Sublist.append (take_sublist k ts) (take_sublist n bs)).cons_cons _)

/-! ### Shrinking -/

theorem shrinkLoop_row (hfits : c.Fits) (table : Option ℕ) (f r : ℕ) {num idx : UInt32} (hr : r ≤ num.toNat) (hidx : idx.toNat + r < c.perTable) :
    ∃ num' idx' : UInt32, num'.toNat = num.toNat - r ∧ idx'.toNat = idx.toNat + r ∧ shrinkLoop c (f + r) num table idx s =
      shrinkLoop c f num' table idx'
        { s with heap := s.heap.freeAll ((List.range r).map fun x => buffer s.mem (table.getD 0) (idx.toNat + 1 + x)) } := by
  induction r generalizing num idx s with
  | zero => exact ⟨num, idx, rfl, rfl, rfl⟩
  | succ r ih =>
    have hT := hfits.toNat_tableBufferNum
    have hTle := hfits.perTable_le
    have hnum : num ≠ 0 := by
      rintro rfl
      simp at hr
    have hsucc : (idx + 1).toNat = idx.toNat + 1 := by
      rw [UInt32.toNat_add, show (1 : UInt32).toNat = 1 from rfl, Nat.mod_eq_of_lt (by omega)]
    have hpred : (num - 1).toNat = num.toNat - 1 :=
      UInt32.toNat_sub_of_le _ _ (by rw [le_iff_toNat_le, show (1 : UInt32).toNat = 1 from rfl]; omega)
    have hpart : idx + 1 ≠ c.tableBufferNum := by
      intro heq
      have hnat := congrArg UInt32.toNat heq
      omega
    obtain ⟨num', idx', h1, h2, hloop⟩ := @ih { s with heap := s.heap.free (buffer s.mem (table.getD 0) (idx + 1).toNat) }
      (num - 1) (idx + 1) (by omega) (by omega)
    refine ⟨num', idx', by omega, by omega, ?_⟩
    rw [← add_assoc, shrinkLoop, if_neg hnum, if_neg hpart, hloop, hsucc, range_succ_eq_map, map_cons, List.map_map]
    have hmap : ((fun x => buffer s.mem (table.getD 0) (idx.toNat + 1 + x)) ∘ Nat.succ) =
        fun x => buffer s.mem (table.getD 0) (idx.toNat + 1 + 1 + x) := by
      funext x
      rw [Function.comp, Nat.succ_eq_add_one, add_right_comm _ 1 x, add_assoc _ x 1]
    rw [hmap]
    rfl

theorem shrinkLoop_table (hfits : c.Fits) {f y : ℕ} {num idx : UInt32} (hnum : num ≠ 0) (hidx : idx.toNat + 1 = c.perTable)
    (hle : num.toNat ≤ c.perTable) (hnext : next s.mem y = some nt) :
    shrinkLoop c (f + 1) num (some y) idx s = some { s with
      mem := store32 s.mem y 0
      heap := (s.heap.freeAll ((List.range num.toNat).map (buffer (store32 s.mem y 0) nt)).reverse).free nt } := by
  have hT := hfits.toNat_tableBufferNum
  have hTle := hfits.perTable_le
  have hfull : idx + 1 = c.tableBufferNum := by
    apply UInt32.toNat_inj.mp
    rw [UInt32.toNat_add, show (1 : UInt32).toNat = 1 from rfl, Nat.mod_eq_of_lt (by omega), hT, hidx]
  have hmin : min num c.tableBufferNum = num := by
    apply if_pos
    rw [le_iff_toNat_le, hT]
    exact hle
  rw [shrinkLoop, if_neg hnum, if_pos hfull, hmin, getD_some, hnext, getD_some]
  dsimp only
  rw [freeBuffers_eq, UInt32.sub_self]
  cases f <;> rfl

/-- The tables that `n` buffers need. -/
def Config.tableNum (c : Config) (n : ℕ) : ℕ := (n + c.perTable - 1) / c.perTable

/-- The buffers that are kept end at `lastIdx` of their last table. -/
theorem tableNum_lastIdx (c : Config) (n : ℕ) : c.tableNum n * c.perTable + lastIdx c n + 1 = n + c.perTable := by
  have hpos := perTable_pos c
  have hsplit := Nat.div_add_mod (n + c.perTable - 1) c.perTable
  unfold Config.tableNum lastIdx
  rw [mul_comm]
  omega

theorem lastIdx_lt (c : Config) (n : ℕ) : lastIdx c n < c.perTable := Nat.mod_lt _ (perTable_pos c)

theorem shrink_eq (h : Inv c s ts bs) (hfits : c.Fits) {num orig : UInt32} (hlt : num.toNat < orig.toNat)
    (hk : c.tableNum num.toNat ≤ ts.length) : ∃ d idx : UInt32, d.toNat = orig.toNat - num.toNat ∧ idx.toNat = lastIdx c num.toNat ∧
      s.shrink c num orig = shrinkLoop c d.toNat d (some ((s.root :: ts).getD (c.tableNum num.toNat) 0)) idx s := by
  have hpos := perTable_pos c
  have ht32 : c.tableSizeBitlen.toNat < 32 := lt_of_le_of_lt hfits.table (by decide)
  by_cases hzero : num = 0
  · subst hzero
    have hnum : c.tableNum (0 : UInt32).toNat = 0 := by
      rw [Config.tableNum, UInt32.toNat_zero, zero_add]
      exact Nat.div_eq_of_lt (by omega)
    refine ⟨orig, c.tableBufferNum - 1, rfl, ?_, ?_⟩
    · have hone : (1 : UInt32) ≤ c.tableBufferNum := by
        rw [le_iff_toNat_le, hfits.toNat_tableBufferNum]
        exact hpos
      have hfull := lastIdx_full (c := c) (Nat.zero_mod _)
      rw [UInt32.toNat_sub_of_le _ _ hone, hfits.toNat_tableBufferNum, show (1 : UInt32).toNat = 1 from rfl, UInt32.toNat_zero]
      omega
    · rw [shrink, if_pos rfl, hnum]
      rfl
  · have hnum : 0 < num.toNat := pos_of_ne_zero fun heq => hzero (UInt32.toNat_inj.mp heq)
    have hpred : ∀ x : UInt32, 0 < x.toNat → (x - 1).toNat = x.toNat - 1 := fun x hx =>
      UInt32.toNat_sub_of_le _ _ (by rw [le_iff_toNat_le, show (1 : UInt32).toNat = 1 from rfl]; exact hx)
    obtain ⟨n, hn⟩ : ∃ n, num.toNat = n + 1 := ⟨num.toNat - 1, by omega⟩
    have hnum1 : (num - 1).toNat = n := by
      rw [hpred num hnum]
      omega
    have htables : c.tableNum num.toNat = n / c.perTable + 1 := by
      rw [Config.tableNum, hn, Nat.add_right_comm, Nat.add_sub_cancel, Nat.add_div_right _ hpos]
    refine ⟨orig - 1 - (num - 1), (num - 1) &&& (c.tableBufferNum - 1), ?_, ?_, ?_⟩
    · rw [UInt32.toNat_sub_of_le, hpred orig (by omega), hpred num hnum]
      · omega
      · rw [le_iff_toNat_le, hpred orig (by omega), hpred num hnum]
        omega
    · rw [Config.tableBufferNum, toNat_and_mask _ _ ht32, hnum1, hn, lastIdx_succ]
      rfl
    · have hwalk : walk s.mem ((num - 1) >>> c.tableSizeBitlen).toNat (next s.mem s.root) = some (ts.getD (n / c.perTable) 0) := by
        rw [toNat_shiftRight_of _ _ ht32, hnum1]
        exact walk_spec (chain_cons.mp h.laid.chain).2 (by unfold Config.perTable at htables; omega)
      rw [shrink, if_neg hzero, htables, getD_cons_succ]
      dsimp only
      rw [hwalk]

theorem kept_slots (h : Inv c s ts bs) {idx : ℕ} (hidx : idx = lastIdx c n) {r : ℕ} (hr : lastIdx c n + r < c.perTable)
    (hlen : n + r ≤ bs.length) :
    (List.range r).map (fun x => buffer s.mem ((s.root :: ts).getD (c.tableNum n) 0) (idx + 1 + x)) = (bs.drop n).take r := by
  rcases eq_zero_or_pos r with rfl | hrpos
  · simp
  have hlast := tableNum_lastIdx c n
  cases hk : c.tableNum n with
  | zero =>
    rw [hk] at hlast
    omega
  | succ j =>
    rw [hk, Nat.succ_mul] at hlast
    have hn : j * c.perTable + (lastIdx c n + 1) = n := by omega
    have hslots := row_eq h.laid.slots (j := j) (i := lastIdx c n + 1) (r := r) (by omega) (by omega)
    rwa [hn, ← hidx] at hslots

/-- **All that goes is in the last table that is kept.** -/
theorem shrink_within (h : Inv c s ts bs) (hfits : c.Fits) {d idx : UInt32} (hd : d.toNat = bs.length - n) (hidx : idx.toNat = lastIdx c n)
    (hlt : n < bs.length) (hin : bs.length ≤ c.tableNum n * c.perTable) (hall : ts.length ≤ c.tableNum n) :
    shrinkLoop c d.toNat d (some ((s.root :: ts).getD (c.tableNum n) 0)) idx s = some { s with heap := s.heap.freeAll (bs.drop n) } ∧
      Inv c { s with heap := s.heap.freeAll (bs.drop n) } (ts.take (c.tableNum n)) (bs.take n) := by
  have hlast := tableNum_lastIdx c n
  obtain ⟨num, idx', hnum, -, hloop⟩ := shrinkLoop_row (s := s) hfits (some ((s.root :: ts).getD (c.tableNum n) 0)) 0 d.toNat
    (le_refl d.toNat) (by omega : idx.toNat + d.toNat < c.perTable)
  have hzero : num = 0 := by
    apply UInt32.toNat_inj.mp
    rw [hnum, Nat.sub_self, UInt32.toNat_zero]
  rw [Nat.zero_add, getD_some, kept_slots h hidx (by omega) (by omega), take_of_length_le (by rw [length_drop]; omega),
    hzero] at hloop
  refine ⟨hloop, h.drop ?_ ?_⟩
  · rw [take_of_length_le hall]
    exact h.laid.take n
  · rw [drop_of_length_le hall, nil_append]

/-- **One table goes**, with its buffers, behind what is in the table before. -/
theorem shrink_across (h : Inv c s ts bs) (hfits : c.Fits) {d idx : UInt32} (hd : d.toNat = bs.length - n) (hidx : idx.toNat = lastIdx c n)
    (hout : c.tableNum n * c.perTable < bs.length) (hone : ts.length ≤ c.tableNum n + 1) : ∃ s',
      shrinkLoop c d.toNat d (some ((s.root :: ts).getD (c.tableNum n) 0)) idx s = some s' ∧ s'.root = s.root ∧
      Inv c s' (ts.take (c.tableNum n)) (bs.take n) ∧ ∀ p ∈ bs, ∀ a, p ≤ a → a < p + c.bufferSize.toNat → s'.mem a = s.mem a := by
  have hroom := h.laid.room
  have hlast := tableNum_lastIdx c n
  have hidxlt := lastIdx_lt c n
  have hslots := fun r => kept_slots h hidx (r := r)
  generalize c.tableNum n = k at *
  have hklt : k < ts.length := by
    by_contra hge
    have := Nat.mul_le_mul_right c.perTable (Nat.not_lt.mp hge)
    omega
  have hy : (s.root :: ts).getD k 0 ∈ s.root :: ts := getD_mem (by rw [length_cons]; omega)
  have hnext : next s.mem ((s.root :: ts).getD k 0) = some (ts.getD k 0) := by
    have hchain := h.laid.chain.next_getD 0 (i := k) (by rw [length_cons]; omega)
    rwa [getD_cons_succ] at hchain
  have hall : bs.length ≤ k * c.perTable + c.perTable := by
    rw [← Nat.succ_mul]
    exact hroom.trans (Nat.mul_le_mul_right _ hone)
  obtain ⟨num, idx', hnum, hidx', hloop⟩ := shrinkLoop_row (s := s) hfits (some ((s.root :: ts).getD k 0)) (d.toNat - (k * c.perTable - n))
    (k * c.perTable - n) (by omega : k * c.perTable - n ≤ d.toNat) (by omega : idx.toNat + (k * c.perTable - n) < c.perTable)
  rw [Nat.sub_add_cancel (by omega), getD_some, hslots _ (by omega) (by omega)] at hloop
  obtain ⟨f, hf⟩ : ∃ f, d.toNat - (k * c.perTable - n) = f + 1 := ⟨d.toNat - (k * c.perTable - n) - 1, by omega⟩
  have hne : num ≠ 0 := by
    rintro rfl
    rw [UInt32.toNat_zero] at hnum
    omega
  rw [hf, shrinkLoop_table (s := { s with heap := s.heap.freeAll ((bs.drop n).take (k * c.perTable - n)) }) hfits hne
    (by omega : idx'.toNat + 1 = c.perTable) (by omega : num.toNat ≤ c.perTable) hnext] at hloop
  have hlaid := h.laid.cut (h.sep hfits) hklt.le (show n ≤ k * c.perTable by omega)
  -- the buffers of the table that goes
  have hlastRow : (List.range num.toNat).map (buffer (store32 s.mem ((s.root :: ts).getD k 0) 0) (ts.getD k 0)) =
      bs.drop (k * c.perTable) := by
    have hrow := row_eq (h.laid.slots_store (h.sep hfits) hy (v := 0)) (j := k) (i := 0) (r := num.toNat) (by omega) (by omega)
    simp only [zero_add, add_zero] at hrow
    rw [hrow, take_of_length_le (by rw [length_drop]; omega)]
  have hlastTable : ts.drop k = [ts.getD k 0] := by
    rw [drop_eq_getElem_cons hklt, drop_of_length_le (by omega), getD_eq_getElem _ _ hklt]
  have hsplit : (bs.drop n).take (k * c.perTable - n) ++ bs.drop (k * c.perTable) = bs.drop n := by
    have hdrop : (bs.drop n).drop (k * c.perTable - n) = bs.drop (k * c.perTable) := by
      rw [drop_drop, Nat.add_sub_cancel' (by omega)]
    rw [← hdrop, take_append_drop]
  let xs := (bs.drop n).take (k * c.perTable - n) ++ (bs.drop (k * c.perTable)).reverse ++ [ts.getD k 0]
  have hdrop : Inv c { s with mem := store32 s.mem ((s.root :: ts).getD k 0) 0, heap := s.heap.freeAll xs } (ts.take k) (bs.take n) := by
    apply h.drop hlaid
    rw [hlastTable, ← hsplit]
    exact perm_append_comm.trans ((((reverse_perm _).append_left _)).append_left _)
  refine ⟨{ s with mem := store32 s.mem ((s.root :: ts).getD k 0) 0, heap := s.heap.freeAll xs }, ?_, rfl, hdrop, ?_⟩
  · rw [hloop, hlastRow]
    simp only [xs, Heap.freeAll_append]
    rfl
  · intro p hp a hlo hhi
    obtain ⟨hroot, htables⟩ := h.buffer_apart hfits hp
    refine same_store32 s.mem _ _ a ?_
    rcases mem_cons.mp hy with heq | ht
    · rw [heq]
      omega
    · rcases htables _ ht with hle | hle <;> omega

/-- **Giving back buffers** up to the end of a table, and at most one table. -/
theorem shrink_spec (h : Inv c s ts bs) (htight : Tight c ts bs) (hfits : c.Fits) {num orig : UInt32} (horig : orig.toNat = bs.length)
    (hlt : num.toNat < orig.toNat) (hone : ts.length ≤ c.tableNum num.toNat + 1) : ∃ s', s.shrink c num orig = some s' ∧
      s'.root = s.root ∧ Inv c s' (ts.take (c.tableNum num.toNat)) (bs.take num.toNat) ∧
      Tight c (ts.take (c.tableNum num.toNat)) (bs.take num.toNat) ∧
      ∀ p ∈ bs, ∀ a, p ≤ a → a < p + c.bufferSize.toNat → s'.mem a = s.mem a := by
  have hlast := tableNum_lastIdx c num.toNat
  have hk : c.tableNum num.toNat ≤ ts.length := by
    rw [htight.tables h.laid.room]
    exact Nat.div_le_div_right (by omega)
  obtain ⟨d, idx, hd, hidx', heq⟩ := shrink_eq h hfits hlt hk
  rw [horig] at hlt hd
  have htight' : Tight c (ts.take (c.tableNum num.toNat)) (bs.take num.toNat) := by
    rw [Tight, length_take, length_take, Nat.min_eq_left hk]
    omega
  rw [heq]
  by_cases hin : bs.length ≤ c.tableNum num.toNat * c.perTable
  · have hall : ts.length ≤ c.tableNum num.toNat := by
      by_contra hlt'
      have hmul : (c.tableNum num.toNat + 1) * c.perTable ≤ ts.length * c.perTable := Nat.mul_le_mul_right _ (by omega)
      rw [Nat.succ_mul] at hmul
      unfold Tight at htight
      omega
    obtain ⟨hloop, hinv⟩ := shrink_within h hfits hd hidx' hlt hin hall
    exact ⟨_, hloop, rfl, hinv, htight', fun _ _ _ _ _ => rfl⟩
  · obtain ⟨s', hloop, hroot, hinv, hsame⟩ := shrink_across h hfits hd hidx' (not_le.mp hin) hone
    exact ⟨s', hloop, hroot, hinv, htight', hsame⟩

/-! ### The end -/

/-- **Everything is given back.** -/
theorem finiLoop_spec (hfits : c.Fits) {table : Option ℕ} {f : ℕ} {num : UInt32} (hchain : Chain (next m) table ts)
    (hslots : ∀ i < bs.length, buffer m (ts.getD (i / c.perTable) 0) (i % c.perTable) = bs.getD i 0)
    (hroom : bs.length ≤ ts.length * c.perTable) (htight : Tight c ts bs) (hnum : num.toNat = bs.length) (hf : bs.length ≤ f) :
    ∃ xs, xs.Perm (ts ++ bs) ∧ finiLoop c m f num table w = some (w.freeAll xs) := by
  have hpos := perTable_pos c
  have hT := hfits.toNat_tableBufferNum
  have hTle := hfits.perTable_le
  induction ts generalizing table bs w f num with
  | nil =>
    obtain rfl : bs = [] := length_eq_zero_iff.mp (by simpa using hroom)
    obtain rfl : num = 0 := UInt32.toNat_inj.mp hnum
    refine ⟨[], .refl _, ?_⟩
    cases f <;> rfl
  | cons t ts ih =>
    obtain ⟨rfl, hnext⟩ := chain_cons.mp hchain
    unfold Tight at htight
    rw [length_cons, Nat.succ_mul] at hroom htight
    have hne : num ≠ 0 := by
      rintro rfl
      rw [UInt32.toNat_zero] at hnum
      omega
    obtain ⟨f, rfl⟩ : ∃ g, f = g + 1 := ⟨f - 1, by omega⟩
    have hmin : (min num c.tableBufferNum).toNat = min bs.length c.perTable := by
      rw [← hnum, ← hT]
      show (if num ≤ c.tableBufferNum then num else c.tableBufferNum).toNat = _
      split_ifs with hle
      · exact (Nat.min_eq_left (le_iff_toNat_le.mp hle)).symm
      · exact (Nat.min_eq_right (by rw [le_iff_toNat_le] at hle; omega)).symm
    have hint : min num c.tableBufferNum < 0x80000000 := by
      rw [lt_iff_toNat_lt, hmin, show (0x80000000 : UInt32).toNat = 2 ^ 31 from rfl]
      omega
    have hrow : (List.range (min bs.length c.perTable)).map (buffer m t) = bs.take c.perTable := by
      have hslots' := row_eq hslots (j := 0) (i := 0) (r := min bs.length c.perTable) (by omega) (by omega)
      simp only [Nat.zero_mul, zero_add, drop_zero] at hslots'
      rw [show buffer m t = fun x => buffer m ((t :: ts).getD 0 0) x from rfl, hslots', min_comm, ← take_take, take_length]
    have hrest : ∀ i < (bs.drop c.perTable).length, buffer m (ts.getD (i / c.perTable) 0) (i % c.perTable) =
        (bs.drop c.perTable).getD i 0 := by
      intro i hi
      rw [length_drop] at hi
      have hslot := hslots (i + c.perTable) (by omega)
      rw [Nat.add_div_right _ hpos, Nat.add_mod_right, getD_cons_succ] at hslot
      rw [hslot, getD_eq_getElem?_getD, getD_eq_getElem?_getD, getElem?_drop, add_comm]
    have hsub : (num - min num c.tableBufferNum).toNat = (bs.drop c.perTable).length := by
      rw [UInt32.toNat_sub_of_le _ _ (by rw [le_iff_toNat_le, hmin]; omega), hmin, length_drop]
      omega
    have hlen : (bs.drop c.perTable).length = bs.length - c.perTable := length_drop
    obtain ⟨xs, hperm, hloop⟩ := ih (w := (w.freeAll (bs.take c.perTable).reverse).free t) (f := f) hnext hrest (by omega)
      (by unfold Tight; omega) hsub (by omega)
    refine ⟨(bs.take c.perTable).reverse ++ t :: xs, ?_, ?_⟩
    · calc ((bs.take c.perTable).reverse ++ t :: xs).Perm (bs.take c.perTable ++ t :: (ts ++ bs.drop c.perTable)) :=
            (reverse_perm _).append (hperm.cons t)
        _ = bs.take c.perTable ++ (t :: ts ++ bs.drop c.perTable) := rfl
        List.Perm _ (t :: ts ++ (bs.take c.perTable ++ bs.drop c.perTable)) := by
            rw [← append_assoc, ← append_assoc]
            exact perm_append_comm.append_right _
        _ = t :: ts ++ bs := by rw [take_append_drop]
    · rw [finiLoop, if_neg hne, if_pos hint]
      dsimp only
      rw [freeBuffers_eq, hmin, getD_some, hrow, hloop, Heap.freeAll_append]
      rfl

end Dynarr
end Vsf
