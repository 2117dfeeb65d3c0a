/-
# Arrays that grow and shrink

A dynamic array keeps its items in buffers of `2 ^ item_num_bitlen` and the buffers in linked tables
of `2 ^ table_size_bitlen`. `vsf_dynarr_set_size` adds or gives back buffers one by one. Tables and
links are in the memory, so a write behind a table is a write to something else. The tables in use
hold the buffers in order (`Laid`), and are what was allocated (`Inv`).
-/
import Mathlib
import Vsf.Buffer.Bittool
import Vsf.Lib.Chain
import Vsf.Lib.Heap
import Vsf.Lib.System

namespace Vsf

open ByteMem Bittool Linked Malloc List

namespace Dynarr

/-- What a user sets. -/
structure Config where
  itemSize : UInt32
  itemNumBitlen : UInt32
  tableSizeBitlen : UInt32

/-- `dynarr->item_size`, as `vsf_dynarr_init` leaves it. -/
def Config.stride (c : Config) : UInt32 := (c.itemSize + 3) &&& ~~~3

def Config.bufferItemNum (c : Config) : UInt32 := 1 <<< c.itemNumBitlen

def Config.tableBufferNum (c : Config) : UInt32 := 1 <<< c.tableSizeBitlen

def Config.bufferSize (c : Config) : UInt32 := c.bufferItemNum * c.stride

/-- `tblsize`. -/
def Config.tableSize (c : Config) : UInt32 := (4 : UInt32) + c.tableBufferNum <<< 2

/-- The buffers that `n` items need. -/
def Config.bufferNum (c : Config) (n : UInt32) : UInt32 := (n + c.bufferItemNum - 1) >>> c.itemNumBitlen

inductive Err
  | none
  | notEnoughResources
deriving DecidableEq

end Dynarr

open Dynarr

/-- `struct vsf_dynarr_t`, whose `table` is at `root`, with the memory. -/
structure Dynarr where
  root : ℕ
  length : UInt32
  mem : Mem
  heap : Heap

namespace Dynarr

/-! ### Tables -/

/-- `list.next` of the table at `p`. -/
def next (m : Mem) (p : ℕ) : Option ℕ := if load32 m p = 0 then none else some (load32 m p)

/-- Where `buffer[i]` of the table at `p` is. -/
def slot (p i : ℕ) : ℕ := p + 4 + 4 * i

/-- `buffer[i]` of the table at `p`. -/
def buffer (m : Mem) (p i : ℕ) : ℕ := load32 m (slot p i)

/-- `while (table_idx--) table = table->list.next`. -/
def walk (m : Mem) : ℕ → Option ℕ → Option ℕ
  | 0, p => p
  | n + 1, p => walk m n (p.bind (next m))

/-- `buffer[n - 1]` to `buffer[0]` are given back. -/
def freeBuffers (m : Mem) (p : ℕ) : ℕ → Heap → Heap
  | 0, w => w
  | n + 1, w => freeBuffers m p n (w.free (buffer m p n))

/-- `memset` to 0. -/
def clear (m : Mem) (p n : ℕ) : Mem := fun i => if p ≤ i ∧ i < p + n then 0 else m i

variable (c : Config) (A : Allocator) (s : Dynarr)

/-- `vsf_dynarr_get`. -/
def get (pos : UInt32) : Option ℕ :=
  if pos < s.length then
    let itemIdx := pos &&& (c.bufferItemNum - 1)
    let pos := pos >>> c.itemNumBitlen
    let bufferIdx := pos &&& (c.tableBufferNum - 1)
    let tableIdx := pos >>> c.tableSizeBitlen
    (walk s.mem tableIdx.toNat (next s.mem s.root)).map fun table =>
      (buffer s.mem table bufferIdx.toNat + 4 * ((itemIdx * c.stride) >>> 2).toNat) % 2 ^ 32
  else none

/-! ### Growing -/

/-- The loop that adds `buffer_num` buffers; `sllist_insert` sets the link in front. -/
def growLoop : ℕ → Option ℕ → UInt32 → Dynarr → Err × Dynarr
  | 0, _, _, s => (.none, s)
  | n + 1, table, bufferIdx, s =>
    let bufferIdx := bufferIdx + 1
    if bufferIdx = c.tableBufferNum then
      match s.heap.malloc A c.tableSize.toNat with
      | (none, heap) => (.notEnoughResources, { s with heap })
      | (some newTable, heap) =>
        let mem := clear s.mem newTable c.tableSize.toNat
        match heap.malloc A c.bufferSize.toNat with
        | (none, heap) => (.notEnoughResources, { s with mem, heap := heap.free newTable })
        | (some newBuffer, heap) =>
          let mem := store32 mem (table.getD s.root) newTable
          let mem := store32 mem (slot newTable 0) newBuffer
          growLoop n (some newTable) 0 { s with mem, heap, length := s.length + c.bufferItemNum }
    else
      match s.heap.malloc A c.bufferSize.toNat with
      | (none, heap) => (.notEnoughResources, { s with heap })
      | (some newBuffer, heap) =>
        let mem := store32 s.mem (slot (table.getD 0) bufferIdx.toNat) newBuffer
        growLoop n table bufferIdx { s with mem, heap, length := s.length + c.bufferItemNum }

/-- The branch of `vsf_dynarr_set_size` for more buffers. -/
def grow (num orig : UInt32) : Err × Dynarr :=
  let table := next s.mem s.root
  if orig = 0 then growLoop c A num.toNat table (c.tableBufferNum - 1) s
  else
    let orig := orig - 1
    let num := num - 1
    growLoop c A (num - orig).toNat (walk s.mem (orig >>> c.tableSizeBitlen).toNat table) (orig &&& (c.tableBufferNum - 1)) s

/-! ### Shrinking -/

/-- The loop that gives back `buffer_num` buffers. -/
def shrinkLoop : ℕ → UInt32 → Option ℕ → UInt32 → Dynarr → Option Dynarr
  | 0, num, _, _, s => if num = 0 then some s else none
  | f + 1, num, table, bufferIdx, s =>
    if num = 0 then some s
    else
      let bufferIdx := bufferIdx + 1
      if bufferIdx = c.tableBufferNum then
        let newTable := (next s.mem (table.getD 0)).getD 0
        let mem := store32 s.mem (table.getD 0) 0
        let n := min num c.tableBufferNum
        let heap := freeBuffers mem newTable n.toNat s.heap
        shrinkLoop f (num - n) (next mem newTable) bufferIdx { s with mem, heap := heap.free newTable }
      else
        shrinkLoop f (num - 1) table bufferIdx { s with heap := s.heap.free (buffer s.mem (table.getD 0) bufferIdx.toNat) }

/-- The branch for fewer buffers; when all go, `&dynarr->table` is the table. -/
def shrink (num orig : UInt32) : Option Dynarr :=
  if num = 0 then shrinkLoop c orig.toNat orig (some s.root) (c.tableBufferNum - 1) s
  else
    let orig := orig - 1
    let num := num - 1
    shrinkLoop c (orig - num).toNat (orig - num) (walk s.mem (num >>> c.tableSizeBitlen).toNat (next s.mem s.root))
      (num &&& (c.tableBufferNum - 1)) s

/-- `vsf_dynarr_set_size`. -/
def setSize (size : UInt32) : Option (Err × Dynarr) :=
  let num := c.bufferNum size
  let orig := c.bufferNum s.length
  let s := { s with length := orig * c.bufferItemNum }
  if orig < num then
    match s.grow c A num orig with
    | (.none, s) => some (.none, { s with length := size })
    | r => some r
  else if num < orig then (s.shrink c num orig).map fun s => (.none, { s with length := size })
  else some (.none, { s with length := size })

/-! ### The end -/

/-- The loop of `vsf_dynarr_fini`. Its counter is an `int`. -/
def finiLoop (m : Mem) : ℕ → UInt32 → Option ℕ → Heap → Option Heap
  | 0, num, _, w => if num = 0 then some w else none
  | f + 1, num, table, w =>
    if num = 0 then some w
    else
      let n := if min num c.tableBufferNum < 0x80000000 then min num c.tableBufferNum else 0
      finiLoop m f (num - n) (next m (table.getD 0)) ((freeBuffers m (table.getD 0) n.toNat w).free (table.getD 0))

/-- `vsf_dynarr_fini`. -/
def fini : Option Dynarr :=
  (finiLoop c s.mem (c.bufferNum s.length).toNat (c.bufferNum s.length) (next s.mem s.root) s.heap).map fun heap =>
    { s with heap, mem := store32 s.mem s.root 0, length := 0 }

/-- After `vsf_dynarr_init`; `dynarr->table` has a place of its own. -/
def init (root : ℕ) (m : Mem) : Dynarr := { root, length := 0, mem := store32 m root 0, heap := ⟨[⟨root, 4⟩], 0, 0⟩ }

/-! ### Runs -/

/-- The size is set, or an item is written to. -/
inductive Op
  | setSize (size : UInt32)
  | use (pos : UInt32) (a : ℕ) (v : UInt8)

/-- What is left of an operation, if its loops end. -/
def exec : Op → Option Dynarr
  | .setSize size => (s.setSize c A size).map Prod.snd
  | .use _ a v => some { s with mem := Function.update s.mem a v }

/-- A write is to an item. -/
def Legal : Op → Prop
  | .setSize _ => True
  | .use pos a _ => ∃ q, s.get c pos = some q ∧ q ≤ a ∧ a < q + c.itemSize.toNat

/-- All runs, with an allocator. -/
def system : System Dynarr Op where
  start s := ∃ root m, 0 < root ∧ 4 ∣ root ∧ root + 4 ≤ 2 ^ 32 ∧ s = init root m
  step s op s' := s.Legal c op ∧ s.exec c A op = some s'

/-! ### Numbers -/

/-- The widths that the code has room for. -/
structure Config.Fits (c : Config) : Prop where
  items : c.itemNumBitlen.toNat < 32
  table : c.tableSizeBitlen.toNat ≤ 29
  stride : 0 < c.stride.toNat
  buffer : 2 ^ c.itemNumBitlen.toNat * c.stride.toNat < 2 ^ 32

/-- The items of a buffer, and the buffers of a table. -/
def Config.perBuffer (c : Config) : ℕ := 2 ^ c.itemNumBitlen.toNat

def Config.perTable (c : Config) : ℕ := 2 ^ c.tableSizeBitlen.toNat

variable {c : Config} {A : Allocator} {s s' : Dynarr} {m m' : Mem} {root p q t nt nb k n : ℕ} {ts bs : List ℕ} {w : Heap}

theorem toNat_one_shiftLeft_of (x : UInt32) (h : x.toNat < 32) : (1 <<< x : UInt32).toNat = 2 ^ x.toNat := by
  rw [← toNat_one_shiftLeft h, UInt32.ofNat_toNat]

theorem toNat_shiftRight_of (x y : UInt32) (h : y.toNat < 32) : (x >>> y).toNat = x.toNat / 2 ^ y.toNat := by
  rw [UInt32.toNat_shiftRight, Nat.mod_eq_of_lt h, Nat.shiftRight_eq_div_pow]

theorem toNat_and_mask (x y : UInt32) (h : y.toNat < 32) : (x &&& (1 <<< y - 1)).toNat = x.toNat % 2 ^ y.toNat := by
  have hone := toNat_one_shiftLeft_of y h
  have hpos : 0 < 2 ^ y.toNat := Nat.two_pow_pos _
  have hle : (1 : UInt32) ≤ 1 <<< y := by
    rw [UInt32.le_iff_toNat_le, hone]
    exact hpos
  rw [UInt32.toNat_and, UInt32.toNat_sub_of_le _ _ hle, hone]
  exact Nat.and_two_pow_sub_one_eq_mod _ _

theorem perBuffer_pos (c : Config) : 0 < c.perBuffer := Nat.two_pow_pos _

theorem perTable_pos (c : Config) : 0 < c.perTable := Nat.two_pow_pos _

namespace Config.Fits

theorem perTable_le (h : c.Fits) : c.perTable ≤ 2 ^ 29 := Nat.pow_le_pow_right (by decide) h.table

theorem toNat_bufferItemNum (h : c.Fits) : c.bufferItemNum.toNat = c.perBuffer := toNat_one_shiftLeft_of _ h.items

theorem toNat_tableBufferNum (h : c.Fits) : c.tableBufferNum.toNat = c.perTable :=
  toNat_one_shiftLeft_of _ (lt_of_le_of_lt h.table (by decide))

theorem toNat_bufferSize (h : c.Fits) : c.bufferSize.toNat = c.perBuffer * c.stride.toNat := by
  rw [bufferSize, UInt32.toNat_mul, h.toNat_bufferItemNum]
  exact Nat.mod_eq_of_lt h.buffer

theorem toNat_tableSize (h : c.Fits) : c.tableSize.toNat = 4 + 4 * c.perTable := by
  have hle := h.perTable_le
  rw [tableSize, UInt32.toNat_add, UInt32.toNat_shiftLeft, h.toNat_tableBufferNum, show (2 : UInt32).toNat % 32 = 2 from rfl,
    show (4 : UInt32).toNat = 4 from rfl, Nat.shiftLeft_eq]
  omega

theorem bufferSize_pos (h : c.Fits) : 0 < c.bufferSize.toNat := by
  rw [h.toNat_bufferSize]
  exact mul_pos (perBuffer_pos c) h.stride

end Config.Fits

/-! ### Tables in the memory -/

theorem load32_congr {a : ℕ} (h : ∀ i, a ≤ i → i < a + 4 → m' i = m i) : load32 m' a = load32 m a := by
  have hsame : Same (fun i => m' i ≠ m i) m m' := fun i hi => not_not.mp hi
  exact hsame.load32 fun i hlo hhi => not_not.mpr (h i hlo hhi)

theorem next_congr (h : ∀ i, p ≤ i → i < p + 4 → m' i = m i) : next m' p = next m p := by
  rw [next, next, load32_congr h]

/-- Behind the link `root` are the tables `ts`, with the buffers `bs` in their slots. -/
structure Laid (c : Config) (m : Mem) (root : ℕ) (ts bs : List ℕ) : Prop where
  chain : Chain (next m) (some root) (root :: ts)
  room : bs.length ≤ ts.length * c.perTable
  slots : ∀ i < bs.length, buffer m (ts.getD (i / c.perTable) 0) (i % c.perTable) = bs.getD i 0

/-- The tables and the first link lie apart. -/
structure Sep (c : Config) (root : ℕ) (ts : List ℕ) : Prop where
  root : ∀ t ∈ ts, root + 4 ≤ t ∨ t + (4 + 4 * c.perTable) ≤ root
  tables : ∀ t ∈ ts, ∀ t' ∈ ts, t ≠ t' → t + (4 + 4 * c.perTable) ≤ t' ∨ t' + (4 + 4 * c.perTable) ≤ t

variable {xs : List ℕ} {i : ℕ} {table : Option ℕ} {idx : UInt32}

theorem getD_mem (h : i < xs.length) : xs.getD i 0 ∈ xs := by
  rw [getD_eq_getElem _ _ h]
  exact getElem_mem h

theorem slot_le {j : ℕ} (h : j < c.perTable) : p + 4 ≤ slot p j ∧ slot p j + 4 ≤ p + (4 + 4 * c.perTable) := by
  unfold slot
  omega

theorem Sep.link (h : Sep c root ts) {x t j : ℕ} (hx : x ∈ root :: ts) (ht : t ∈ ts) (hj : j < c.perTable) :
    x + 4 ≤ slot t j ∨ slot t j + 4 ≤ x := by
  have hslot := slot_le (p := t) hj
  rcases mem_cons.mp hx with rfl | hx
  · rcases h.root t ht with hle | hle <;> omega
  · by_cases heq : x = t
    · subst heq
      exact .inl hslot.1
    · rcases h.tables x hx t ht heq with hle | hle <;> omega

theorem Sep.links (h : Sep c root ts) {x y : ℕ} (hx : x ∈ root :: ts) (hy : y ∈ root :: ts) (hne : x ≠ y) :
    x + 4 ≤ y ∨ y + 4 ≤ x := by
  rcases mem_cons.mp hx with rfl | hxt
  · have hyt : y ∈ ts := (mem_cons.mp hy).resolve_left hne.symm
    rcases h.root y hyt with hle | hle <;> omega
  · rcases mem_cons.mp hy with rfl | hyt
    · rcases h.root x hxt with hle | hle <;> omega
    · rcases h.tables x hxt y hyt hne with hle | hle <;> omega

theorem Sep.slots (h : Sep c root ts) {t t' j j' : ℕ} (ht : t ∈ ts) (ht' : t' ∈ ts) (hj : j < c.perTable) (hj' : j' < c.perTable)
    (hne : t = t' → j ≠ j') : slot t j + 4 ≤ slot t' j' ∨ slot t' j' + 4 ≤ slot t j := by
  have hslot := slot_le (p := t) hj
  have hslot' := slot_le (p := t') hj'
  by_cases heq : t = t'
  · subst heq
    unfold slot
    omega
  · rcases h.tables t ht t' ht' heq with hle | hle <;> omega

theorem table_mem (hi : i < ts.length * c.perTable) : ts.getD (i / c.perTable) 0 ∈ ts :=
  getD_mem (Nat.div_lt_of_lt_mul (by rwa [mul_comm]))

theorem place_ne (hnodup : ts.Nodup) {i j : ℕ} (hi : i < ts.length * c.perTable) (hj : j < ts.length * c.perTable) (hne : i ≠ j)
    (heq : ts.getD (i / c.perTable) 0 = ts.getD (j / c.perTable) 0) : i % c.perTable ≠ j % c.perTable := by
  intro hmod
  have hi' : i / c.perTable < ts.length := Nat.div_lt_of_lt_mul (by rwa [mul_comm])
  have hj' : j / c.perTable < ts.length := Nat.div_lt_of_lt_mul (by rwa [mul_comm])
  rw [getD_eq_getElem _ _ hi', getD_eq_getElem _ _ hj'] at heq
  have hdiv : i / c.perTable = j / c.perTable := hnodup.getElem_inj_iff.mp heq
  have hdi := Nat.div_add_mod i c.perTable
  have hdj := Nat.div_add_mod j c.perTable
  rw [hdiv, hmod] at hdi
  omega

namespace Laid

/-- What is not written to the tables leaves them as they are. -/
theorem congr (h : Laid c m root ts bs) (hroot : ∀ i, root ≤ i → i < root + 4 → m' i = m i)
    (hts : ∀ t ∈ ts, ∀ i, t ≤ i → i < t + (4 + 4 * c.perTable) → m' i = m i) : Laid c m' root ts bs := by
  refine ⟨h.chain.congr ?_, h.room, ?_⟩
  · intro x hx
    rcases mem_cons.mp hx with rfl | hx
    · exact next_congr hroot
    · exact next_congr fun i hlo hhi => hts x hx i hlo (by omega)
  · intro i hi
    have hslot := slot_le (p := ts.getD (i / c.perTable) 0) (Nat.mod_lt i (perTable_pos c))
    have ht := table_mem (lt_of_lt_of_le hi h.room)
    rw [← h.slots i hi]
    exact load32_congr fun a hlo hhi => hts _ ht a (by omega) (by omega)

theorem take (h : Laid c m root ts bs) (n : ℕ) : Laid c m root ts (bs.take n) := by
  refine ⟨h.chain, (length_take_le' _ _).trans h.room, ?_⟩
  intro i hi
  rw [length_take] at hi
  rw [h.slots i (by omega), getD_eq_getElem?_getD, getD_eq_getElem?_getD, getElem?_take_of_lt (by omega)]

/-- **One more buffer**, in the next slot. -/
theorem snoc (h : Laid c m root ts bs) (hsep : Sep c root ts) (hroom : bs.length < ts.length * c.perTable) (hnb : nb < 2 ^ 32) :
    Laid c (store32 m (slot (ts.getD (bs.length / c.perTable) 0) (bs.length % c.perTable)) nb) root ts (bs ++ [nb]) := by
  have hpos := perTable_pos c
  have ht := table_mem hroom
  have hmod := Nat.mod_lt bs.length hpos
  refine ⟨h.chain.congr ?_, ?_, ?_⟩
  · intro x hx
    have happart := hsep.link hx ht hmod
    exact next_congr fun i hlo hhi => same_store32 m _ _ i (by omega)
  · rw [length_append, length_singleton]
    exact hroom
  · intro i hi
    rw [length_append, length_singleton] at hi
    rcases Nat.lt_succ_iff_lt_or_eq.mp hi with hlt | rfl
    · have hi' : i < ts.length * c.perTable := hlt.trans hroom
      have happart := hsep.slots (table_mem hi') ht (Nat.mod_lt i hpos) hmod
        (place_ne (nodup_cons.mp h.chain.nodup).2 hi' hroom hlt.ne)
      rw [getD_append _ _ _ _ hlt, ← h.slots i hlt]
      exact load32_congr fun a hlo hhi => same_store32 m _ _ a (by omega)
    · rw [getD_append_right _ _ _ _ le_rfl, Nat.sub_self]
      exact load32_store32 m _ hnb

theorem next_store (hsep : Sep c root ts) {x y v : ℕ} (hx : x ∈ root :: ts) (hy : y ∈ root :: ts) (hv : v < 2 ^ 32) :
    next (store32 m y v) x = Function.update (next m) y (if v = 0 then none else some v) x := by
  by_cases heq : x = y
  · subst heq
    rw [Function.update_self, next, load32_store32 m x hv]
  · have happart := hsep.links hx hy heq
    rw [Function.update_of_ne heq]
    exact next_congr fun i hlo hhi => same_store32 m _ _ i (by omega)

theorem slots_store (h : Laid c m root ts bs) (hsep : Sep c root ts) {y v : ℕ} (hy : y ∈ root :: ts) :
    ∀ i < bs.length, buffer (store32 m y v) (ts.getD (i / c.perTable) 0) (i % c.perTable) = bs.getD i 0 := by
  intro i hi
  have happart := hsep.link hy (table_mem (lt_of_lt_of_le hi h.room)) (Nat.mod_lt i (perTable_pos c))
  rw [← h.slots i hi]
  exact load32_congr fun a hlo hhi => same_store32 m _ _ a (by omega)

/-- **One more table**, cleared, behind the last one. -/
theorem link (h : Laid c m root ts bs) (hsep : Sep c root (ts ++ [nt])) (hout : nt ∉ ts) (hpos : 0 < nt) (hlt : nt < 2 ^ 32) :
    Laid c (store32 (clear m nt (4 + 4 * c.perTable)) (ts.getLast?.getD root) nt) root (ts ++ [nt]) bs := by
  have hnt : nt ∈ ts ++ [nt] := by simp
  have hclear : ∀ i, i < nt ∨ nt + (4 + 4 * c.perTable) ≤ i → clear m nt (4 + 4 * c.perTable) i = m i :=
    fun i hi => if_neg (by omega)
  have h0 : Laid c (clear m nt (4 + 4 * c.perTable)) root ts bs := by
    refine h.congr (fun i hlo hhi => hclear i ?_) fun t ht i hlo hhi => hclear i ?_
    · rcases hsep.root nt hnt with hle | hle <;> omega
    · have hne : t ≠ nt := by
        rintro rfl
        exact hout ht
      rcases hsep.tables t (mem_append_left _ ht) nt hnt hne with hle | hle <;> omega
  obtain ⟨as, y, hsplit⟩ : ∃ as y, root :: ts = as ++ [y] := ⟨_, _, (dropLast_append_getLast (cons_ne_nil root ts)).symm⟩
  have hlast : ts.getLast?.getD root = y := by
    have hy : (root :: ts).getLast? = some y := by rw [hsplit, getLast?_concat]
    rw [getLast?_cons] at hy
    exact Option.some.inj hy
  have hmem : ∀ x ∈ root :: ts, x ∈ root :: (ts ++ [nt]) := fun x hx => mem_append_left [nt] hx
  have hy : y ∈ root :: (ts ++ [nt]) := hmem y (by rw [hsplit]; simp)
  have hend : next (clear m nt (4 + 4 * c.perTable)) nt = none := by
    have hzero : load32 (clear m nt (4 + 4 * c.perTable)) nt = load32 (fun _ => 0) nt :=
      load32_congr fun i hlo hhi => if_pos (by omega)
    rw [next, hzero]
    rfl
  rw [hlast]
  refine ⟨?_, ?_, ?_⟩
  · have hchain := h0.chain
    rw [hsplit] at hchain
    have hne : y ≠ nt := by
      intro heq
      have hy' : nt ∈ root :: ts := by
        rw [hsplit, ← heq]
        simp
      rcases mem_cons.mp hy' with heq | ht
      · rcases hsep.root nt hnt with hle | hle <;> omega
      · exact hout ht
    have hsplice : Chain (Function.update (next (clear m nt (4 + 4 * c.perTable))) y (some nt)) (some root) (as ++ y :: [nt]) :=
      hchain.splice (v := some nt) ⟨rfl, hend⟩ (by simpa using hne)
    rw [show as ++ y :: [nt] = root :: (ts ++ [nt]) by rw [← cons_append, hsplit]; simp] at hsplice
    refine hsplice.congr fun x hx => ?_
    rw [next_store hsep hx hy hlt, if_neg (by omega)]
  · rw [length_append]
    exact h.room.trans (Nat.mul_le_mul_right _ (Nat.le_add_right _ _))
  · intro i hi
    have hdiv : i / c.perTable < ts.length := Nat.div_lt_of_lt_mul (by rw [mul_comm]; exact lt_of_lt_of_le hi h.room)
    have hget : (ts ++ [nt]).getD (i / c.perTable) 0 = ts.getD (i / c.perTable) 0 := getD_append _ _ _ _ hdiv
    have happart := hsep.link hy (mem_append_left _ (getD_mem hdiv)) (Nat.mod_lt i (perTable_pos c))
    rw [hget, ← h0.slots i hi]
    exact load32_congr fun a hlo hhi => same_store32 _ _ _ a (by omega)

/-- **The tables from one on are cut off.** -/
theorem cut (h : Laid c m root ts bs) (hsep : Sep c root ts) (hk : k ≤ ts.length) (hn : n ≤ k * c.perTable) :
    Laid c (store32 m ((root :: ts).getD k 0) 0) root (ts.take k) (bs.take n) := by
  have hk' : k < (root :: ts).length := by
    rw [length_cons]
    omega
  have hy : (root :: ts).getD k 0 ∈ root :: ts := getD_mem hk'
  have hsplit : (root :: ts).take k ++ (root :: ts).getD k 0 :: (root :: ts).drop (k + 1) = root :: ts := by
    rw [getD_eq_getElem _ _ hk', getElem_cons_drop, take_append_drop]
  have hnew : (root :: ts).take k ++ [(root :: ts).getD k 0] = root :: ts.take k := by
    rw [getD_eq_getElem _ _ hk', take_append_getElem, take_succ_cons]
  refine ⟨?_, ?_, ?_⟩
  · have hchain := h.chain
    rw [← hsplit] at hchain
    have hsplice : Chain (Function.update (next m) ((root :: ts).getD k 0) none) (some root)
        ((root :: ts).take k ++ [(root :: ts).getD k 0]) := hchain.splice (v := none) rfl (by simp)
    rw [hnew] at hsplice
    refine hsplice.congr fun x hx => ?_
    have hx' : x ∈ root :: ts := by
      rcases mem_cons.mp hx with rfl | hx
      · exact mem_cons_self
      · exact mem_cons_of_mem _ (mem_of_mem_take hx)
    rw [next_store hsep hx' hy (by decide), if_pos rfl]
  · rw [length_take, length_take, min_eq_left hk]
    omega
  · intro i hi
    have hi' := hi
    rw [length_take] at hi'
    have hdiv : i / c.perTable < k := Nat.div_lt_of_lt_mul (by rw [mul_comm]; omega)
    have hget : (ts.take k).getD (i / c.perTable) 0 = ts.getD (i / c.perTable) 0 := by
      rw [getD_eq_getElem?_getD, getD_eq_getElem?_getD, getElem?_take_of_lt hdiv]
    rw [hget]
    exact ((h.take n).slots_store hsep hy) i hi

end Laid

theorem walk_spec {p : Option ℕ} (h : Chain (next m) p xs) (hk : k < xs.length) : walk m k p = some (xs.getD k 0) := by
  induction k generalizing p xs with
  | zero =>
    cases xs with
    | nil => cases hk
    | cons x xs => exact (chain_cons.mp h).1
  | succ k ih =>
    cases xs with
    | nil => cases hk
    | cons x xs =>
      obtain ⟨rfl, hnext⟩ := chain_cons.mp h
      exact ih hnext (Nat.lt_of_succ_lt_succ hk)

/-! ### Blocks -/

/-- The tables and buffers that were allocated are those of the array. -/
structure Inv (c : Config) (s : Dynarr) (ts bs : List ℕ) : Prop where
  laid : Laid c s.mem s.root ts bs
  ok : s.heap.Ok
  blocks : ∀ b, b ∈ s.heap.live ↔
    b = ⟨s.root, 4⟩ ∨ (∃ t ∈ ts, b = ⟨t, c.tableSize.toNat⟩) ∨ ∃ p ∈ bs, b = ⟨p, c.bufferSize.toNat⟩
  nodup : (s.root :: (ts ++ bs)).Nodup
  once : s.heap.strays = 0

namespace Inv

theorem root_block (h : Inv c s ts bs) : ⟨s.root, 4⟩ ∈ s.heap.live := (h.blocks _).mpr (.inl rfl)

theorem table_block (h : Inv c s ts bs) (ht : t ∈ ts) : ⟨t, c.tableSize.toNat⟩ ∈ s.heap.live :=
  (h.blocks _).mpr (.inr (.inl ⟨t, ht, rfl⟩))

theorem buffer_block (h : Inv c s ts bs) (hp : p ∈ bs) : ⟨p, c.bufferSize.toNat⟩ ∈ s.heap.live :=
  (h.blocks _).mpr (.inr (.inr ⟨p, hp, rfl⟩))

theorem sep (h : Inv c s ts bs) (hfits : c.Fits) : Sep c s.root ts := by
  obtain ⟨hroot, -⟩ := nodup_cons.mp h.nodup
  constructor
  · intro t ht
    have happart := h.ok.apart_of_ne h.root_block (h.table_block ht) (by
      rintro rfl
      exact hroot (mem_append_left _ ht))
    rwa [Block.Apart, hfits.toNat_tableSize] at happart
  · intro t ht t' ht' hne
    have happart := h.ok.apart_of_ne (h.table_block ht) (h.table_block ht') hne
    rwa [Block.Apart, hfits.toNat_tableSize] at happart

theorem buffer_apart (h : Inv c s ts bs) (hfits : c.Fits) (hp : p ∈ bs) :
    (s.root + 4 ≤ p ∨ p + c.bufferSize.toNat ≤ s.root) ∧
      ∀ t ∈ ts, t + (4 + 4 * c.perTable) ≤ p ∨ p + c.bufferSize.toNat ≤ t := by
  obtain ⟨hroot, hnodup⟩ := nodup_cons.mp h.nodup
  constructor
  · refine h.ok.apart_of_ne h.root_block (h.buffer_block hp) ?_
    rintro rfl
    exact hroot (mem_append_right _ hp)
  · intro t ht
    have happart := h.ok.apart_of_ne (h.table_block ht) (h.buffer_block hp) ((nodup_append.mp hnodup).2.2 t ht p hp)
    rwa [Block.Apart, hfits.toNat_tableSize] at happart

theorem of_heap (h : Inv c s ts bs) {l : UInt32} (hlaid : Laid c m s.root ts bs) (hok : w.Ok) (hlive : ∀ b, b ∈ w.live ↔ b ∈ s.heap.live)
    (honce : w.strays = 0) : Inv c { s with length := l, mem := m, heap := w } ts bs :=
  ⟨hlaid, hok, fun b => (hlive b).trans (h.blocks b), h.nodup, honce⟩

theorem fresh (h : Inv c s ts bs) {size : ℕ} (hfits : c.Fits) (hpick : A.pick s.heap.calls s.heap.live size = some n) (hsize : 0 < size) :
    n ∉ s.root :: (ts ++ bs) := by
  intro hmem
  have htable : 0 < c.tableSize.toNat := by
    rw [hfits.toNat_tableSize]
    omega
  obtain ⟨b, hb, rfl, hpos⟩ : ∃ b ∈ s.heap.live, b.addr = n ∧ 0 < b.size := by
    rcases mem_cons.mp hmem with rfl | hmem
    · exact ⟨_, h.root_block, rfl, Nat.succ_pos 3⟩
    · rcases mem_append.mp hmem with ht | hp
      · exact ⟨_, h.table_block ht, rfl, htable⟩
      · exact ⟨_, h.buffer_block hp, rfl, hfits.bufferSize_pos⟩
  have happart := A.apart hpick b hb
  rcases happart with hle | hle <;> dsimp only at hle <;> omega

/-- **A buffer is added** in the next slot of a table. -/
theorem snoc (h : Inv c s ts bs) (hfits : c.Fits) (hroom : bs.length < ts.length * c.perTable) {l : UInt32}
    (hpick : A.pick s.heap.calls s.heap.live c.bufferSize.toNat = some nb) :
    Inv c { s with
      length := l
      mem := store32 s.mem (slot (ts.getD (bs.length / c.perTable) 0) (bs.length % c.perTable)) nb
      heap := { s.heap with live := ⟨nb, c.bufferSize.toNat⟩ :: s.heap.live, calls := s.heap.calls + 1 } } ts (bs ++ [nb]) := by
  have hpos := hfits.bufferSize_pos
  obtain ⟨-, -, hle⟩ := A.inside hpick
  have hfresh := h.fresh hfits hpick hpos
  refine ⟨h.laid.snoc (h.sep hfits) hroom (by omega), h.ok.malloc hpos hpick, ?_, ?_, h.once⟩
  · intro b
    show b ∈ (⟨nb, c.bufferSize.toNat⟩ : Block) :: s.heap.live ↔ _
    rw [mem_cons, h.blocks]
    simp only [mem_append, mem_singleton]
    constructor
    · rintro (rfl | rfl | ht | ⟨p, hp, rfl⟩)
      · exact .inr (.inr ⟨nb, .inr rfl, rfl⟩)
      · exact .inl rfl
      · exact .inr (.inl ht)
      · exact .inr (.inr ⟨p, .inl hp, rfl⟩)
    · rintro (rfl | ht | ⟨p, hp | rfl, rfl⟩)
      · exact .inr (.inl rfl)
      · exact .inr (.inr (.inl ht))
      · exact .inr (.inr (.inr ⟨p, hp, rfl⟩))
      · exact .inl rfl
  · show (s.root :: (ts ++ (bs ++ [nb]))).Nodup
    rw [← append_assoc, ← cons_append]
    exact nodup_append.mpr ⟨h.nodup, nodup_singleton nb, fun x hx y hy heq => hfresh (by
      rw [mem_singleton] at hy
      rwa [← hy, ← heq])⟩

/-- **A table is added** behind the last one. -/
theorem link (h : Inv c s ts bs) (hfits : c.Fits) (hpick : A.pick s.heap.calls s.heap.live c.tableSize.toNat = some nt) :
    Inv c { s with
      mem := store32 (clear s.mem nt c.tableSize.toNat) (ts.getLast?.getD s.root) nt
      heap := { s.heap with live := ⟨nt, c.tableSize.toNat⟩ :: s.heap.live, calls := s.heap.calls + 1 } } (ts ++ [nt]) bs := by
  have hsize := hfits.toNat_tableSize
  have hpos : 0 < c.tableSize.toNat := by omega
  obtain ⟨hnt, -, hle⟩ := A.inside hpick
  have hfresh := h.fresh hfits hpick hpos
  have hsep : Sep c s.root (ts ++ [nt]) := by
    have hold := h.sep hfits
    have hnew : ∀ t ∈ ts, nt + (4 + 4 * c.perTable) ≤ t ∨ t + (4 + 4 * c.perTable) ≤ nt := by
      intro t ht
      have happart := A.apart hpick _ (h.table_block ht)
      rwa [Block.Apart, hsize] at happart
    constructor
    · intro t ht
      rcases mem_append.mp ht with ht | ht
      · exact hold.root t ht
      · obtain rfl := mem_singleton.mp ht
        have happart := A.apart hpick _ h.root_block
        rw [Block.Apart, hsize] at happart
        exact happart.symm
    · intro t ht t' ht' hne
      rcases mem_append.mp ht with hold1 | hnew1 <;> rcases mem_append.mp ht' with hold2 | hnew2
      · exact hold.tables t hold1 t' hold2 hne
      · obtain rfl := mem_singleton.mp hnew2
        exact (hnew t hold1).symm
      · obtain rfl := mem_singleton.mp hnew1
        exact hnew t' hold2
      · rw [mem_singleton.mp hnew1, mem_singleton.mp hnew2] at hne
        exact absurd rfl hne
  have hlaid := h.laid.link hsep (fun ht => hfresh (mem_cons_of_mem _ (mem_append_left _ ht))) hnt (by omega)
  rw [← hsize] at hlaid
  refine ⟨hlaid, h.ok.malloc hpos hpick, ?_, ?_, h.once⟩
  · intro b
    show b ∈ (⟨nt, c.tableSize.toNat⟩ : Block) :: s.heap.live ↔ _
    rw [mem_cons, h.blocks]
    simp only [mem_append, mem_singleton]
    constructor
    · rintro (rfl | rfl | ⟨t, ht, rfl⟩ | hp)
      · exact .inr (.inl ⟨nt, .inr rfl, rfl⟩)
      · exact .inl rfl
      · exact .inr (.inl ⟨t, .inl ht, rfl⟩)
      · exact .inr (.inr hp)
    · rintro (rfl | ⟨t, ht | rfl, rfl⟩ | hp)
      · exact .inr (.inl rfl)
      · exact .inr (.inr (.inl ⟨t, ht, rfl⟩))
      · exact .inl rfl
      · exact .inr (.inr (.inr hp))
  · have hperm : (s.root :: (ts ++ [nt] ++ bs)).Perm (nt :: s.root :: (ts ++ bs)) := by
      rw [append_assoc]
      exact (List.Perm.cons _ perm_middle).trans (List.Perm.swap ..)
    exact hperm.nodup_iff.mpr (nodup_cons.mpr ⟨hfresh, h.nodup⟩)

end Inv

/-! ### Growing -/

/-- The array grew: what was there is where it was. -/
structure Grown (c : Config) (s s' : Dynarr) (bs bs' : List ℕ) : Prop where
  root : s'.root = s.root
  first : bs <+: bs'
  kept : ∀ p ∈ bs, ∀ a, p ≤ a → a < p + c.bufferSize.toNat → s'.mem a = s.mem a

theorem Grown.refl (c : Config) (s : Dynarr) (bs : List ℕ) : Grown c s s bs bs := ⟨rfl, prefix_rfl, fun _ _ _ _ _ => rfl⟩

theorem Grown.trans {s'' : Dynarr} {bs' bs'' : List ℕ} (h : Grown c s s' bs bs') (h' : Grown c s' s'' bs' bs'') :
    Grown c s s'' bs bs'' :=
  ⟨h'.root.trans h.root, h.first.trans h'.first,
    fun p hp a hlo hhi => (h'.kept p (h.first.subset hp) a hlo hhi).trans (h.kept p hp a hlo hhi)⟩

/-- The last buffer's index, as `buffer_idx` counts: in the table before when one is full. -/
def lastIdx (c : Config) (n : ℕ) : ℕ := (n + c.perTable - 1) % c.perTable

theorem lastIdx_full (h : n % c.perTable = 0) : lastIdx c n + 1 = c.perTable := by
  have hpos := perTable_pos c
  have hn := Nat.div_add_mod n c.perTable
  rw [h] at hn
  rw [lastIdx, show n + c.perTable - 1 = c.perTable * (n / c.perTable) + (c.perTable - 1) by omega, Nat.mul_add_mod,
    Nat.mod_eq_of_lt (by omega)]
  omega

theorem lastIdx_part (h : n % c.perTable ≠ 0) : lastIdx c n + 1 = n % c.perTable := by
  have hpos := perTable_pos c
  have hlt := Nat.mod_lt n hpos
  have hn := Nat.div_add_mod n c.perTable
  have hsplit : n + c.perTable - 1 = c.perTable * (n / c.perTable + 1) + (n % c.perTable - 1) := by
    rw [Nat.mul_succ]
    omega
  rw [lastIdx, hsplit, Nat.mul_add_mod, Nat.mod_eq_of_lt (by omega)]
  omega

theorem lastIdx_succ (n : ℕ) : lastIdx c (n + 1) = n % c.perTable := by
  rw [lastIdx, Nat.add_right_comm, Nat.add_sub_cancel, Nat.add_mod_right]

/-- The last table is in use. -/
def Tight (c : Config) (ts bs : List ℕ) : Prop := ts.length * c.perTable < bs.length + c.perTable

theorem Tight.tables (h : Tight c ts bs) (hroom : bs.length ≤ ts.length * c.perTable) :
    ts.length = (bs.length + c.perTable - 1) / c.perTable := by
  have hpos := perTable_pos c
  symm
  apply Nat.div_eq_of_lt_le
  · unfold Tight at h
    omega
  · rw [Nat.succ_mul]
    omega

theorem Tight.full (h : Tight c ts bs) (hroom : bs.length ≤ ts.length * c.perTable) (hmod : bs.length % c.perTable = 0) :
    bs.length = ts.length * c.perTable := by
  have hdvd : c.perTable ∣ ts.length * c.perTable - bs.length :=
    Nat.dvd_sub (Nat.dvd_mul_left _ _) (Nat.dvd_of_mod_eq_zero hmod)
  have hzero := Nat.eq_zero_of_dvd_of_lt hdvd (by unfold Tight at h; omega)
  omega

theorem Tight.part (h : Tight c ts bs) (hroom : bs.length ≤ ts.length * c.perTable) (hmod : bs.length % c.perTable ≠ 0) :
    bs.length < ts.length * c.perTable ∧ bs.length / c.perTable + 1 = ts.length := by
  have hpos := perTable_pos c
  have hlt : bs.length < ts.length * c.perTable := by
    refine lt_of_le_of_ne hroom fun heq => hmod ?_
    rw [heq, Nat.mul_mod_left]
  refine ⟨hlt, ?_⟩
  have h1 : bs.length / c.perTable < ts.length := Nat.div_lt_of_lt_mul (by rwa [mul_comm])
  have h2 : ts.length - 1 ≤ bs.length / c.perTable := by
    rw [Nat.le_div_iff_mul_le hpos, Nat.sub_mul, Nat.one_mul]
    unfold Tight at h
    omega
  omega

/-- A state of the loop. -/
structure Growing (c : Config) (s : Dynarr) (ts bs : List ℕ) (table : Option ℕ) (idx : UInt32) : Prop where
  inv : Inv c s ts bs
  tight : Tight c ts bs
  table : table = ts.getLast?
  idx : idx.toNat = lastIdx c bs.length
  length : s.length.toNat = bs.length * c.perBuffer

theorem length_add (hfits : c.Fits) {l : UInt32} (h : l.toNat = n * c.perBuffer) (hlt : (n + 1) * c.perBuffer < 2 ^ 32) :
    (l + c.bufferItemNum).toNat = (n + 1) * c.perBuffer := by
  rw [Nat.succ_mul] at hlt ⊢
  rw [UInt32.toNat_add, hfits.toNat_bufferItemNum, h, Nat.mod_eq_of_lt hlt]

/-- **One more buffer in the last table.** -/
theorem Growing.snoc (h : Growing c s ts bs table idx) (hfits : c.Fits)
    (hmod : bs.length % c.perTable ≠ 0) (hidx : (idx + 1).toNat = bs.length % c.perTable) (hlt : (bs.length + 1) * c.perBuffer < 2 ^ 32)
    (hpick : A.pick s.heap.calls s.heap.live c.bufferSize.toNat = some nb) :
    let s' := { s with
      length := s.length + c.bufferItemNum
      mem := store32 s.mem (slot (table.getD 0) (idx + 1).toNat) nb
      heap := { s.heap with live := ⟨nb, c.bufferSize.toNat⟩ :: s.heap.live, calls := s.heap.calls + 1 } }
    Growing c s' ts (bs ++ [nb]) table (idx + 1) ∧ Grown c s s' bs (bs ++ [nb]) := by
  obtain ⟨hroom, hdiv⟩ := h.tight.part h.inv.laid.room hmod
  have hlast : table.getD 0 = ts.getD (bs.length / c.perTable) 0 := by
    rw [h.table, getLast?_eq_getElem?, getD_eq_getElem?_getD, Nat.sub_eq_of_eq_add hdiv.symm]
  have hlen : (bs ++ [nb]).length = bs.length + 1 := by simp
  intro s'
  constructor
  · refine ⟨?_, ?_, h.table, ?_, ?_⟩
    · have hsnoc := h.inv.snoc hfits hroom hpick (l := s.length + c.bufferItemNum)
      rwa [← hlast, ← hidx] at hsnoc
    · have htight := h.tight
      unfold Tight at htight ⊢
      omega
    · rw [hlen, lastIdx_succ, hidx]
    · rw [hlen]
      exact length_add hfits h.length hlt
  · refine ⟨rfl, prefix_append _ _, fun p hp a hlo hhi => ?_⟩
    have ht := table_mem hroom
    have hslot := slot_le (p := ts.getD (bs.length / c.perTable) 0) (Nat.mod_lt bs.length (perTable_pos c))
    have happart := (h.inv.buffer_apart hfits hp).2 _ ht
    rw [← hlast, ← hidx] at hslot
    rw [← hlast] at happart
    exact same_store32 s.mem _ _ a (by omega)

/-- **One more buffer in a table of its own.** -/
theorem Growing.link {calls : ℕ} (h : Growing c s ts bs table idx) (hfits : c.Fits)
    (hmod : bs.length % c.perTable = 0) (hlt : (bs.length + 1) * c.perBuffer < 2 ^ 32)
    (hpick : A.pick s.heap.calls s.heap.live c.tableSize.toNat = some nt)
    (hpick' : A.pick (s.heap.calls + 1) (⟨nt, c.tableSize.toNat⟩ :: s.heap.live) c.bufferSize.toNat = some nb)
    (hcalls : calls = s.heap.calls + 1 + 1) :
    let s' := { s with
      length := s.length + c.bufferItemNum
      mem := store32 (store32 (clear s.mem nt c.tableSize.toNat) (table.getD s.root) nt) (slot nt 0) nb
      heap := { s.heap with live := ⟨nb, c.bufferSize.toNat⟩ :: ⟨nt, c.tableSize.toNat⟩ :: s.heap.live, calls } }
    Growing c s' (ts ++ [nt]) (bs ++ [nb]) (some nt) 0 ∧ Grown c s s' bs (bs ++ [nb]) := by
  subst hcalls
  have hpos := perTable_pos c
  have hsize := hfits.toNat_tableSize
  have hfull := h.tight.full h.inv.laid.room hmod
  have hdiv : bs.length / c.perTable = ts.length := by rw [hfull, Nat.mul_div_cancel _ hpos]
  have hnew : (ts ++ [nt]).getD (bs.length / c.perTable) 0 = nt := by
    rw [hdiv, getD_append_right _ _ _ _ le_rfl, Nat.sub_self]
    rfl
  have hlen : (bs ++ [nb]).length = bs.length + 1 := by simp
  have hlink := h.inv.link hfits hpick
  rw [← h.table] at hlink
  have hroom : bs.length < (ts ++ [nt]).length * c.perTable := by
    rw [length_append, length_singleton, Nat.succ_mul]
    omega
  intro s'
  constructor
  · refine ⟨?_, ?_, by simp, ?_, ?_⟩
    · have hsnoc := hlink.snoc hfits hroom hpick' (l := s.length + c.bufferItemNum)
      rwa [hnew, hmod] at hsnoc
    · unfold Tight
      rw [hlen, length_append, length_singleton, Nat.succ_mul]
      omega
    · rw [hlen, lastIdx_succ, hmod]
      rfl
    · rw [hlen]
      exact length_add hfits h.length hlt
  · refine ⟨rfl, prefix_append _ _, fun p hp a hlo hhi => ?_⟩
    have hslot := slot_le (p := nt) hpos
    have hnt := A.apart hpick _ (h.inv.buffer_block hp)
    rw [Block.Apart, hsize] at hnt
    have hlast : table.getD s.root + 4 ≤ p ∨ p + c.bufferSize.toNat ≤ table.getD s.root := by
      obtain ⟨hroot, htables⟩ := h.inv.buffer_apart hfits hp
      cases htable : table with
      | none => exact hroot
      | some t =>
        have ht : t ∈ ts := mem_of_getLast? (by rw [← h.table, htable])
        rcases htables t ht with hle | hle
        · exact .inl (by show t + 4 ≤ p; omega)
        · exact .inr hle
    calc s'.mem a = store32 (clear s.mem nt c.tableSize.toNat) (table.getD s.root) nt a :=
          same_store32 _ _ _ a (by dsimp only at hnt; omega)
      _ = clear s.mem nt c.tableSize.toNat a := same_store32 _ _ _ a (by omega)
      _ = s.mem a := if_neg (by dsimp only at hnt; omega)

theorem Inv.fail (h : Inv c s ts bs) (n : ℕ) : Inv c { s with heap := { s.heap with calls := n } } ts bs :=
  ⟨h.laid, ⟨h.ok.inside, h.ok.apart⟩, h.blocks, h.nodup, h.once⟩

theorem clear_out {size : ℕ} (hpick : A.pick s.heap.calls s.heap.live size = some n) {b : Block} (hb : b ∈ s.heap.live) :
    ∀ a, b.addr ≤ a → a < b.addr + b.size → clear s.mem n size a = s.mem a := by
  intro a hlo hhi
  apply if_neg
  rcases A.apart hpick b hb with hle | hle <;> dsimp only at hle <;> omega

theorem Inv.unused (h : Inv c s ts bs) (hsize : c.tableSize.toNat = 4 + 4 * c.perTable ∨ ts = []) (hpos : 0 < c.tableSize.toNat)
    (hpick : A.pick s.heap.calls s.heap.live c.tableSize.toNat = some nt) (n : ℕ) :
    Inv c { s with
      mem := clear s.mem nt c.tableSize.toNat
      heap := Heap.free nt { s.heap with live := ⟨nt, c.tableSize.toNat⟩ :: s.heap.live, calls := n } } ts bs := by
  obtain ⟨hok, hlive, honce⟩ := h.ok.free_malloc hpos hpick n
  refine h.of_heap ?_ hok hlive (honce.trans h.once)
  refine h.laid.congr (fun i hlo hhi => clear_out hpick h.root_block i hlo hhi) fun t ht i hlo hhi => ?_
  rcases hsize with hsize | rfl
  · exact clear_out hpick (h.table_block ht) i hlo (by rw [hsize]; exact hhi)
  · cases ht

/-- What is left of adding `n` buffers: those added, all unless blocks ran out. -/
def Looped (c : Config) (s : Dynarr) (bs : List ℕ) (n : ℕ) (r : Err × Dynarr) : Prop :=
  ∃ ts' bs', (Inv c r.2 ts' bs' ∧ Tight c ts' bs' ∧ r.2.length.toNat = bs'.length * c.perBuffer) ∧ Grown c s r.2 bs bs' ∧
    bs'.length ≤ bs.length + n ∧ (r.1 = .none → bs'.length = bs.length + n)

theorem Looped.after {s1 : Dynarr} {b : ℕ} {r : Err × Dynarr} (hgrown : Grown c s s1 bs (bs ++ [b])) (h : Looped c s1 (bs ++ [b]) n r) :
    Looped c s bs (n + 1) r := by
  obtain ⟨ts', bs', hinv, hgrown', hle, hnone⟩ := h
  have hlen : (bs ++ [b]).length + n = bs.length + (n + 1) := by
    rw [length_append, length_singleton, add_assoc, add_comm 1 n]
  rw [hlen] at hle hnone
  exact ⟨ts', bs', hinv, hgrown.trans hgrown', hle, hnone⟩

theorem Growing.stop (h : Growing c s ts bs table idx) {s' : Dynarr} (hinv : Inv c s' ts bs)
    (hlen : s'.length = s.length) (hgrown : Grown c s s' bs bs) : Looped c s bs n (.notEnoughResources, s') := by
  refine ⟨ts, bs, ⟨hinv, h.tight, ?_⟩, hgrown, Nat.le_add_right _ _, fun he => ?_⟩
  · rw [hlen]
    exact h.length
  · cases he

/-- **What the loop does**, however many blocks it gets. -/
theorem growLoop_spec (hfits : c.Fits) {table : Option ℕ} {idx : UInt32} (h : Growing c s ts bs table idx)
    (hlt : (bs.length + n) * c.perBuffer < 2 ^ 32) : Looped c s bs n (growLoop c A n table idx s) := by
  induction n generalizing s ts bs table idx with
  | zero => exact ⟨ts, bs, ⟨h.inv, h.tight, h.length⟩, .refl c s bs, le_rfl, fun _ => rfl⟩
  | succ n ih =>
    have hone : (bs.length + 1) * c.perBuffer < 2 ^ 32 := by
      refine Nat.lt_of_le_of_lt (Nat.mul_le_mul_right _ ?_) hlt
      omega
    have hrest : ∀ b : ℕ, ((bs ++ [b]).length + n) * c.perBuffer < 2 ^ 32 := by
      intro b
      rwa [length_append, length_singleton, add_assoc, add_comm 1 n]
    have hT := hfits.toNat_tableBufferNum
    have hTle := hfits.perTable_le
    have hsucc : (idx + 1).toNat = lastIdx c bs.length + 1 := by
      have hlast : lastIdx c bs.length < c.perTable := Nat.mod_lt _ (perTable_pos c)
      rw [UInt32.toNat_add, h.idx, show (1 : UInt32).toNat = 1 from rfl, Nat.mod_eq_of_lt (by omega)]
    by_cases hmod : bs.length % c.perTable = 0
    · have hfull : idx + 1 = c.tableBufferNum := by
        apply UInt32.toNat_inj.mp
        rw [hsucc, hT, lastIdx_full hmod]
      rcases Heap.malloc_cases A c.tableSize.toNat s.heap with ⟨nt, h1, hpos, hpick, h2⟩ | ⟨h1, h2⟩
      · have hmalloc : s.heap.malloc A c.tableSize.toNat = (some nt, _) := Prod.ext h1 h2
        rw [growLoop, if_pos hfull, hmalloc]
        dsimp only
        rcases Heap.malloc_cases A c.bufferSize.toNat { s.heap with
          live := ⟨nt, c.tableSize.toNat⟩ :: s.heap.live, calls := s.heap.calls + 1 } with ⟨nb, h3, -, hpick', h4⟩ | ⟨h3, h4⟩
        · obtain ⟨hgrowing, hgrown⟩ := h.link hfits hmod hone hpick hpick' rfl
          rw [show Heap.malloc A c.bufferSize.toNat _ = (some nb, _) from Prod.ext h3 h4]
          exact .after hgrown (ih hgrowing (hrest nb))
        · rw [show Heap.malloc A c.bufferSize.toNat _ = (none, _) from Prod.ext h3 h4]
          have hinv := h.inv.unused (.inl hfits.toNat_tableSize) hpos hpick (s.heap.calls + 1 + 1)
          exact h.stop hinv rfl ⟨rfl, prefix_rfl, fun p hp => clear_out hpick (h.inv.buffer_block hp)⟩
      · rw [growLoop, if_pos hfull, show Heap.malloc A c.tableSize.toNat s.heap = (none, _) from Prod.ext h1 h2]
        exact h.stop (h.inv.fail (s.heap.calls + 1)) rfl ⟨rfl, prefix_rfl, fun _ _ _ _ _ => rfl⟩
    · have hpart : idx + 1 ≠ c.tableBufferNum := by
        intro heq
        have hnat := congrArg UInt32.toNat heq
        rw [hsucc, hT, lastIdx_part hmod] at hnat
        exact ne_of_lt (Nat.mod_lt _ (perTable_pos c)) hnat
      rcases Heap.malloc_cases A c.bufferSize.toNat s.heap with ⟨nb, h1, -, hpick, h2⟩ | ⟨h1, h2⟩
      · obtain ⟨hgrowing, hgrown⟩ := h.snoc hfits hmod (hsucc.trans (lastIdx_part hmod)) hone hpick
        rw [growLoop, if_neg hpart, show Heap.malloc A c.bufferSize.toNat s.heap = (some nb, _) from Prod.ext h1 h2]
        exact .after hgrown (ih hgrowing (hrest nb))
      · rw [growLoop, if_neg hpart, show Heap.malloc A c.bufferSize.toNat s.heap = (none, _) from Prod.ext h1 h2]
        exact h.stop (h.inv.fail (s.heap.calls + 1)) rfl ⟨rfl, prefix_rfl, fun _ _ _ _ _ => rfl⟩

end Dynarr
end Vsf
