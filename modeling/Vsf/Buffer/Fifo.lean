/-
# The byte FIFO of buffer.c

`struct vsf_fifo_t` with `__VSF_DEBUG__` off: 32-bit indices that wrap, split copies, and windows
whose commit is a `push` or `pop` with `NULL`. It is for the byte queue `SpecStep`: at most `size -
1` bytes, all-or-nothing writes at the end, reads from the front. `fifo_refines` is the refinement.
-/
import Mathlib
import Vsf.Lib.RingBuf

namespace Vsf

open RingBuf List UInt32

/-- `struct vsf_fifo_t`; `buffer` is the array `fifo->buffer.buffer` points at. -/
structure Fifo where
  buffer : ℕ → UInt8
  size : UInt32
  head : UInt32
  tail : UInt32

namespace Fifo

/-! ### The operations -/

/-- `vsf_fifo_get_next_index`. -/
def getNextIndex (pos size : UInt32) : UInt32 :=
  if pos + 1 ≥ size then 0 else pos + 1

/-- `vsf_fifo_init`. -/
def init (fifo : Fifo) : Fifo := { fifo with head := 0, tail := 0 }

/-- `vsf_fifo_get_data_length`. -/
def getDataLength (fifo : Fifo) : UInt32 :=
  if fifo.head ≥ fifo.tail then fifo.head - fifo.tail
  else fifo.size - (fifo.tail - fifo.head)

/-- `vsf_fifo_get_avail_length`. -/
def getAvailLength (fifo : Fifo) : UInt32 :=
  let len := fifo.size - fifo.getDataLength
  if len > 0 then len - 1 else len

/-- `vsf_fifo_push8`. -/
def push8 (fifo : Fifo) (data : UInt8) : UInt32 × Fifo :=
  if fifo.getAvailLength < 1 then (0, fifo)
  else
    (1, { fifo with
      buffer := Function.update fifo.buffer fifo.head.toNat data
      head := getNextIndex fifo.head fifo.size })

/-- `vsf_fifo_pop8`. -/
def pop8 (fifo : Fifo) : UInt8 × Fifo :=
  if fifo.getDataLength ≤ 0 then (0, fifo)
  else (fifo.buffer fifo.tail.toNat, { fifo with tail := getNextIndex fifo.tail fifo.size })

/-- `vsf_fifo_push`; `data` is `none` for `NULL`, which only moves the head. -/
def push (fifo : Fifo) (size : UInt32) (data : Option (ℕ → UInt8)) : UInt32 × Fifo :=
  if size > fifo.getAvailLength then (0, fifo)
  else
    let tmp32 := fifo.size - fifo.head
    if size > tmp32 then
      let buffer := match data with
        | some data =>
          copy (copy fifo.buffer fifo.head.toNat data 0 tmp32.toNat) 0 data tmp32.toNat (size - tmp32).toNat
        | none => fifo.buffer
      (size, { fifo with buffer := buffer, head := size - tmp32 })
    else
      let buffer := match data with
        | some data => copy fifo.buffer fifo.head.toNat data 0 size.toNat
        | none => fifo.buffer
      let head := fifo.head + size
      (size, { fifo with buffer := buffer, head := if head = fifo.size then 0 else head })

/-- `vsf_fifo_get_rbuf`: the index the window starts at, and its length. -/
def getRbuf (fifo : Fifo) : UInt32 × UInt32 :=
  let availLen := fifo.getDataLength
  let tmp32 := fifo.size - fifo.tail
  (fifo.tail, if tmp32 < availLen then tmp32 else availLen)

/-- `vsf_fifo_get_wbuf`: the index the window starts at, and its length. -/
def getWbuf (fifo : Fifo) : UInt32 × UInt32 :=
  let availLen := fifo.getAvailLength
  let tmp32 := fifo.size - fifo.head
  (fifo.head, if tmp32 < availLen then tmp32 else availLen)

/-- `vsf_fifo_peek`: the length read, and the memory at `data` afterwards. -/
def peek (fifo : Fifo) (size : UInt32) (data : Option (ℕ → UInt8)) : UInt32 × Option (ℕ → UInt8) :=
  let availLen := fifo.getDataLength
  let size := if size > availLen then availLen else size
  let tmp32 := fifo.size - fifo.tail
  (size, data.map fun data =>
    if size > tmp32 then
      copy (copy data 0 fifo.buffer fifo.tail.toNat tmp32.toNat) tmp32.toNat fifo.buffer 0
        (size - tmp32).toNat
    else copy data 0 fifo.buffer fifo.tail.toNat size.toNat)

/-- `vsf_fifo_pop`. -/
def pop (fifo : Fifo) (size : UInt32) (data : Option (ℕ → UInt8)) :
    UInt32 × Option (ℕ → UInt8) × Fifo :=
  let (ret, data) := fifo.peek size data
  if ret = 0 then (0, data, fifo)
  else
    let tmp32 := fifo.size - fifo.tail
    if ret > tmp32 then (ret, data, { fifo with tail := ret - tmp32 })
    else
      let tail := fifo.tail + ret
      (ret, data, { fifo with tail := if tail = fifo.size then 0 else tail })

/-! ### The indices -/

/-- Both indices stay inside the array. -/
structure Inv (fifo : Fifo) : Prop where
  head_lt : fifo.head < fifo.size
  tail_lt : fifo.tail < fifo.size

/-- The bytes queued, oldest first. -/
def bytes (fifo : Fifo) : List UInt8 :=
  contents fifo.buffer fifo.size.toNat fifo.tail.toNat fifo.getDataLength.toNat

theorem init_inv {fifo : Fifo} (h : 1 ≤ fifo.size) : Inv (init fifo) := by
  have h0 : (0 : UInt32) < fifo.size := by grind
  exact ⟨h0, h0⟩

@[simp] theorem bytes_length (fifo : Fifo) : fifo.bytes.length = fifo.getDataLength.toNat := by simp [bytes]

theorem init_bytes (fifo : Fifo) : (init fifo).bytes = [] := by simp [bytes, init, getDataLength]

section
variable {fifo : Fifo} (h : Inv fifo)
include h

theorem Inv.lt_nat : fifo.head.toNat < fifo.size.toNat ∧ fifo.tail.toNat < fifo.size.toNat ∧
    fifo.size.toNat < 2 ^ 32 :=
  ⟨lt_iff_toNat_lt.mp h.head_lt, lt_iff_toNat_lt.mp h.tail_lt, fifo.size.toNat_lt⟩

theorem getDataLength_toNat : fifo.getDataLength.toNat =
    if fifo.tail.toNat ≤ fifo.head.toNat then fifo.head.toNat - fifo.tail.toNat
    else fifo.size.toNat - (fifo.tail.toNat - fifo.head.toNat) := by
  obtain ⟨h1, h2, h3⟩ := h.lt_nat
  simp only [getDataLength, ge_iff_le, le_iff_toNat_le]
  split_ifs <;> simp only [UInt32.toNat_sub] <;> omega

theorem getDataLength_lt : fifo.getDataLength.toNat < fifo.size.toNat := by
  obtain ⟨h1, h2, h3⟩ := h.lt_nat
  rw [getDataLength_toNat h]
  split_ifs <;> omega

theorem getAvailLength_toNat : fifo.getAvailLength.toNat = fifo.size.toNat - 1 - fifo.getDataLength.toNat := by
  have h1 := getDataLength_lt h
  have h2 := fifo.size.toNat_lt
  have h3 : (fifo.size - fifo.getDataLength).toNat = fifo.size.toNat - fifo.getDataLength.toNat := by
    rw [UInt32.toNat_sub]; omega
  have h4 : fifo.size - fifo.getDataLength > 0 := by
    rw [gt_iff_lt, lt_iff_toNat_lt, h3, UInt32.toNat_zero]; omega
  simp only [getAvailLength, if_pos h4]
  rw [UInt32.toNat_sub, h3, toNat_one]
  omega

theorem head_eq : fifo.head.toNat = (fifo.tail.toNat + fifo.getDataLength.toNat) % fifo.size.toNat := by
  obtain ⟨h1, h2, h3⟩ := h.lt_nat
  have h4 := getDataLength_lt h
  have h5 := getDataLength_toNat h
  rw [mod_wrap (by omega)]
  split_ifs at h5 ⊢ <;> omega

end

theorem getDataLength_of_head {fifo : Fifo} {len : ℕ} (h : Inv fifo) (hlen : len < fifo.size.toNat)
    (hhead : fifo.head.toNat = (fifo.tail.toNat + len) % fifo.size.toNat) :
    fifo.getDataLength.toNat = len := by
  have h1 := head_eq h
  exact slot_inj (getDataLength_lt h) hlen (h1.symm.trans hhead)

theorem getNextIndex_toNat {pos size : UInt32} (h : pos < size) :
    (getNextIndex pos size).toNat = (pos.toNat + 1) % size.toNat := by
  have h1 := lt_iff_toNat_lt.mp h
  have h2 := size.toNat_lt
  have h3 : (pos + 1).toNat = pos.toNat + 1 := by
    rw [UInt32.toNat_add, toNat_one, Nat.mod_eq_of_lt (by omega)]
  simp only [getNextIndex, ge_iff_le, le_iff_toNat_le, h3]
  rw [mod_wrap (by omega)]
  split_ifs with h4 h5 h5
  · omega
  · rw [UInt32.toNat_zero]; omega
  · exact h3
  · omega

/-! ### Moving the head and the tail -/

variable {f : Fifo}

theorem bytes_extend (f' : Fifo) {n : ℕ} (h : Inv f) (hsize : f'.size = f.size) (htail : f'.tail = f.tail)
    (hn : f.getDataLength.toNat + n < f.size.toNat)
    (hhead : f'.head.toNat = (f.head.toNat + n) % f.size.toNat)
    (hold : ∀ i < f.getDataLength.toNat, f'.buffer ((f.tail.toNat + i) % f.size.toNat) =
      f.buffer ((f.tail.toNat + i) % f.size.toNat)) :
    Inv f' ∧ f'.bytes = f.bytes ++ contents f'.buffer f.size.toNat f.head.toNat n := by
  have hpos : 0 < f.size.toNat := by omega
  have hinv : Inv f' := by
    refine ⟨lt_iff_toNat_lt.mpr ?_, by rw [hsize, htail]; exact h.tail_lt⟩
    rw [hhead, hsize]; exact Nat.mod_lt _ hpos
  have hlen : f'.getDataLength.toNat = f.getDataLength.toNat + n := by
    refine getDataLength_of_head hinv (by rw [hsize]; exact hn) ?_
    rw [hhead, hsize, htail, head_eq h, Nat.mod_add_mod, add_assoc]
  refine ⟨hinv, ?_⟩
  unfold bytes
  rw [hlen, hsize, htail, contents_append, contents_congr hold, head_eq h, contents_mod]

theorem bytes_consume (f' : Fifo) {k : ℕ} (h : Inv f) (hsize : f'.size = f.size) (hhead : f'.head = f.head)
    (hbuf : f'.buffer = f.buffer) (hk : k ≤ f.getDataLength.toNat)
    (htail : f'.tail.toNat = (f.tail.toNat + k) % f.size.toNat) :
    Inv f' ∧ f'.bytes = f.bytes.drop k := by
  have hlt := getDataLength_lt h
  have hpos : 0 < f.size.toNat := by omega
  have hinv : Inv f' := by
    refine ⟨by rw [hsize, hhead]; exact h.head_lt, lt_iff_toNat_lt.mpr ?_⟩
    rw [htail, hsize]; exact Nat.mod_lt _ hpos
  have hlen : f'.getDataLength.toNat = f.getDataLength.toNat - k := by
    refine getDataLength_of_head hinv (by rw [hsize]; omega) ?_
    rw [htail, hsize, hhead, head_eq h, Nat.mod_add_mod]
    congr 1
    omega
  refine ⟨hinv, ?_⟩
  unfold bytes
  rw [hlen, hsize, hbuf, htail, contents_mod, drop_contents _ hk]

/-! ### Writing -/

/-- The slots of the queued bytes are not the next `n` ones from the head. -/
theorem old_ne_new (h : Inv f) {n i j : ℕ} (hn : f.getDataLength.toNat + n < f.size.toNat)
    (hi : i < f.getDataLength.toNat) (hj : j < n) :
    (f.tail.toNat + i) % f.size.toNat ≠ (f.head.toNat + j) % f.size.toNat := by
  intro he
  rw [head_eq h, Nat.mod_add_mod, add_assoc] at he
  have := slot_inj (by omega) (by omega) he
  omega

theorem sub_toNat {a b : UInt32} (h : b ≤ a) : (a - b).toNat = a.toNat - b.toNat :=
  UInt32.toNat_sub_of_le a b h

/-- Where `vsf_fifo_push` leaves the head, and what it writes. -/
theorem push_fits (h : Inv f) {n : UInt32} (hn : f.getDataLength.toNat + n.toNat < f.size.toNat)
    (data : Option (ℕ → UInt8)) :
    (f.push n data).1 = n ∧ (f.push n data).2.size = f.size ∧ (f.push n data).2.tail = f.tail ∧
      (f.push n data).2.head.toNat = (f.head.toNat + n.toNat) % f.size.toNat ∧
      (data = none → (f.push n data).2.buffer = f.buffer) ∧
      ∀ d, data = some d →
        (∀ i < n.toNat, (f.push n data).2.buffer ((f.head.toNat + i) % f.size.toNat) = d i) ∧
        ∀ i < f.getDataLength.toNat, (f.push n data).2.buffer ((f.tail.toNat + i) % f.size.toNat) =
          f.buffer ((f.tail.toNat + i) % f.size.toNat) := by
  obtain ⟨h1, h2, h3⟩ := h.lt_nat
  have havail := getAvailLength_toNat h
  have hfit : ¬ n > f.getAvailLength := by
    rw [gt_iff_lt, lt_iff_toNat_lt, havail]; omega
  have htmp : (f.size - f.head).toNat = f.size.toNat - f.head.toNat := sub_toNat (UInt32.le_of_lt h.head_lt)
  have hadd : (f.head + n).toNat = if f.head.toNat + n.toNat < 2 ^ 32 then f.head.toNat + n.toNat
      else f.head.toNat + n.toNat - 2 ^ 32 := by
    rw [UInt32.toNat_add, mod_wrap (by omega)]
  have hgt : n > f.size - f.head ↔ f.size.toNat - f.head.toNat < n.toNat := by
    rw [gt_iff_lt, lt_iff_toNat_lt, htmp]
  unfold push
  rw [if_neg hfit]
  simp only
  by_cases hw : f.size.toNat - f.head.toNat < n.toNat
  · -- the transfer crosses the end of the array
    rw [if_pos (hgt.mpr hw)]
    have hrest : (n - (f.size - f.head)).toNat = n.toNat - (f.size.toNat - f.head.toNat) := by
      rw [sub_toNat (le_iff_toNat_le.mpr (by rw [htmp]; omega)), htmp]
    refine ⟨rfl, rfl, rfl, ?_, fun hd => by rw [hd], fun d hd => ⟨fun i hi => ?_, fun i hi => ?_⟩⟩
    · rw [hrest, mod_wrap (by omega)]
      split_ifs <;> omega
    · subst hd
      simp only [htmp, hrest, copy]
      rw [mod_wrap (by omega)]
      split_ifs <;> first | omega | (congr 1; omega)
    · subst hd
      have hne := fun j hj => old_ne_new h (j := j) hn hi hj
      generalize (f.tail.toNat + i) % f.size.toNat = k at hne
      have h4 : ¬ (f.head.toNat ≤ k ∧ k < f.size.toNat) := fun hk => hne (k - f.head.toNat) (by omega) (by
        rw [Nat.mod_eq_of_lt (by omega)]; omega)
      have h5 : ¬ k < n.toNat - (f.size.toNat - f.head.toNat) := fun hk =>
        hne (k + (f.size.toNat - f.head.toNat)) (by omega) (by
          rw [mod_wrap (by omega), if_neg (by omega)]; omega)
      simp only [htmp, hrest, copy]
      rw [if_neg (by omega), if_neg (by omega)]
  · rw [if_neg (fun hc => hw (hgt.mp hc))]
    have hhead : (f.head + n).toNat = f.head.toNat + n.toNat := by rw [hadd, if_pos (by omega)]
    refine ⟨rfl, rfl, rfl, ?_, fun hd => by rw [hd], fun d hd => ⟨fun i hi => ?_, fun i hi => ?_⟩⟩
    · rw [mod_wrap (by omega)]
      by_cases he : f.head + n = f.size
      · have he' := congrArg UInt32.toNat he
        rw [if_pos he, UInt32.toNat_zero, if_neg (by omega)]
        omega
      · have he' : f.head.toNat + n.toNat ≠ f.size.toNat := fun hc =>
          he (UInt32.toNat_inj.mp (hhead.trans hc))
        rw [if_neg he, if_pos (by omega), hhead]
    · subst hd
      simp only [copy]
      rw [Nat.mod_eq_of_lt (by omega), if_pos (by omega)]
      congr 1; omega
    · subst hd
      have hne := fun j hj => old_ne_new h (j := j) hn hi hj
      generalize (f.tail.toNat + i) % f.size.toNat = k at hne
      have h4 : ¬ (f.head.toNat ≤ k ∧ k < f.head.toNat + n.toNat) := fun hk =>
        hne (k - f.head.toNat) (by omega) (by rw [Nat.mod_eq_of_lt (by omega)]; omega)
      simp only [copy]
      rw [if_neg h4]

/-- `data[0..n)`, as a list. -/
def firstBytes (data : ℕ → UInt8) (n : ℕ) : List UInt8 := (List.range n).map data

/-- **`vsf_fifo_push` is all or nothing**, and it succeeds when the bytes fit. -/
theorem push_bytes (h : Inv f) (n : UInt32) (d : ℕ → UInt8) :
    if n.toNat ≤ f.size.toNat - 1 - f.bytes.length then
      (f.push n (some d)).1 = n ∧ Inv (f.push n (some d)).2 ∧ (f.push n (some d)).2.size = f.size ∧
        (f.push n (some d)).2.bytes = f.bytes ++ firstBytes d n.toNat
    else f.push n (some d) = (0, f) := by
  have hlt := getDataLength_lt h
  rw [bytes_length]
  split_ifs with hfit
  · have hn : f.getDataLength.toNat + n.toNat < f.size.toNat := by omega
    obtain ⟨h1, h2, h3, h4, -, h5⟩ := push_fits h hn (some d)
    obtain ⟨hnew, hold⟩ := h5 d rfl
    obtain ⟨h6, h7⟩ := bytes_extend _ h h2 h3 hn h4 hold
    refine ⟨h1, h6, h2, h7.trans ?_⟩
    congr 1
    exact map_congr_left fun i hi => hnew i (List.mem_range.mp hi)
  · unfold push
    rw [if_pos]
    rw [gt_iff_lt, lt_iff_toNat_lt, getAvailLength_toNat h]
    omega

theorem push8_bytes (h : Inv f) (b : UInt8) : if 1 ≤ f.size.toNat - 1 - f.bytes.length then
      (f.push8 b).1 = 1 ∧ Inv (f.push8 b).2 ∧ (f.push8 b).2.size = f.size ∧ (f.push8 b).2.bytes = f.bytes ++ [b]
    else f.push8 b = (0, f) := by
  have havail := getAvailLength_toNat h
  have hfull : f.getAvailLength < 1 ↔ f.getAvailLength.toNat < 1 := lt_iff_toNat_lt
  rw [bytes_length]
  unfold push8
  split_ifs with h1 h2 h2
  · rw [hfull] at h2; omega
  · have hslot : f.head.toNat = (f.head.toNat + 0) % f.size.toNat :=
      (Nat.mod_eq_of_lt h.lt_nat.1).symm
    have hold : ∀ i < f.getDataLength.toNat, Function.update f.buffer f.head.toNat b
        ((f.tail.toNat + i) % f.size.toNat) = f.buffer ((f.tail.toNat + i) % f.size.toNat) := fun i hi => by
      refine Function.update_of_ne (fun he => ?_) _ _
      exact old_ne_new h (n := 1) (j := 0) (by omega) hi (by omega) (he.trans hslot)
    obtain ⟨h3, h4⟩ := bytes_extend ⟨Function.update f.buffer f.head.toNat b, f.size,
      getNextIndex f.head f.size, f.tail⟩ h rfl rfl (by omega) (getNextIndex_toNat h.head_lt) hold
    refine ⟨rfl, h3, rfl, h4.trans ?_⟩
    simp [contents, Nat.mod_eq_of_lt h.lt_nat.1]
  · rfl
  · exact absurd (hfull.mpr (by omega)) h2

/-! ### Reading -/

theorem peek_length (n : UInt32) (data : Option (ℕ → UInt8)) :
    (f.peek n data).1.toNat = min n.toNat f.bytes.length := by
  unfold peek
  simp only [gt_iff_lt, lt_iff_toNat_lt, bytes_length]
  split_ifs <;> omega

/-- **`vsf_fifo_peek` reads the oldest bytes** to `data`, and no others. -/
theorem peek_bytes (h : Inv f) (n : UInt32) (d : ℕ → UInt8) : ∃ d', (f.peek n (some d)).2 = some d' ∧
      firstBytes d' (min n.toNat f.bytes.length) = f.bytes.take n.toNat ∧
      ∀ i, min n.toNat f.bytes.length ≤ i → d' i = d i := by
  obtain ⟨h1, h2, h3⟩ := h.lt_nat
  have hlen := peek_length (f := f) n (some d)
  have hlt := getDataLength_lt h
  have htmp : (f.size - f.tail).toNat = f.size.toNat - f.tail.toNat := sub_toNat (UInt32.le_of_lt h.tail_lt)
  unfold peek at hlen ⊢
  simp only [Option.map_some] at hlen ⊢
  generalize (if n > f.getDataLength then f.getDataLength else n) = m at hlen ⊢
  rw [bytes_length] at *
  have hgt : m > f.size - f.tail ↔ f.size.toNat - f.tail.toNat < m.toNat := by
    rw [gt_iff_lt, lt_iff_toNat_lt, htmp]
  rw [← hlen]
  have htake : f.bytes.take n.toNat = contents f.buffer f.size.toNat f.tail.toNat m.toNat := by
    have hm : m.toNat ≤ f.getDataLength.toNat := by omega
    unfold bytes
    rw [← take_contents f.buffer hm, take_eq_take_iff, contents_length]
    omega
  rw [htake]
  by_cases hw : f.size.toNat - f.tail.toNat < m.toNat
  · have hrest : (m - (f.size - f.tail)).toNat = m.toNat - (f.size.toNat - f.tail.toNat) := by
      rw [sub_toNat (le_iff_toNat_le.mpr (by rw [htmp]; omega)), htmp]
    refine ⟨_, by rw [if_pos (hgt.mpr hw)], map_congr_left fun i hi => ?_, fun i hi => ?_⟩
    · have hi' := List.mem_range.mp hi
      simp only [htmp, hrest, copy]
      rw [mod_wrap (by omega)]
      split_ifs <;> first | omega | (congr 1 <;> omega)
    · simp only [htmp, hrest, copy]
      rw [if_neg (by omega), if_neg (by omega)]
  · refine ⟨_, by rw [if_neg (fun hc => hw (hgt.mp hc))], map_congr_left fun i hi => ?_, fun i hi => ?_⟩
    · have hi' := List.mem_range.mp hi
      have hslot : (f.tail.toNat + i) % f.size.toNat = f.tail.toNat + i := Nat.mod_eq_of_lt (by omega)
      simp only [copy, hslot]
      rw [if_pos (by omega)]
      congr 1
    · simp only [copy]
      rw [if_neg (by omega)]

/-- **`vsf_fifo_pop` peeks and drops what it read.** -/
theorem pop_bytes (h : Inv f) (n : UInt32) (data : Option (ℕ → UInt8)) :
    (f.pop n data).1 = (f.peek n data).1 ∧ (f.pop n data).2.1 = (f.peek n data).2 ∧
      Inv (f.pop n data).2.2 ∧ (f.pop n data).2.2.size = f.size ∧
      (f.pop n data).2.2.bytes = f.bytes.drop n.toNat := by
  obtain ⟨h1, h2, h3⟩ := h.lt_nat
  have hlen := peek_length (f := f) n data
  have hlt := getDataLength_lt h
  have htmp : (f.size - f.tail).toNat = f.size.toNat - f.tail.toNat := sub_toNat (UInt32.le_of_lt h.tail_lt)
  unfold pop
  generalize f.peek n data = r at hlen ⊢
  obtain ⟨ret, data'⟩ := r
  simp only at hlen ⊢
  have hdrop : f.bytes.drop n.toNat = f.bytes.drop ret.toNat := by
    rw [drop_eq_drop_iff, hlen]; omega
  rw [bytes_length] at hlen
  rw [hdrop]
  by_cases h0 : ret = 0
  · subst h0
    rw [if_pos rfl]
    exact ⟨rfl, rfl, h, rfl, rfl⟩
  rw [if_neg h0]
  have hgt : ret > f.size - f.tail ↔ f.size.toNat - f.tail.toNat < ret.toNat := by
    rw [gt_iff_lt, lt_iff_toNat_lt, htmp]
  by_cases hw : f.size.toNat - f.tail.toNat < ret.toNat
  · rw [if_pos (hgt.mpr hw)]
    have htail : (ret - (f.size - f.tail)).toNat = (f.tail.toNat + ret.toNat) % f.size.toNat := by
      rw [sub_toNat (le_iff_toNat_le.mpr (by rw [htmp]; omega)), htmp, mod_wrap (by omega),
        if_neg (by omega)]
      omega
    obtain ⟨h4, h5⟩ := bytes_consume { f with tail := ret - (f.size - f.tail) } h rfl rfl rfl
      (by omega) htail
    exact ⟨rfl, rfl, h4, rfl, h5⟩
  · rw [if_neg (fun hc => hw (hgt.mp hc))]
    have hadd : (f.tail + ret).toNat = f.tail.toNat + ret.toNat := by
      rw [UInt32.toNat_add, Nat.mod_eq_of_lt (by omega)]
    have htail : (if f.tail + ret = f.size then 0 else f.tail + ret : UInt32).toNat =
        (f.tail.toNat + ret.toNat) % f.size.toNat := by
      rw [mod_wrap (by omega)]
      by_cases he : f.tail + ret = f.size
      · have he' := congrArg UInt32.toNat he
        rw [if_pos he, UInt32.toNat_zero, if_neg (by omega)]
        omega
      · have he' : f.tail.toNat + ret.toNat ≠ f.size.toNat := fun hc =>
          he (UInt32.toNat_inj.mp (hadd.trans hc))
        rw [if_neg he, if_pos (by omega), hadd]
    obtain ⟨h4, h5⟩ := bytes_consume { f with tail := if f.tail + ret = f.size then 0 else f.tail + ret }
      h rfl rfl rfl (by omega) htail
    exact ⟨rfl, rfl, h4, rfl, h5⟩

theorem pop8_bytes (h : Inv f) : (f.pop8).1 = f.bytes.headD 0 ∧ Inv (f.pop8).2 ∧ (f.pop8).2.size = f.size ∧
      (f.pop8).2.bytes = f.bytes.tail := by
  have hempty : f.getDataLength ≤ 0 ↔ f.getDataLength.toNat ≤ 0 := le_iff_toNat_le
  unfold pop8
  by_cases h0 : f.getDataLength ≤ 0
  · have hnil : f.bytes = [] := eq_nil_of_length_eq_zero (by rw [bytes_length]; have := hempty.mp h0; omega)
    rw [if_pos h0, hnil]
    exact ⟨rfl, h, rfl, rfl⟩
  · have hpos : 0 < f.getDataLength.toNat := pos_of_ne_zero fun hc => h0 (hempty.mpr (by omega))
    rw [if_neg h0]
    obtain ⟨h4, h5⟩ := bytes_consume { f with tail := getNextIndex f.tail f.size } h rfl rfl rfl
      (k := 1) hpos (getNextIndex_toNat h.tail_lt)
    refine ⟨?_, h4, rfl, by rw [h5, drop_one]⟩
    obtain ⟨k, hk⟩ : ∃ k, f.getDataLength.toNat = k + 1 := ⟨_, (Nat.sub_add_cancel hpos).symm⟩
    unfold bytes
    rw [hk, contents_cons, headD_cons, Nat.mod_eq_of_lt h.lt_nat.2.1]

/-! ### The windows -/

/-- The read window: the first bytes of the queue, empty only with it. -/
theorem getRbuf_spec (h : Inv f) : f.getRbuf.2.toNat ≤ f.bytes.length ∧ (f.bytes ≠ [] → 0 < f.getRbuf.2.toNat) ∧
      (List.range f.getRbuf.2.toNat).map (fun i => f.buffer (f.getRbuf.1.toNat + i)) =
        f.bytes.take f.getRbuf.2.toNat := by
  obtain ⟨h1, h2, h3⟩ := h.lt_nat
  have htmp : (f.size - f.tail).toNat = f.size.toNat - f.tail.toNat := sub_toNat (UInt32.le_of_lt h.tail_lt)
  have hlen : f.getRbuf.2.toNat = min (f.size.toNat - f.tail.toNat) f.getDataLength.toNat := by
    unfold getRbuf
    simp only [lt_iff_toNat_lt, htmp]
    split_ifs <;> omega
  refine ⟨by rw [bytes_length]; omega, fun hne => ?_, ?_⟩
  · have := length_pos_iff.mpr hne
    rw [bytes_length] at this
    omega
  · unfold bytes
    rw [take_contents _ (by omega), contents_straight _ (by omega)]
    rfl

/-- The write window: free slots from the head, none only when the ring is full. -/
theorem getWbuf_spec (h : Inv f) : f.getWbuf.1 = f.head ∧ f.head.toNat + f.getWbuf.2.toNat ≤ f.size.toNat ∧
      f.bytes.length + f.getWbuf.2.toNat ≤ f.size.toNat - 1 ∧
      (f.bytes.length < f.size.toNat - 1 → 0 < f.getWbuf.2.toNat) := by
  obtain ⟨h1, h2, h3⟩ := h.lt_nat
  have hlt := getDataLength_lt h
  have havail := getAvailLength_toNat h
  have htmp : (f.size - f.head).toNat = f.size.toNat - f.head.toNat := sub_toNat (UInt32.le_of_lt h.head_lt)
  have hlen : f.getWbuf.2.toNat = min (f.size.toNat - f.head.toNat) f.getAvailLength.toNat := by
    unfold getWbuf
    simp only [lt_iff_toNat_lt, htmp]
    split_ifs <;> omega
  rw [bytes_length]
  exact ⟨rfl, by omega, by omega, by omega⟩

/-- Bytes written into the window and committed by a `push` of `NULL` join the queue. -/
theorem wbuf_push_bytes (h : Inv f) (d : ℕ → UInt8) {n : UInt32} (hn : n ≤ f.getWbuf.2) :
    let g := ({ f with buffer := copy f.buffer f.getWbuf.1.toNat d 0 f.getWbuf.2.toNat }).push n none
    g.1 = n ∧ Inv g.2 ∧ g.2.size = f.size ∧ g.2.bytes = f.bytes ++ firstBytes d n.toNat := by
  obtain ⟨hoff, hend, hfree, -⟩ := getWbuf_spec h
  have hn' := le_iff_toNat_le.mp hn
  have hlt := getDataLength_lt h
  rw [bytes_length] at hfree
  rw [hoff]
  set w : Fifo := { f with buffer := copy f.buffer f.head.toNat d 0 f.getWbuf.2.toNat } with hw
  have hwi : Inv w := ⟨h.head_lt, h.tail_lt⟩
  have hroom : w.getDataLength.toNat + n.toNat < w.size.toNat := by
    change f.getDataLength.toNat + n.toNat < f.size.toNat; omega
  obtain ⟨h1, h2, h3, h4, h5, -⟩ := push_fits hwi hroom none
  have hbuf := h5 rfl
  have hold : ∀ i < f.getDataLength.toNat, (w.push n none).2.buffer ((f.tail.toNat + i) % f.size.toNat) =
      f.buffer ((f.tail.toNat + i) % f.size.toNat) := fun i hi => by
    have hne := fun j hj => old_ne_new h (n := f.getWbuf.2.toNat) (j := j) (by omega) hi hj
    rw [hbuf]
    simp only [hw, copy]
    rw [if_neg]
    intro hc
    refine hne ((f.tail.toNat + i) % f.size.toNat - f.head.toNat) (by omega) ?_
    rw [Nat.add_sub_cancel' hc.1, Nat.mod_mod]
  obtain ⟨h6, h7⟩ := bytes_extend _ h h2 h3 (by omega) h4 hold
  refine ⟨h1, h6, h2, h7.trans ?_⟩
  congr 1
  rw [hbuf, contents_straight _ (by omega)]
  refine map_congr_left fun i hi => ?_
  have := List.mem_range.mp hi
  simp only [hw, copy]
  rw [if_pos (by omega)]
  congr 1
  omega

/-! ### The byte queue

What a caller may do: the calls of the source, and the two zero-copy uses, a
window taken and then committed up to its length. -/

inductive Op where
  | push (n : UInt32) (data : ℕ → UInt8)
  | push8 (b : UInt8)
  | pop (n : UInt32) (data : Option (ℕ → UInt8))
  | pop8
  | peek (n : UInt32) (data : Option (ℕ → UInt8))
  /-- `vsf_fifo_get_rbuf`, the window read, then at most `n` bytes of it popped. -/
  | rbufPop (n : UInt32)
  /-- `vsf_fifo_get_wbuf`, `data` written there, then at most `n` bytes of it pushed. -/
  | wbufPush (data : ℕ → UInt8) (n : UInt32)

/-- What a call returns. -/
inductive Out where
  | pushed (ret : ℕ)
  | byte (b : UInt8)
  | read (ret : ℕ) (data : Option (ℕ → UInt8))
  | rbuf (window : List UInt8) (ret : ℕ)
  | wbuf (window : ℕ) (ret : ℕ)

/-- One call on the ring. -/
def exec (f : Fifo) : Op → Out × Fifo
  | .push n data => let r := f.push n (some data); (.pushed r.1.toNat, r.2)
  | .push8 b => let r := f.push8 b; (.pushed r.1.toNat, r.2)
  | .pop n data => let r := f.pop n data; (.read r.1.toNat r.2.1, r.2.2)
  | .pop8 => let r := f.pop8; (.byte r.1, r.2)
  | .peek n data => let r := f.peek n data; (.read r.1.toNat r.2, f)
  | .rbufPop n =>
    let w := f.getRbuf
    let r := f.pop (if n < w.2 then n else w.2) none
    (.rbuf ((List.range w.2.toNat).map fun i => f.buffer (w.1.toNat + i)) r.1.toNat, r.2.2)
  | .wbufPush data n =>
    let w := f.getWbuf
    let f := { f with buffer := copy f.buffer w.1.toNat data 0 w.2.toNat }
    let r := f.push (if n < w.2 then n else w.2) none
    (.wbuf w.2.toNat r.1.toNat, r.2)

/-- A read puts the oldest `min n length` bytes at `data`; a `NULL` pointer stays one. -/
inductive ReadData (xs : List UInt8) (n : ℕ) : Option (ℕ → UInt8) → Option (ℕ → UInt8) → Prop
  | null : ReadData xs n none none
  | data {d d' : ℕ → UInt8} (hread : firstBytes d' (min n xs.length) = xs.take n)
      (hkeep : ∀ i, min n xs.length ≤ i → d' i = d i) : ReadData xs n (some d) (some d')

/-- **The byte queue of capacity `cap`**: what each call may return and leave. -/
inductive SpecStep (cap : ℕ) (xs : List UInt8) : Op → Out → List UInt8 → Prop
  | push {n : UInt32} {d : ℕ → UInt8} (hfit : n.toNat ≤ cap - xs.length) :
      SpecStep cap xs (.push n d) (.pushed n.toNat) (xs ++ firstBytes d n.toNat)
  | pushFull {n : UInt32} {d : ℕ → UInt8} (hfull : ¬ n.toNat ≤ cap - xs.length) :
      SpecStep cap xs (.push n d) (.pushed 0) xs
  | push8 {b : UInt8} (hfit : 1 ≤ cap - xs.length) : SpecStep cap xs (.push8 b) (.pushed 1) (xs ++ [b])
  | push8Full {b : UInt8} (hfull : ¬ 1 ≤ cap - xs.length) : SpecStep cap xs (.push8 b) (.pushed 0) xs
  | peek {n : UInt32} {d d' : Option (ℕ → UInt8)} (hread : ReadData xs n.toNat d d') :
      SpecStep cap xs (.peek n d) (.read (min n.toNat xs.length) d') xs
  | pop {n : UInt32} {d d' : Option (ℕ → UInt8)} (hread : ReadData xs n.toNat d d') :
      SpecStep cap xs (.pop n d) (.read (min n.toNat xs.length) d') (xs.drop n.toNat)
  | pop8 : SpecStep cap xs .pop8 (.byte (xs.headD 0)) xs.tail
  | rbufPop {n : UInt32} {w : List UInt8} (hpre : w <+: xs) (hne : xs ≠ [] → w ≠ []) :
      SpecStep cap xs (.rbufPop n) (.rbuf w (min n.toNat w.length)) (xs.drop (min n.toNat w.length))
  | wbufPush {d : ℕ → UInt8} {n : UInt32} {w : ℕ} (hfree : xs.length + w ≤ cap)
      (hne : xs.length < cap → 0 < w) :
      SpecStep cap xs (.wbufPush d n) (.wbuf w (min n.toNat w)) (xs ++ firstBytes d (min n.toNat w))

theorem peek_readData (h : Inv f) (n : UInt32) (data : Option (ℕ → UInt8)) :
    ReadData f.bytes n.toNat data (f.peek n data).2 := by
  rcases data with _ | d
  · exact .null
  · obtain ⟨d', h1, h2, h3⟩ := peek_bytes h n d
    rw [h1]
    exact .data h2 h3

theorem min_toNat (a b : UInt32) : (if a < b then a else b).toNat = min a.toNat b.toNat := by
  simp only [lt_iff_toNat_lt]
  split_ifs <;> omega

/-- **Each call on the ring is a step of the byte queue.** -/
theorem exec_spec (h : Inv f) (op : Op) :
    SpecStep (f.size.toNat - 1) f.bytes op (f.exec op).1 (f.exec op).2.bytes ∧
      Inv (f.exec op).2 ∧ (f.exec op).2.size = f.size := by
  rcases op with ⟨n, d⟩ | b | ⟨n, d⟩ | _ | ⟨n, d⟩ | n | ⟨d, n⟩
  · have hp := push_bytes h n d
    unfold exec
    by_cases hfit : n.toNat ≤ f.size.toNat - 1 - f.bytes.length
    · rw [if_pos hfit] at hp
      obtain ⟨h1, h2, h3, h4⟩ := hp
      refine ⟨?_, h2, h3⟩
      simp only
      rw [h1, h4]
      exact .push hfit
    · rw [if_neg hfit] at hp
      simp only [hp]
      exact ⟨.pushFull hfit, h, trivial⟩
  · have hp := push8_bytes h b
    unfold exec
    by_cases hfit : 1 ≤ f.size.toNat - 1 - f.bytes.length
    · rw [if_pos hfit] at hp
      obtain ⟨h1, h2, h3, h4⟩ := hp
      refine ⟨?_, h2, h3⟩
      simp only
      rw [h1, h4]
      exact .push8 hfit
    · rw [if_neg hfit] at hp
      simp only [hp]
      exact ⟨.push8Full hfit, h, trivial⟩
  · obtain ⟨h1, h2, h3, h4, h5⟩ := pop_bytes h n d
    unfold exec
    refine ⟨?_, h3, h4⟩
    simp only
    rw [h1, h2, h5, peek_length]
    exact .pop (peek_readData h n d)
  · obtain ⟨h1, h2, h3, h4⟩ := pop8_bytes h
    unfold exec
    refine ⟨?_, h2, h3⟩
    simp only
    rw [h1, h4]
    exact .pop8
  · refine ⟨?_, h, rfl⟩
    unfold exec
    simp only
    rw [peek_length]
    exact .peek (peek_readData h n d)
  · obtain ⟨h1, h2, h3⟩ := getRbuf_spec h
    obtain ⟨h4, -, h5, h6, h7⟩ := pop_bytes h (if n < f.getRbuf.2 then n else f.getRbuf.2) none
    unfold exec
    dsimp only
    refine ⟨?_, h5, h6⟩
    have hlen : (f.bytes.take f.getRbuf.2.toNat).length = f.getRbuf.2.toNat := by
      rw [length_take]; omega
    have hret : min (min n.toNat f.getRbuf.2.toNat) f.bytes.length =
        min n.toNat (f.bytes.take f.getRbuf.2.toNat).length := by rw [hlen]; omega
    rw [h3, h4, h7, peek_length, min_toNat, hret]
    rw [show min n.toNat f.getRbuf.2.toNat = min n.toNat (f.bytes.take f.getRbuf.2.toNat).length by rw [hlen]]
    refine .rbufPop (List.take_prefix _ _) fun hne => ?_
    exact ne_nil_of_length_pos (by rw [hlen]; exact h2 hne)
  · obtain ⟨-, -, h1, h2⟩ := getWbuf_spec h
    have hle : (if n < f.getWbuf.2 then n else f.getWbuf.2) ≤ f.getWbuf.2 := by
      rw [le_iff_toNat_le, min_toNat]; omega
    obtain ⟨h3, h4, h5, h6⟩ := wbuf_push_bytes h d hle
    unfold exec
    dsimp only
    refine ⟨?_, h4, h5⟩
    rw [h3, h6, min_toNat]
    exact .wbufPush h1 h2

/-! ### Runs -/

/-- A sequence of calls: what they return, and the ring they leave. -/
def run (f : Fifo) : List Op → List Out × Fifo
  | [] => ([], f)
  | op :: ops => let r := run (f.exec op).2 ops; ((f.exec op).1 :: r.1, r.2)

/-- The runs of the byte queue. -/
inductive SpecRun (cap : ℕ) : List UInt8 → List Op → List Out → List UInt8 → Prop
  | nil {xs : List UInt8} : SpecRun cap xs [] [] xs
  | cons {xs ys zs : List UInt8} {op : Op} {o : Out} {ops : List Op} {os : List Out}
      (h : SpecStep cap xs op o ys) (ht : SpecRun cap ys ops os zs) : SpecRun cap xs (op :: ops) (o :: os) zs

theorem run_spec : ∀ (ops : List Op) {f : Fifo}, Inv f →
    SpecRun (f.size.toNat - 1) f.bytes ops (run f ops).1 (run f ops).2.bytes ∧
      Inv (run f ops).2 ∧ (run f ops).2.size = f.size
  | [], f, h => ⟨.nil, h, rfl⟩
  | op :: ops, f, h => by
    obtain ⟨h1, h2, h3⟩ := exec_spec h op
    obtain ⟨h4, h5, h6⟩ := run_spec ops h2
    refine ⟨.cons h1 ?_, h5, h6.trans h3⟩
    rw [← h3]
    exact h4

end Fifo
end Vsf
