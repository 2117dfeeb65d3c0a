/-
# The multi-buffer and its stream

`struct vsf_multibuf_t` is a ring of `count` buffers of `size` bytes, and `multibuf_stream_*` make a
byte stream of it; only whole buffers change hands. The bytes not yet read are a stretch of a ring
of `count * size` bytes (`Mbufstream.bytes`). A read never takes from a buffer that is not full, so
`get_data_length` and `get_avail_length` are right only while no buffer is partly written or read.
-/
import Mathlib
import Vsf.Lib.RingBuf

namespace Vsf

open RingBuf List Option

/-- `struct vsf_multibuf_t`; `bufferList i` is what `buffer_list[i]` points at. -/
structure Multibuf where
  size : ℕ
  bufferList : ℕ → ℕ → UInt8
  count : ℕ
  head : ℕ
  tail : ℕ
  length : ℕ

namespace Multibuf

/-- `vsf_fifo_get_next_index`. -/
def nextIndex (pos size : ℕ) : ℕ := if pos + 1 ≥ size then 0 else pos + 1

/-- `vsf_multibuf_init`. -/
def init (m : Multibuf) : Multibuf := { m with tail := 0, head := 0, length := 0 }

/-- `vsf_multibuf_get_empty`: the index of the buffer, `none` for `NULL`. -/
def getEmpty (m : Multibuf) : Option ℕ := if m.count ≤ m.length then none else some m.head

/-- `vsf_multibuf_push`. -/
def push (m : Multibuf) : Multibuf :=
  if m.count ≤ m.length then m
  else { m with head := nextIndex m.head m.count, length := m.length + 1 }

/-- `vsf_multibuf_get_payload`. -/
def getPayload (m : Multibuf) : Option ℕ := if m.length = 0 then none else some m.tail

/-- `vsf_multibuf_pop`. -/
def pop (m : Multibuf) : Multibuf :=
  if m.length = 0 then m
  else { m with tail := nextIndex m.tail m.count, length := m.length - 1 }

/-- The bytes of all buffers, one buffer behind the other. -/
def flat (m : Multibuf) (k : ℕ) : UInt8 := m.bufferList (k / m.size) (k % m.size)

end Multibuf

/-- `struct vsf_mbufstream_mem_t`. -/
structure Mbufstream where
  multibuf : Multibuf
  rpos : ℕ
  wpos : ℕ

namespace Mbufstream

/-! ### The stream -/

/-- `multibuf_stream_init`. -/
def init (s : Mbufstream) : Mbufstream := ⟨s.multibuf.init, 0, 0⟩

/-- `multibuf_stream_get_data_length`, in 32 bits. -/
def getDataLength (s : Mbufstream) : ℕ :=
  (s.multibuf.length * s.multibuf.size + s.wpos + (2 ^ 32 - s.rpos)) % 2 ^ 32

/-- `multibuf_stream_get_avail_length`, in 32 bits. -/
def getAvailLength (s : Mbufstream) : ℕ :=
  (s.multibuf.count * s.multibuf.size + (2 ^ 32 - s.getDataLength)) % 2 ^ 32

/-- `memcpy(&buf[wpos], &data[wsize], n)` for buffer `b`; nothing for `NULL`. -/
def fill (s : Mbufstream) (b : ℕ) (data : Option (ℕ → UInt8)) (wsize n : ℕ) : Mbufstream :=
  match data with
  | none => s
  | some d => { s with multibuf := { s.multibuf with
      bufferList := Function.update s.multibuf.bufferList b
        (copy (s.multibuf.bufferList b) s.wpos d wsize n) } }

/-- The loop of `multibuf_stream_write`: the bytes taken and the stream. -/
def writeLoop (data : Option (ℕ → UInt8)) : ℕ → Mbufstream → Option ℕ → ℕ → ℕ → Option (ℕ × Mbufstream)
  | _, s, none, wsize, _ => some (wsize, s)
  | 0, _, some _, _, _ => none
  | f + 1, s, some b, wsize, remain =>
    if remain > 0 then
      let cur := min (s.multibuf.size - s.wpos) remain
      let s := s.fill b data wsize cur
      let s := { s with wpos := s.wpos + cur }
      if s.wpos ≥ s.multibuf.size then
        let m := s.multibuf.push
        writeLoop data f { s with multibuf := m, wpos := 0 } m.getEmpty (wsize + cur) (remain - cur)
      else writeLoop data f s (some b) (wsize + cur) (remain - cur)
    else some (wsize, s)

/-- `multibuf_stream_write`. -/
def write (s : Mbufstream) (n : ℕ) (data : Option (ℕ → UInt8)) : Option (ℕ × Mbufstream) :=
  writeLoop data (n + 1) s s.multibuf.getEmpty 0 n

/-- The loop of `multibuf_stream_read`: the bytes read, the memory at `data`, the stream. -/
def readLoop : ℕ → Mbufstream → Option ℕ → Option (ℕ → UInt8) → ℕ → ℕ →
    Option (ℕ × Option (ℕ → UInt8) × Mbufstream)
  | _, s, none, data, rsize, _ => some (rsize, data, s)
  | 0, _, some _, _, _, _ => none
  | f + 1, s, some b, data, rsize, remain =>
    if remain > 0 then
      let cur := min (s.multibuf.size - s.rpos) remain
      let data := data.map fun d => copy d rsize (s.multibuf.bufferList b) s.rpos cur
      let s := { s with rpos := s.rpos + cur }
      if s.rpos ≥ s.multibuf.size then
        let m := s.multibuf.pop
        readLoop f { s with multibuf := m, rpos := 0 } m.getPayload data (rsize + cur) (remain - cur)
      else readLoop f s (some b) data (rsize + cur) (remain - cur)
    else some (rsize, data, s)

/-- `multibuf_stream_read`. -/
def read (s : Mbufstream) (n : ℕ) (data : Option (ℕ → UInt8)) : Option (ℕ × Option (ℕ → UInt8) × Mbufstream) :=
  readLoop (n + 1) s s.multibuf.getPayload data 0 n

/-! ### The bytes it holds -/

/-- The bytes written and not read. -/
def held (s : Mbufstream) : ℕ := s.multibuf.length * s.multibuf.size + s.wpos - s.rpos

/-- Where the oldest of them is. -/
def start (s : Mbufstream) : ℕ := s.multibuf.tail * s.multibuf.size + s.rpos

/-- The bytes written and not read, oldest first. -/
def bytes (s : Mbufstream) : List UInt8 :=
  contents s.multibuf.flat (s.multibuf.count * s.multibuf.size) s.start s.held

/-- The `n` bytes behind those held: what a write without data takes. -/
def gap (s : Mbufstream) (n : ℕ) : List UInt8 :=
  contents s.multibuf.flat (s.multibuf.count * s.multibuf.size) (s.start + s.held) n

/-- The `n` bytes a write takes from `wsize` of `data` on. -/
def source (s : Mbufstream) (data : Option (ℕ → UInt8)) (wsize n : ℕ) : List UInt8 :=
  data.elim (s.gap n) fun d => (List.range n).map fun i => d (wsize + i)

/-- The bytes a read can return: those of whole buffers. -/
def ready (s : Mbufstream) : ℕ := s.multibuf.length * s.multibuf.size - s.rpos

/-- The bytes a write can take. -/
def room (s : Mbufstream) : ℕ := (s.multibuf.count - s.multibuf.length) * s.multibuf.size - s.wpos

/-- The buffers are in the memory, and only one that is there is partly read or written. -/
structure Inv (s : Mbufstream) : Prop where
  size_pos : 1 ≤ s.multibuf.size
  fits : s.multibuf.count * s.multibuf.size < 2 ^ 32
  tail_lt : s.multibuf.tail < s.multibuf.count
  length_le : s.multibuf.length ≤ s.multibuf.count
  head_eq : s.multibuf.head = (s.multibuf.tail + s.multibuf.length) % s.multibuf.count
  rpos_lt : s.rpos < s.multibuf.size
  wpos_lt : s.wpos < s.multibuf.size
  empty : s.multibuf.length = 0 → s.rpos = 0
  full : s.multibuf.length = s.multibuf.count → s.wpos = 0

/-- A stream is set up with at least one buffer, not empty, in the memory. -/
structure Geometry (m : Multibuf) : Prop where
  count_pos : 1 ≤ m.count
  size_pos : 1 ≤ m.size
  fits : m.count * m.size < 2 ^ 32

theorem init_inv {s : Mbufstream} (h : Geometry s.multibuf) : Inv (init s) where
  size_pos := h.size_pos
  fits := h.fits
  tail_lt := h.count_pos
  length_le := Nat.zero_le _
  head_eq := (Nat.zero_mod _).symm
  rpos_lt := h.size_pos
  wpos_lt := h.size_pos
  empty _ := rfl
  full _ := rfl

theorem init_bytes (s : Mbufstream) : (init s).bytes = [] := by
  simp [bytes, held, init, Multibuf.init]

@[simp] theorem bytes_length (s : Mbufstream) : s.bytes.length = s.held := contents_length ..

theorem nextIndex_eq {pos size : ℕ} (h : pos < size) : Multibuf.nextIndex pos size = (pos + 1) % size := by
  unfold Multibuf.nextIndex
  by_cases hw : pos + 1 ≥ size
  · rw [if_pos hw, show pos + 1 = size by omega, Nat.mod_self]
  · rw [if_neg hw, Nat.mod_eq_of_lt (by omega)]

theorem slot_mod {a c size w : ℕ} (hc : 0 < c) (hw : w < size) : (a * size + w) % (c * size) = (a % c) * size + w := by
  have hlt : a % c * size + w < c * size := by
    calc a % c * size + w < a % c * size + size := Nat.add_lt_add_left hw _
      _ = (a % c + 1) * size := by ring
      _ ≤ c * size := Nat.mul_le_mul_right _ (Nat.mod_lt a hc)
  have hsplit : a * size + w = c * size * (a / c) + (a % c * size + w) := by
    calc a * size + w = (c * (a / c) + a % c) * size + w := by rw [Nat.div_add_mod]
      _ = c * size * (a / c) + (a % c * size + w) := by ring
  rw [hsplit, Nat.mul_add_mod, Nat.mod_eq_of_lt hlt]

section
variable {s : Mbufstream} (h : Inv s)
include h

theorem Inv.count_pos : 0 < s.multibuf.count := Nat.lt_of_le_of_lt (Nat.zero_le _) h.tail_lt

theorem Inv.rpos_le : s.rpos ≤ s.multibuf.length * s.multibuf.size := by
  rcases eq_zero_or_pos s.multibuf.length with h0 | hpos
  · rw [h.empty h0]
    exact Nat.zero_le _
  · exact h.rpos_lt.le.trans (Nat.le_mul_of_pos_left _ hpos)

theorem Inv.wpos_le : s.wpos ≤ (s.multibuf.count - s.multibuf.length) * s.multibuf.size := by
  rcases eq_or_lt_of_le h.length_le with h0 | hlt
  · rw [h.full h0]
    exact Nat.zero_le _
  · exact h.wpos_lt.le.trans (Nat.le_mul_of_pos_left _ (by omega))

theorem Inv.head_lt : s.multibuf.head < s.multibuf.count := by
  rw [h.head_eq]
  exact Nat.mod_lt _ h.count_pos

theorem Inv.capacity : s.multibuf.length * s.multibuf.size +
    (s.multibuf.count - s.multibuf.length) * s.multibuf.size = s.multibuf.count * s.multibuf.size := by
  rw [← add_mul, Nat.add_sub_cancel' h.length_le]

theorem Inv.end_slot : (s.start + s.held) % (s.multibuf.count * s.multibuf.size) =
    s.multibuf.head * s.multibuf.size + s.wpos := by
  have hsum : s.start + s.held = (s.multibuf.tail + s.multibuf.length) * s.multibuf.size + s.wpos := by
    have := h.rpos_le
    unfold start held
    rw [add_mul]
    omega
  rw [hsum, slot_mod h.count_pos h.wpos_lt, h.head_eq]

/-! ### One buffer of a write -/

omit h in
/-- Writing into the buffer at the head is writing behind the bytes held. -/
theorem flat_fill (d : ℕ → UInt8) {wsize n : ℕ} (hn : s.wpos + n ≤ s.multibuf.size) :
    (s.fill s.multibuf.head (some d) wsize n).multibuf.flat =
      copy s.multibuf.flat (s.multibuf.head * s.multibuf.size + s.wpos) d wsize n := by
  funext k
  have hk := Nat.div_add_mod k s.multibuf.size
  simp only [fill, Multibuf.flat, copy]
  by_cases hb : k / s.multibuf.size = s.multibuf.head
  · have hk' : k = s.multibuf.head * s.multibuf.size + k % s.multibuf.size := by
      rw [← hb, mul_comm]
      exact hk.symm
    rw [hb, Function.update_self]
    simp only [copy]
    by_cases hin : s.wpos ≤ k % s.multibuf.size ∧ k % s.multibuf.size < s.wpos + n
    · rw [if_pos hin, if_pos (by omega)]
      congr 1
      omega
    · rw [if_neg hin, if_neg (by omega)]
  · rw [Function.update_of_ne hb, if_neg]
    intro ⟨h1, h2⟩
    apply hb
    apply Nat.div_eq_of_lt_le
    · omega
    · rw [add_mul, one_mul]
      omega

theorem Inv.contents_fill (data : Option (ℕ → UInt8)) (wsize : ℕ) {n : ℕ} (hn : s.wpos + n ≤ s.multibuf.size)
    (hroom : s.multibuf.length < s.multibuf.count) :
    contents (s.fill s.multibuf.head data wsize n).multibuf.flat (s.multibuf.count * s.multibuf.size)
      s.start (s.held + n) = s.bytes ++ s.source data wsize n := by
  have hcap := h.capacity
  have hheld : s.held + n ≤ s.multibuf.count * s.multibuf.size := by
    have : s.multibuf.size ≤ (s.multibuf.count - s.multibuf.length) * s.multibuf.size :=
      Nat.le_mul_of_pos_left _ (by omega)
    unfold held
    omega
  have hend : s.multibuf.head * s.multibuf.size + s.wpos + n ≤ s.multibuf.count * s.multibuf.size := by
    calc s.multibuf.head * s.multibuf.size + s.wpos + n
        ≤ s.multibuf.head * s.multibuf.size + s.multibuf.size := by omega
      _ = (s.multibuf.head + 1) * s.multibuf.size := by ring
      _ ≤ s.multibuf.count * s.multibuf.size := Nat.mul_le_mul_right _ h.head_lt
  cases data with
  | none => exact contents_append ..
  | some d =>
    rw [flat_fill d hn, contents_append, bytes]
    congr 1
    · refine contents_congr fun i hi => ?_
      simp only [copy]
      rw [if_neg]
      intro hc
      -- the slot would be one of the free ones behind the bytes held
      have hslot := h.end_slot
      generalize hk : (s.start + i) % (s.multibuf.count * s.multibuf.size) = k at hc
      have heq : (s.start + i) % (s.multibuf.count * s.multibuf.size) =
          (s.start + (s.held + (k - (s.multibuf.head * s.multibuf.size + s.wpos)))) %
            (s.multibuf.count * s.multibuf.size) := by
        rw [← add_assoc, ← Nat.mod_add_mod (s.start + s.held), hslot, Nat.add_sub_cancel' hc.1, ← hk,
          Nat.mod_mod]
      have hj := slot_inj (by omega) (by omega) heq
      omega
    · rw [← contents_mod, h.end_slot, contents_straight _ hend]
      refine map_congr_left fun i hi => ?_
      have := List.mem_range.mp hi
      simp only [copy]
      rw [if_pos (by omega)]
      congr 1
      omega

end

/-- The geometry stays. -/
structure Same (s s' : Mbufstream) : Prop where
  size : s'.multibuf.size = s.multibuf.size
  count : s'.multibuf.count = s.multibuf.count

theorem Same.refl (s : Mbufstream) : Same s s := ⟨rfl, rfl⟩

theorem Same.trans {s s' s'' : Mbufstream} (h : Same s s') (h' : Same s' s'') : Same s s'' :=
  ⟨h'.size.trans h.size, h'.count.trans h.count⟩

/-- What writing `n` bytes, from `wsize` of `data` on, makes of a stream. -/
structure Filled (s s' : Mbufstream) (data : Option (ℕ → UInt8)) (wsize n : ℕ) : Prop where
  inv : Inv s'
  same : Same s s'
  rpos : s'.rpos = s.rpos
  room : s'.room = s.room - n
  bytes : s'.bytes = s.bytes ++ s.source data wsize n
  gap : data = none → ∀ k, s'.gap k = contents s.multibuf.flat (s.multibuf.count * s.multibuf.size)
    (s.start + s.held + n) k

theorem Filled.zero {s : Mbufstream} (h : Inv s) (data : Option (ℕ → UInt8)) (wsize : ℕ) :
    Filled s s data wsize 0 := by
  refine ⟨h, .refl s, rfl, rfl, ?_, fun _ _ => rfl⟩
  cases data <;> exact (append_nil _).symm

theorem Filled.trans {s u v : Mbufstream} {data : Option (ℕ → UInt8)} {wsize m n : ℕ}
    (h : Filled s u data wsize m) (h' : Filled u v data (wsize + m) n) : Filled s v data wsize (m + n) := by
  refine ⟨h'.inv, h.same.trans h'.same, h'.rpos.trans h.rpos, ?_, ?_, fun hd k => ?_⟩
  · rw [h'.room, h.room, Nat.sub_sub]
  · rw [h'.bytes, h.bytes, append_assoc]
    congr 1
    cases data with
    | none =>
      show s.gap m ++ u.gap n = s.gap (m + n)
      rw [h.gap rfl, Mbufstream.gap, Mbufstream.gap, contents_append]
    | some d =>
      simp only [source, elim_some, range_add, map_append, List.map_map]
      congr 1
      apply map_congr_left
      intro i _
      rw [Function.comp_apply, add_assoc]
  · have hn : u.gap n ++ v.gap k = u.gap (n + k) := by
      rw [h'.gap hd, Mbufstream.gap, Mbufstream.gap, contents_append]
    have hm := h.gap hd (n + k)
    rw [contents_append, ← h.gap hd n, ← hn] at hm
    rw [← add_assoc]
    exact append_cancel_left hm

theorem fill_fields (s : Mbufstream) (b : ℕ) (data : Option (ℕ → UInt8)) (wsize n : ℕ) :
    ∃ l, s.fill b data wsize n = { s with multibuf := { s.multibuf with bufferList := l } } ∧
      (data = none → l = s.multibuf.bufferList) := by
  cases data with
  | none => exact ⟨_, rfl, fun _ => rfl⟩
  | some d => exact ⟨_, rfl, fun hd => (by cases hd)⟩

section
variable {s : Mbufstream} (h : Inv s)
include h

theorem Inv.fillPart (data : Option (ℕ → UInt8)) (wsize : ℕ) {n : ℕ}
    (hlt : s.multibuf.length < s.multibuf.count) (hn : s.wpos + n < s.multibuf.size) :
    Filled s { s.fill s.multibuf.head data wsize n with wpos := s.wpos + n } data wsize n := by
  have hcont := h.contents_fill data wsize hn.le hlt
  obtain ⟨l, hl, hnone⟩ := fill_fields s s.multibuf.head data wsize n
  have hrpos := h.rpos_le
  have hheld : s.multibuf.length * s.multibuf.size + (s.wpos + n) - s.rpos = s.held + n := by
    unfold held
    omega
  rw [hl] at hcont ⊢
  refine ⟨⟨h.size_pos, h.fits, h.tail_lt, h.length_le, h.head_eq, h.rpos_lt, hn, h.empty, fun he => ?_⟩,
    ⟨rfl, rfl⟩, rfl, ?_, ?_, fun hd k => ?_⟩
  · exact absurd he (ne_of_lt hlt)
  · show (s.multibuf.count - s.multibuf.length) * s.multibuf.size - (s.wpos + n) = s.room - n
    rw [room, Nat.sub_sub]
  · rw [← hcont]
    show contents _ _ _ (s.multibuf.length * s.multibuf.size + (s.wpos + n) - s.rpos) = _
    rw [hheld]
    rfl
  · rw [hnone hd]
    show contents s.multibuf.flat _
      (s.start + (s.multibuf.length * s.multibuf.size + (s.wpos + n) - s.rpos)) k = _
    rw [hheld, add_assoc]

/-- Filling the rest of the buffer at the head hands it on. -/
theorem Inv.fillRest (data : Option (ℕ → UInt8)) (wsize : ℕ) {n : ℕ}
    (hlt : s.multibuf.length < s.multibuf.count) (hn : s.wpos + n = s.multibuf.size) :
    Filled s { s.fill s.multibuf.head data wsize n with
      multibuf := (s.fill s.multibuf.head data wsize n).multibuf.push, wpos := 0 } data wsize n := by
  have hcont := h.contents_fill data wsize hn.le hlt
  obtain ⟨l, hl, hnone⟩ := fill_fields s s.multibuf.head data wsize n
  have hrpos := h.rpos_le
  have hheld : (s.multibuf.length + 1) * s.multibuf.size + 0 - s.rpos = s.held + n := by
    rw [Nat.succ_mul]
    unfold held
    omega
  have hroom : (s.multibuf.count - s.multibuf.length) * s.multibuf.size =
      (s.multibuf.count - (s.multibuf.length + 1)) * s.multibuf.size + s.multibuf.size := by
    rw [← Nat.succ_mul]
    congr 1
    omega
  have hpush : ({ s.multibuf with bufferList := l } : Multibuf).push = { s.multibuf with
      bufferList := l, head := (s.multibuf.head + 1) % s.multibuf.count, length := s.multibuf.length + 1 } := by
    rw [Multibuf.push, if_neg (Nat.not_le_of_lt hlt), nextIndex_eq h.head_lt]
  rw [hl] at hcont ⊢
  rw [hpush]
  refine ⟨⟨h.size_pos, h.fits, h.tail_lt, hlt, ?_, h.rpos_lt, h.size_pos, fun he => ?_, fun _ => rfl⟩,
    ⟨rfl, rfl⟩, rfl, ?_, ?_, fun hd k => ?_⟩
  · show (s.multibuf.head + 1) % s.multibuf.count =
      (s.multibuf.tail + (s.multibuf.length + 1)) % s.multibuf.count
    rw [h.head_eq, Nat.mod_add_mod, add_assoc]
  · exact absurd he (Nat.succ_ne_zero _)
  · show (s.multibuf.count - (s.multibuf.length + 1)) * s.multibuf.size - 0 = s.room - n
    unfold room
    omega
  · rw [← hcont]
    show contents _ _ _ ((s.multibuf.length + 1) * s.multibuf.size + 0 - s.rpos) = _
    rw [hheld]
    rfl
  · rw [hnone hd]
    show contents s.multibuf.flat _
      (s.start + ((s.multibuf.length + 1) * s.multibuf.size + 0 - s.rpos)) k = _
    rw [hheld, add_assoc]

end

/-- The loop of a write takes what there is room for; by induction on what remains. -/
theorem writeLoop_spec (data : Option (ℕ → UInt8)) : ∀ (f : ℕ) (s : Mbufstream) (wsize remain : ℕ),
    Inv s → remain < f →
    ∃ s', writeLoop data f s s.multibuf.getEmpty wsize remain = some (wsize + min remain s.room, s') ∧
      Filled s s' data wsize (min remain s.room) := by
  intro f
  induction f with
  | zero => intro s wsize remain _ hf; omega
  | succ f ih =>
    intro s wsize remain h hf
    have hwlt := h.wpos_lt
    by_cases hzero : min remain s.room = 0
    · rw [hzero]
      refine ⟨s, ?_, .zero h data wsize⟩
      by_cases hfull : s.multibuf.count ≤ s.multibuf.length
      · rw [Multibuf.getEmpty, if_pos hfull, writeLoop]
        rfl
      · have hone : s.multibuf.size ≤ (s.multibuf.count - s.multibuf.length) * s.multibuf.size :=
          Nat.le_mul_of_pos_left _ (by omega)
        have hrem : ¬ remain > 0 := by
          unfold room at hzero
          omega
        rw [Multibuf.getEmpty, if_neg hfull, writeLoop, if_neg hrem]
        rfl
    have hlt : s.multibuf.length < s.multibuf.count := by
      by_contra hfull
      apply hzero
      rw [room, Nat.sub_eq_zero_of_le (Nat.le_of_not_lt hfull), Nat.zero_mul, Nat.zero_sub, Nat.min_zero]
    have hone : s.multibuf.size ≤ (s.multibuf.count - s.multibuf.length) * s.multibuf.size :=
      Nat.le_mul_of_pos_left _ (by omega)
    rw [Multibuf.getEmpty, if_neg (Nat.not_le_of_lt hlt), writeLoop, if_pos (by omega)]
    set cur := min (s.multibuf.size - s.wpos) remain with hcur
    have hcurle : cur ≤ s.room := by
      unfold room
      omega
    obtain ⟨l, hl, -⟩ := fill_fields s s.multibuf.head data wsize cur
    -- the rest of the loop, from the state this buffer leaves
    have hstep : ∀ u : Mbufstream, Filled s u data wsize cur →
        ∃ s', writeLoop data f u u.multibuf.getEmpty (wsize + cur) (remain - cur) =
            some (wsize + min remain s.room, s') ∧ Filled s s' data wsize (min remain s.room) := by
      intro u hu
      obtain ⟨s', h1, h2⟩ := ih u (wsize + cur) (remain - cur) hu.inv (by omega)
      have hmin : cur + min (remain - cur) u.room = min remain s.room := by
        rw [hu.room]
        omega
      refine ⟨s', ?_, ?_⟩
      · rw [h1, add_assoc, hmin]
      · rw [← hmin]
        exact hu.trans h2
    dsimp only
    by_cases hlast : s.wpos + cur ≥ s.multibuf.size
    · have hgoal := hstep _ (h.fillRest data wsize hlt (n := cur) (by omega))
      rw [hl] at hgoal ⊢
      rw [if_pos hlast]
      exact hgoal
    · have hgoal := hstep _ (h.fillPart data wsize hlt (n := cur) (by omega))
      rw [hl] at hgoal ⊢
      rw [if_neg hlast]
      rw [Multibuf.getEmpty, if_neg (Nat.not_le_of_lt hlt)] at hgoal
      exact hgoal

/-- **A write takes what there is room for**; without data, what the buffers happen to hold. -/
theorem write_spec {s : Mbufstream} (h : Inv s) (n : ℕ) (data : Option (ℕ → UInt8)) :
    ∃ s', s.write n data = some (min n s.room, s') ∧ Filled s s' data 0 (min n s.room) := by
  obtain ⟨s', h1, h2⟩ := writeLoop_spec data (n + 1) s 0 n h (Nat.lt_succ_self n)
  rw [zero_add] at h1
  exact ⟨s', h1, h2⟩

/-! ### One buffer of a read -/

section
variable {s : Mbufstream} (h : Inv s)
include h

/-- The oldest bytes held are in the buffer at the tail. -/
theorem Inv.front {n : ℕ} (hn : s.rpos + n ≤ s.multibuf.size) :
    contents s.multibuf.flat (s.multibuf.count * s.multibuf.size) s.start n =
      (List.range n).map fun i => s.multibuf.bufferList s.multibuf.tail (s.rpos + i) := by
  have hend : s.start + n ≤ s.multibuf.count * s.multibuf.size := by
    calc s.start + n = s.multibuf.tail * s.multibuf.size + (s.rpos + n) := by rw [start, Nat.add_assoc]
      _ ≤ s.multibuf.tail * s.multibuf.size + s.multibuf.size := Nat.add_le_add_left hn _
      _ = (s.multibuf.tail + 1) * s.multibuf.size := by ring
      _ ≤ s.multibuf.count * s.multibuf.size := Nat.mul_le_mul_right _ h.tail_lt
  rw [contents_straight _ hend]
  refine map_congr_left fun i hi => ?_
  have hlt : s.rpos + i < s.multibuf.size := by
    have := List.mem_range.mp hi
    omega
  have hk : s.start + i = s.rpos + i + s.multibuf.size * s.multibuf.tail := by
    rw [start, mul_comm]
    omega
  rw [Multibuf.flat, hk, Nat.add_mul_div_left _ _ h.size_pos, Nat.add_mul_mod_self_left,
    Nat.div_eq_of_lt hlt, Nat.mod_eq_of_lt hlt, zero_add]

theorem Inv.advance (hpos : 0 < s.multibuf.length) {n : ℕ} (hn : s.rpos + n < s.multibuf.size) :
    Inv { s with rpos := s.rpos + n } ∧ ({ s with rpos := s.rpos + n } : Mbufstream).bytes = s.bytes.drop n ∧
      ({ s with rpos := s.rpos + n } : Mbufstream).ready = s.ready - n := by
  have hone : s.multibuf.size ≤ s.multibuf.length * s.multibuf.size := Nat.le_mul_of_pos_left _ hpos
  refine ⟨⟨h.size_pos, h.fits, h.tail_lt, h.length_le, h.head_eq, hn, h.wpos_lt, fun h0 => ?_, h.full⟩, ?_, ?_⟩
  · exact absurd h0 (ne_of_gt hpos)
  · rw [bytes, bytes, drop_contents _ (by unfold held; omega)]
    show contents s.multibuf.flat _ (s.multibuf.tail * s.multibuf.size + (s.rpos + n))
      (s.multibuf.length * s.multibuf.size + s.wpos - (s.rpos + n)) = _
    rw [start, held, Nat.add_assoc, Nat.sub_sub]
  · show s.multibuf.length * s.multibuf.size - (s.rpos + n) = s.multibuf.length * s.multibuf.size - s.rpos - n
    rw [Nat.sub_sub]

/-- Reading the rest of the buffer at the tail gives it back. -/
theorem Inv.giveBack (hpos : 0 < s.multibuf.length) {n : ℕ} (hn : s.rpos + n = s.multibuf.size) :
    Inv { s with multibuf := s.multibuf.pop, rpos := 0 } ∧
      ({ s with multibuf := s.multibuf.pop, rpos := 0 } : Mbufstream).bytes = s.bytes.drop n ∧
      ({ s with multibuf := s.multibuf.pop, rpos := 0 } : Mbufstream).ready = s.ready - n ∧
      Same s { s with multibuf := s.multibuf.pop, rpos := 0 } := by
  have hpop : s.multibuf.pop = { s.multibuf with
      tail := (s.multibuf.tail + 1) % s.multibuf.count, length := s.multibuf.length - 1 } := by
    rw [Multibuf.pop, if_neg (by omega), nextIndex_eq h.tail_lt]
  have hsplit : s.multibuf.length * s.multibuf.size =
      (s.multibuf.length - 1) * s.multibuf.size + s.multibuf.size := by
    rw [← Nat.succ_mul]
    congr 1
    omega
  have hle := h.length_le
  rw [hpop]
  refine ⟨⟨h.size_pos, h.fits, Nat.mod_lt _ h.count_pos, ?_, ?_, h.size_pos, h.wpos_lt, fun _ => rfl, fun hf => ?_⟩,
    ?_, ?_, ⟨rfl, rfl⟩⟩
  · show s.multibuf.length - 1 ≤ s.multibuf.count
    omega
  · show s.multibuf.head = ((s.multibuf.tail + 1) % s.multibuf.count + (s.multibuf.length - 1)) % s.multibuf.count
    rw [h.head_eq, Nat.mod_add_mod]
    congr 1
    omega
  · have hf : s.multibuf.length - 1 = s.multibuf.count := hf
    omega
  · rw [bytes, bytes, drop_contents _ (by unfold held; omega), ← contents_mod _ _ (s.start + n)]
    show contents s.multibuf.flat _ ((s.multibuf.tail + 1) % s.multibuf.count * s.multibuf.size + 0)
      ((s.multibuf.length - 1) * s.multibuf.size + s.wpos - 0) = _
    have hstart : s.start + n = (s.multibuf.tail + 1) * s.multibuf.size + 0 := by
      rw [start, add_assoc, hn, Nat.succ_mul, add_zero]
    rw [hstart, slot_mod h.count_pos h.size_pos]
    congr 1
    unfold held
    omega
  · show (s.multibuf.length - 1) * s.multibuf.size - 0 = s.multibuf.length * s.multibuf.size - s.rpos - n
    omega

end

/-- What a read leaves at `data`: the bytes `c` from `rsize` on, the rest as it was. -/
def Delivered (data data' : Option (ℕ → UInt8)) (rsize : ℕ) (c : List UInt8) : Prop :=
  data'.isSome = data.isSome ∧ ∀ d ∈ data, ∀ d' ∈ data',
    (List.range c.length).map (fun i => d' (rsize + i)) = c ∧
    ∀ i, i < rsize ∨ rsize + c.length ≤ i → d' i = d i

theorem Delivered.nil (data : Option (ℕ → UInt8)) (rsize : ℕ) : Delivered data data rsize [] := by
  refine ⟨rfl, fun d hd d' hd' => ⟨rfl, fun i _ => ?_⟩⟩
  rw [mem_unique hd hd']

theorem Delivered.cons {data data' : Option (ℕ → UInt8)} {rsize n : ℕ} {src : ℕ → UInt8} {p : ℕ} {c : List UInt8}
    (h : Delivered (data.map fun d => copy d rsize src p n) data' (rsize + n) c) :
    Delivered data data' rsize (((List.range n).map fun i => src (p + i)) ++ c) := by
  refine ⟨by rw [h.1, isSome_map], fun d hd d' hd' => ?_⟩
  obtain ⟨hc, hrest⟩ := h.2 _ (Option.mem_map_of_mem _ hd) d' hd'
  have hlen : (((List.range n).map fun i => src (p + i)) ++ c).length = n + c.length := by simp
  rw [hlen]
  refine ⟨?_, fun i hi => ?_⟩
  · rw [range_add, map_append, List.map_map]
    congr 1
    · refine map_congr_left fun i hi => ?_
      have := List.mem_range.mp hi
      rw [hrest (rsize + i) (by omega), copy, if_pos (by omega), Nat.add_sub_cancel_left]
    · conv_rhs => rw [← hc]
      refine map_congr_left fun i _ => ?_
      rw [Function.comp_apply, add_assoc]
  · rw [hrest i (by omega), copy, if_neg (by omega)]

/-- The loop of a read returns whole buffers; by induction on what remains. -/
theorem readLoop_spec : ∀ (f : ℕ) (s : Mbufstream) (data : Option (ℕ → UInt8)) (rsize remain : ℕ),
    Inv s → remain < f →
    ∃ s' data', readLoop f s s.multibuf.getPayload data rsize remain =
        some (rsize + min remain s.ready, data', s') ∧
      Inv s' ∧ Same s s' ∧ s'.wpos = s.wpos ∧ s'.bytes = s.bytes.drop (min remain s.ready) ∧
      Delivered data data' rsize (s.bytes.take (min remain s.ready)) := by
  intro f
  induction f with
  | zero => intro s data rsize remain _ hf; omega
  | succ f ih =>
    intro s data rsize remain h hf
    by_cases hzero : min remain s.ready = 0
    · rw [hzero]
      refine ⟨s, data, ?_, h, .refl s, rfl, rfl, .nil data rsize⟩
      by_cases hempty : s.multibuf.length = 0
      · rw [Multibuf.getPayload, if_pos hempty, readLoop]
        rfl
      · have hone : s.multibuf.size ≤ s.multibuf.length * s.multibuf.size :=
          Nat.le_mul_of_pos_left _ (pos_of_ne_zero hempty)
        have hr := h.rpos_lt
        have hrem : ¬ remain > 0 := by
          unfold ready at hzero
          omega
        rw [Multibuf.getPayload, if_neg hempty, readLoop, if_neg hrem]
        rfl
    have hpos : 0 < s.multibuf.length := by
      apply pos_of_ne_zero
      intro h0
      apply hzero
      rw [ready, h0, Nat.zero_mul, Nat.zero_sub, Nat.min_zero]
    have hone : s.multibuf.size ≤ s.multibuf.length * s.multibuf.size := Nat.le_mul_of_pos_left _ hpos
    have hr := h.rpos_lt
    rw [Multibuf.getPayload, if_neg (ne_of_gt hpos), readLoop, if_pos (by omega)]
    set cur := min (s.multibuf.size - s.rpos) remain with hcur
    have hready : cur ≤ s.ready := by
      unfold ready
      omega
    have hheld : s.ready ≤ s.held := by
      unfold ready held
      omega
    have hfront : s.bytes.take cur =
        (List.range cur).map fun i => s.multibuf.bufferList s.multibuf.tail (s.rpos + i) := by
      rw [bytes, take_contents _ (by omega), h.front (by omega)]
    -- the rest of the loop, from the state this buffer leaves
    have hstep : ∀ u : Mbufstream, Inv u → Same s u → u.wpos = s.wpos → u.ready = s.ready - cur →
        u.bytes = s.bytes.drop cur →
        ∃ s' data', readLoop f u u.multibuf.getPayload
            (data.map fun d => copy d rsize (s.multibuf.bufferList s.multibuf.tail) s.rpos cur)
            (rsize + cur) (remain - cur) = some (rsize + min remain s.ready, data', s') ∧
          Inv s' ∧ Same s s' ∧ s'.wpos = s.wpos ∧ s'.bytes = s.bytes.drop (min remain s.ready) ∧
          Delivered data data' rsize (s.bytes.take (min remain s.ready)) := by
      intro u hu hsame hw hur hbytes
      have hmin : cur + min (remain - cur) u.ready = min remain s.ready := by omega
      obtain ⟨s', data', h1, h2, h3, h4, h5, h6⟩ := ih u
        (data.map fun d => copy d rsize (s.multibuf.bufferList s.multibuf.tail) s.rpos cur)
        (rsize + cur) (remain - cur) hu (by omega)
      refine ⟨s', data', ?_, h2, hsame.trans h3, h4.trans hw, ?_, ?_⟩
      · rw [h1, add_assoc, hmin]
      · rw [h5, hbytes, drop_drop, hmin]
      · have hsplit : s.bytes.take (min remain s.ready) =
            s.bytes.take cur ++ u.bytes.take (min (remain - cur) u.ready) := by
          rw [← hmin, take_add, hbytes]
        rw [hsplit, hfront]
        exact h6.cons
    by_cases hlast : s.rpos + cur ≥ s.multibuf.size
    · rw [if_pos hlast]
      obtain ⟨hi, hb, hrd, hsm⟩ := h.giveBack hpos (n := cur) (by omega)
      exact hstep _ hi hsm rfl hrd hb
    · rw [if_neg hlast]
      obtain ⟨hi, hb, hrd⟩ := h.advance hpos (n := cur) (by omega)
      have hgoal := hstep { s with rpos := s.rpos + cur } hi ⟨rfl, rfl⟩ rfl hrd hb
      rw [show ({ s with rpos := s.rpos + cur } : Mbufstream).multibuf.getPayload = some s.multibuf.tail by
        rw [Multibuf.getPayload, if_neg (ne_of_gt hpos)]] at hgoal
      exact hgoal

/-- **A read returns whole buffers**, oldest first, and takes them out. -/
theorem read_spec {s : Mbufstream} (h : Inv s) (n : ℕ) (data : Option (ℕ → UInt8)) :
    ∃ s' data', s.read n data = some (min n s.ready, data', s') ∧ Inv s' ∧ Same s s' ∧ s'.wpos = s.wpos ∧
      s'.bytes = s.bytes.drop (min n s.ready) ∧ Delivered data data' 0 (s.bytes.take (min n s.ready)) := by
  obtain ⟨s', data', h1, h2⟩ := readLoop_spec (n + 1) s data 0 n h (Nat.lt_succ_self n)
  rw [zero_add] at h1
  exact ⟨s', data', h1, h2⟩

/-! ### Runs -/

/-- A call of the stream. -/
inductive Op
  | write (n : ℕ) (data : Option (ℕ → UInt8))
  | read (n : ℕ) (data : Option (ℕ → UInt8))

/-- A stream with all the bytes its writes took and its reads returned. -/
structure Trace where
  s : Mbufstream
  written : List UInt8
  taken : List UInt8

/-- The bytes a read of `n` finds, in a memory of its own. -/
def peek (s : Mbufstream) (n : ℕ) : List UInt8 :=
  match s.read n (some fun _ => 0) with
  | some (r, some d, _) => (List.range r).map d
  | _ => []

/-- One call; a read without data drops the bytes it finds. -/
def Trace.step (t : Trace) : Op → Option Trace
  | .write n data => (t.s.write n data).map fun (w, s') =>
    ⟨s', t.written ++ (data.elim (t.s.gap w) fun d => (List.range w).map d), t.taken⟩
  | .read n data => (t.s.read n data).map fun (r, data', s') =>
    ⟨s', t.written, t.taken ++ (data'.elim (t.s.peek n) fun d => (List.range r).map d)⟩

/-- A sequence of calls; `none` would be a call that does not return. -/
def Trace.run : Trace → List Op → Option Trace
  | t, [] => some t
  | t, op :: ops => (t.step op).bind fun t' => t'.run ops

/-- What was written is what was taken and what is held. -/
structure Trace.Inv (t : Trace) : Prop where
  stream : t.s.Inv
  written : t.written = t.taken ++ t.s.bytes

theorem Delivered.map_eq {data data' : Option (ℕ → UInt8)} {c : List UInt8} {k : ℕ} (h : Delivered data data' 0 c)
    (hk : c.length = k) : ∀ d' ∈ data', (List.range k).map d' = c := by
  intro d' hd'
  obtain ⟨d, hd⟩ : ∃ d, data = some d := by
    rw [← isSome_iff_exists, ← h.1, isSome_iff_exists]
    exact ⟨d', hd'⟩
  have := (h.2 d hd d' hd').1
  simp only [zero_add] at this
  rw [← hk]
  exact this

theorem ready_le_held {s : Mbufstream} : s.ready ≤ s.held := by
  unfold ready held
  omega

theorem peek_eq {s : Mbufstream} (h : Inv s) (n : ℕ) : s.peek n = s.bytes.take (min n s.ready) := by
  obtain ⟨s', data', heq, -, -, -, -, hdel⟩ := read_spec h n (some fun _ => 0)
  obtain ⟨d, rfl⟩ : ∃ d, data' = some d := isSome_iff_exists.mp (by rw [hdel.1]; rfl)
  have hlen : (s.bytes.take (min n s.ready)).length = min n s.ready := by
    have := ready_le_held (s := s)
    rw [length_take, bytes_length]
    omega
  rw [peek, heq]
  exact hdel.map_eq hlen d rfl

theorem Trace.step_inv {t : Trace} (h : t.Inv) (op : Op) : ∃ t', t.step op = some t' ∧ t'.Inv ∧ Same t.s t'.s := by
  cases op with
  | write n data =>
    obtain ⟨s', heq, hf⟩ := write_spec h.stream n data
    rw [Trace.step, heq, map_some]
    refine ⟨_, rfl, ⟨hf.inv, ?_⟩, hf.same⟩
    show t.written ++ _ = t.taken ++ s'.bytes
    rw [hf.bytes, h.written, append_assoc]
    cases data with
    | none => rfl
    | some d => simp only [source, elim_some, zero_add]
  | read n data =>
    obtain ⟨s', data', heq, hinv, hsame, -, hbytes, hdel⟩ := read_spec h.stream n data
    rw [Trace.step, heq, map_some]
    refine ⟨_, rfl, ⟨hinv, ?_⟩, hsame⟩
    have hlen : (t.s.bytes.take (min n t.s.ready)).length = min n t.s.ready := by
      have := ready_le_held (s := t.s)
      rw [length_take, bytes_length]
      omega
    have hout : (data'.elim (t.s.peek n) fun d => (List.range (min n t.s.ready)).map d) =
        t.s.bytes.take (min n t.s.ready) := by
      cases data' with
      | none => exact peek_eq h.stream n
      | some d => exact hdel.map_eq hlen d rfl
    show t.written = t.taken ++ _ ++ s'.bytes
    rw [hout, hbytes, h.written, append_assoc, take_append_drop]

theorem Trace.run_inv : ∀ (ops : List Op) (t : Trace), t.Inv →
    ∃ t', t.run ops = some t' ∧ t'.Inv ∧ Same t.s t'.s
  | [], t, h => ⟨t, rfl, h, .refl t.s⟩
  | op :: ops, t, h => by
    obtain ⟨u, hu, hui, hus⟩ := Trace.step_inv h op
    obtain ⟨t', h1, h2, h3⟩ := Trace.run_inv ops u hui
    refine ⟨t', ?_, h2, hus.trans h3⟩
    rw [Trace.run, hu, bind_some, h1]

/-! ### The two lengths -/

section
variable {s : Mbufstream} (h : Inv s)
include h

theorem Inv.getDataLength_eq : s.getDataLength = s.ready + s.wpos := by
  have hr := h.rpos_le
  have hw := h.wpos_le
  have hcap := h.capacity
  have hfit := h.fits
  unfold getDataLength ready
  omega

theorem Inv.getAvailLength_eq : s.getAvailLength = s.room + s.rpos := by
  have hr := h.rpos_le
  have hw := h.wpos_le
  have hcap := h.capacity
  have hfit := h.fits
  rw [getAvailLength, h.getDataLength_eq]
  unfold ready room
  omega

theorem Inv.ready_le : s.ready ≤ s.multibuf.count * s.multibuf.size := by
  have hcap := h.capacity
  unfold ready
  omega

theorem Inv.room_le : s.room ≤ s.multibuf.count * s.multibuf.size := by
  have hcap := h.capacity
  unfold room
  omega

theorem Inv.dataLength_iff :
    (∀ n data, s.multibuf.count * s.multibuf.size ≤ n → (s.read n data).map Prod.fst = some s.getDataLength) ↔
      s.wpos = 0 := by
  have hread : ∀ n data, s.multibuf.count * s.multibuf.size ≤ n → (s.read n data).map Prod.fst = some s.ready := by
    intro n data hn
    obtain ⟨s', data', heq, -⟩ := read_spec h n data
    have hle := h.ready_le
    rw [heq, map_some, Nat.min_eq_right (by omega)]
  rw [h.getDataLength_eq]
  constructor
  · intro hall
    have heq := (hread _ none (le_refl _)).symm.trans (hall _ none (le_refl _))
    have := some.inj heq
    omega
  · intro h0 n data hn
    rw [hread n data hn, h0, add_zero]

theorem Inv.availLength_iff :
    (∀ n data, s.multibuf.count * s.multibuf.size ≤ n → (s.write n data).map Prod.fst = some s.getAvailLength) ↔
      s.rpos = 0 := by
  have hwrite : ∀ n data, s.multibuf.count * s.multibuf.size ≤ n →
      (s.write n data).map Prod.fst = some s.room := by
    intro n data hn
    obtain ⟨s', heq, -⟩ := write_spec h n data
    have hle := h.room_le
    rw [heq, map_some, Nat.min_eq_right (by omega)]
  rw [h.getAvailLength_eq]
  constructor
  · intro hall
    have heq := (hwrite _ none (le_refl _)).symm.trans (hall _ none (le_refl _))
    have := some.inj heq
    omega
  · intro h0 n data hn
    rw [hwrite n data hn, h0, add_zero]

end

/-- **The accounting of the stream**: what is read is a prefix of what was written, and the two lengths are
right just when no buffer is partly written or read. -/
theorem lengths_iff (s₀ : Mbufstream) (hg : Geometry s₀.multibuf) (ops : List Op) :
    ∃ t, Trace.run ⟨init s₀, [], []⟩ ops = some t ∧ t.taken <+: t.written ∧
      ((∀ n data, s₀.multibuf.count * s₀.multibuf.size ≤ n →
        (t.s.read n data).map Prod.fst = some t.s.getDataLength) ↔ t.s.wpos = 0) ∧
      ((∀ n data, s₀.multibuf.count * s₀.multibuf.size ≤ n →
        (t.s.write n data).map Prod.fst = some t.s.getAvailLength) ↔ t.s.rpos = 0) := by
  have h0 : Trace.Inv ⟨init s₀, [], []⟩ := ⟨init_inv hg, (init_bytes s₀).symm⟩
  obtain ⟨t, hrun, hinv, hsame⟩ := Trace.run_inv ops _ h0
  have hsize : s₀.multibuf.count * s₀.multibuf.size = t.s.multibuf.count * t.s.multibuf.size := by
    rw [hsame.count, hsame.size]
    rfl
  rw [hsize]
  exact ⟨t, hrun, ⟨_, hinv.written.symm⟩, hinv.stream.dataLength_iff, hinv.stream.availLength_iff⟩

/-- Two buffers of four bytes. -/
def twoBuffers : Mbufstream := ⟨⟨4, fun _ _ => 0, 2, 0, 0, 0⟩, 0, 0⟩

theorem lengths_iff_twoBuffers : ∃ t, Trace.run ⟨init twoBuffers, [], []⟩
      [.write 6 (some fun i => UInt8.ofNat i), .read 3 none] = some t ∧ t.taken <+: t.written ∧
      ((∀ n data, 8 ≤ n → (t.s.read n data).map Prod.fst = some t.s.getDataLength) ↔ t.s.wpos = 0) ∧
      ((∀ n data, 8 ≤ n → (t.s.write n data).map Prod.fst = some t.s.getAvailLength) ↔ t.s.rpos = 0) :=
  lengths_iff twoBuffers ⟨by decide, by decide, by decide⟩ _

/-- One byte is written: it is counted as data, and no read returns it. -/
theorem counts_unreadable : ∃ t, Trace.run ⟨init twoBuffers, [], []⟩ [.write 1 (some fun _ => 7)] = some t ∧
    t.s.getDataLength = 1 ∧ (t.s.read 8 (some fun _ => 0)).map Prod.fst = some 0 :=
  ⟨_, rfl, rfl, rfl⟩

end Mbufstream
end Vsf
