/-
# Streams and their windows

`stream.c` puts one table of operations in front of a byte ring, a ring of buffers and a single
buffer. `stream_get_rbuf` and `stream_get_wbuf` lend windows, which agree with the copying calls in
the ring and the single buffer. Those of `multibuf_stream` ask the ring of buffers for its length as
if it were a stream, and call through the size of a buffer.
-/
import Mathlib
import Vsf.Lib.System
import Vsf.Buffer.Fifo
import Vsf.Buffer.Multibuf

namespace Vsf

open RingBuf List Option

/-- `struct vsf_stream_op_t` of a memory `σ`; `none` is a call without a defined result. -/
structure StreamOp (σ δ π : Type) where
  init : σ → σ
  write : σ → ℕ → δ → Option (ℕ × σ)
  /-- The length read, what is at the pointer then, and the memory. -/
  read : σ → ℕ → δ → Option (ℕ × Option (ℕ → UInt8) × σ)
  getWbuf : σ → Option (π × ℕ)
  getRbuf : σ → Option (π × ℕ)
  /-- The `NULL` data pointer. -/
  null : δ
  /-- The data pointer points at these bytes, the first `n` of them. -/
  holds : σ → δ → (ℕ → UInt8) → ℕ → Prop
  /-- `p[0..n)`; `none` if that is not memory. -/
  load : σ → π → ℕ → Option (List UInt8)
  /-- Writing `d[0..n)` at `p`. -/
  store : σ → π → (ℕ → UInt8) → ℕ → Option σ
  /-- Two memories no call tells apart. -/
  same : σ → σ → Prop

/-- `struct vsf_stream_t` and its memory. -/
structure Stream (σ : Type) where
  mem : σ
  txReady : Bool
  rxReady : Bool
  overflow : Bool

namespace Stream

variable {σ δ π : Type} (op : StreamOp σ δ π)

/-- `stream_init`. -/
def init (s : Stream σ) : Stream σ := ⟨op.init s.mem, false, false, false⟩

/-- The end of `stream_read`; `onInout` is the callback of the tx end. -/
def afterRead (onInout : Stream σ → Stream σ) (s : Stream σ) (count : ℕ) (mem : σ) : Stream σ :=
  let s := { s with mem := mem }
  if s.txReady ∧ count ≠ 0 then onInout s else s

/-- `stream_read`. -/
def read (onInout : Stream σ → Stream σ) (s : Stream σ) (size : ℕ) (data : δ) :
    Option (ℕ × Option (ℕ → UInt8) × Stream σ) :=
  (op.read s.mem size data).map fun (count, out, mem) => (count, out, s.afterRead onInout count mem)

/-- The end of `stream_write`; `onInout` is the callback of the rx end. -/
def afterWrite (onInout : Stream σ → Stream σ) (s : Stream σ) (size count : ℕ) (mem : σ) : Stream σ :=
  let s := { s with mem := mem }
  let s := if count < size then { s with overflow := true } else s
  if s.rxReady ∧ count ≠ 0 then onInout s else s

/-- `stream_write`. -/
def write (onInout : Stream σ → Stream σ) (s : Stream σ) (size : ℕ) (data : δ) : Option (ℕ × Stream σ) :=
  (op.write s.mem size data).map fun (count, mem) => (count, s.afterWrite onInout size count mem)

theorem afterRead_id (s : Stream σ) (count : ℕ) (mem : σ) : (s.afterRead id count mem).mem = mem := by
  simp [afterRead]

theorem afterWrite_id (s : Stream σ) (size count : ℕ) (mem : σ) : (s.afterWrite id size count mem).mem = mem := by
  by_cases h : count < size <;> simp [afterWrite, h]

theorem afterWrite_zero (onInout : Stream σ → Stream σ) (s : Stream σ) (size : ℕ) (mem : σ) :
    s.afterWrite onInout size 0 mem = { s with mem := mem, overflow := s.overflow || decide (0 < size) } := by
  unfold afterWrite
  by_cases h : 0 < size <;> simp [h]

end Stream

namespace StreamOp

variable {σ δ π : Type} (op : StreamOp σ δ π)

/-- `stream_get_rbuf` lends a window, and its bytes are the first of a `stream_read`. -/
def RbufAgrees (s : Stream σ) : Prop :=
  ∃ p n bs, op.getRbuf s.mem = some (p, n) ∧ op.load s.mem p n = some bs ∧
    ∀ m data onInout, n ≤ m → m < 2 ^ 32 → data ≠ op.null →
      ∃ r d s', Stream.read op onInout s m data = some (r, some d, s') ∧ n ≤ r ∧ (List.range n).map d = bs

/-- `stream_get_wbuf` lends a window, and filling it and writing `NULL` is a write of the same bytes. -/
def WbufAgrees (s : Stream σ) : Prop :=
  ∃ p n, op.getWbuf s.mem = some (p, n) ∧ ∀ d data onInout, data ≠ op.null → op.holds s.mem data d n →
    ∃ mem c s' s'', op.store s.mem p d n = some mem ∧
      Stream.write op onInout { s with mem := mem } n op.null = some (c, s') ∧
      Stream.write op onInout s n data = some (c, s'') ∧
      op.same s'.mem s''.mem ∧ { s' with mem := s''.mem } = s''

/-- The runs of a stream: its calls, and `touch` for bytes of its buffers that change. -/
def system (start : σ → Prop) (touch : σ → σ → Prop) : System (Stream σ) Unit where
  start s := ∃ s₀ : Stream σ, start s₀.mem ∧ s = Stream.init op s₀
  step s _ s' := (∃ n data c, n < 2 ^ 32 ∧ Stream.write op id s n data = some (c, s')) ∨
    (∃ n data c out, n < 2 ^ 32 ∧ Stream.read op id s n data = some (c, out, s')) ∨
    touch s.mem s'.mem ∨ s'.mem = s.mem

variable {op}

/-- What the operations keep holds in every run. -/
theorem reach_mem {start : σ → Prop} {touch : σ → σ → Prop} {P : σ → Prop} {s : Stream σ}
    (h : (op.system start touch).Reach s) (h0 : ∀ m, start m → P (op.init m))
    (hw : ∀ m n data c m', P m → n < 2 ^ 32 → op.write m n data = some (c, m') → P m')
    (hr : ∀ m n data c out m', P m → n < 2 ^ 32 → op.read m n data = some (c, out, m') → P m')
    (ht : ∀ m m', P m → touch m m' → P m') : P s.mem := by
  refine h.invariant (P := fun s => P s.mem) ?_ ?_
  · intro s hs
    obtain ⟨s₀, hst, rfl⟩ := hs
    exact h0 _ hst
  · intro s _ s' _ hP hst
    rcases hst with ⟨n, data, c, hn, hw'⟩ | ⟨n, data, c, out, hn, hr'⟩ | ht' | he
    · obtain ⟨⟨c', m'⟩, hop, heq⟩ := map_eq_some_iff.mp hw'
      obtain ⟨-, rfl⟩ := Prod.mk.inj heq
      rw [Stream.afterWrite_id]
      exact hw _ _ _ _ _ hP hn hop
    · obtain ⟨⟨c', out', m'⟩, hop, heq⟩ := map_eq_some_iff.mp hr'
      obtain ⟨-, rfl⟩ := Prod.mk.inj (Prod.mk.inj heq).2
      rw [Stream.afterRead_id]
      exact hr _ _ _ _ _ _ hP hn hop
    · exact ht _ _ hP ht'
    · rw [he]
      exact hP

theorem rbufAgrees_of {s : Stream σ} {p : π} {n : ℕ} {bs : List UInt8} (hp : op.getRbuf s.mem = some (p, n))
    (hload : op.load s.mem p n = some bs) (hread : ∀ m data, n ≤ m → m < 2 ^ 32 → data ≠ op.null →
      ∃ r d mem', op.read s.mem m data = some (r, some d, mem') ∧ n ≤ r ∧ (List.range n).map d = bs) :
    op.RbufAgrees s := by
  refine ⟨p, n, bs, hp, hload, fun m data onInout hm hm' hdata => ?_⟩
  obtain ⟨r, d, mem', hop, hr, hbs⟩ := hread m data hm hm' hdata
  refine ⟨r, d, s.afterRead onInout r mem', ?_, hr, hbs⟩
  rw [Stream.read, hop, map_some]

theorem wbufAgrees_of {s : Stream σ} {p : π} {n : ℕ} (hrefl : ∀ m, op.same m m)
    (hp : op.getWbuf s.mem = some (p, n)) (h : ∀ d data, data ≠ op.null → op.holds s.mem data d n →
      ∃ mem c m' m'', op.store s.mem p d n = some mem ∧ op.write mem n op.null = some (c, m') ∧
        op.write s.mem n data = some (c, m'') ∧ (m' = m'' ∨ (c = 0 ∧ op.same m' m''))) :
    op.WbufAgrees s := by
  refine ⟨p, n, hp, fun d data onInout hdata hholds => ?_⟩
  obtain ⟨mem, c, m', m'', hstore, hnull, hwrite, hor⟩ := h d data hdata hholds
  refine ⟨mem, c, { s with mem := mem }.afterWrite onInout n c m', s.afterWrite onInout n c m'', hstore, ?_, ?_, ?_⟩
  · rw [Stream.write, hnull, map_some]
  · rw [Stream.write, hwrite, map_some]
  · rcases hor with rfl | ⟨rfl, hsame⟩
    · exact ⟨hrefl _, rfl⟩
    · rw [Stream.afterWrite_zero, Stream.afterWrite_zero]
      exact ⟨hsame, rfl⟩

end StreamOp

/-! ### The ring of bytes -/

/-- `fifostream_op`. -/
def fifostreamOp : StreamOp Fifo (Option (ℕ → UInt8)) UInt32 where
  init := Fifo.init
  write f n data := let r := f.push (UInt32.ofNat n) data; some (r.1.toNat, r.2)
  read f n data := let r := f.pop (UInt32.ofNat n) data; some (r.1.toNat, r.2.1, r.2.2)
  getWbuf f := some (f.getWbuf.1, f.getWbuf.2.toNat)
  getRbuf f := some (f.getRbuf.1, f.getRbuf.2.toNat)
  null := none
  holds _ data d n := ∃ d', data = some d' ∧ ∀ i < n, d' i = d i
  load f p n := some ((List.range n).map fun i => f.buffer (p.toNat + i))
  store f p d n := some { f with buffer := copy f.buffer p.toNat d 0 n }
  same := Eq

theorem copy_congr {dst src src' : ℕ → UInt8} {d s s' n : ℕ} (h : ∀ i < n, src (s + i) = src' (s' + i)) :
    copy dst d src s n = copy dst d src' s' n := by
  funext i
  simp only [copy]
  split_ifs with hi
  · exact h _ (by omega)
  · rfl

theorem Fifo.push_straight {f : Fifo} {n : UInt32} (hfit : ¬ n > f.getAvailLength)
    (hstraight : ¬ n > f.size - f.head) (data : Option (ℕ → UInt8)) :
    f.push n data = (n, { f with
      buffer := data.elim f.buffer fun d => copy f.buffer f.head.toNat d 0 n.toNat,
      head := if f.head + n = f.size then 0 else f.head + n }) := by
  unfold Fifo.push
  rw [if_neg hfit]
  rw [if_neg hstraight]
  cases data <;> rfl

section
variable {s : Stream Fifo} (h : s.mem.Inv)
include h

theorem fifostream_rbufAgrees : fifostreamOp.RbufAgrees s := by
  refine StreamOp.rbufAgrees_of rfl rfl fun m data hm hlt hdata => ?_
  obtain ⟨d, rfl⟩ := ne_none_iff_exists'.mp hdata
  obtain ⟨hle, -, hwin⟩ := Fifo.getRbuf_spec h
  obtain ⟨hret, hout, -⟩ := Fifo.pop_bytes h (UInt32.ofNat m) (some d)
  obtain ⟨d', hd', hbytes, -⟩ := Fifo.peek_bytes h (UInt32.ofNat m) d
  have hm' : (UInt32.ofNat m).toNat = m := UInt32.toNat_ofNat_of_lt' hlt
  have hlen := Fifo.peek_length (f := s.mem) (UInt32.ofNat m) (some d)
  rw [hm'] at hlen hbytes
  refine ⟨(s.mem.pop (UInt32.ofNat m) (some d)).1.toNat, d', (s.mem.pop (UInt32.ofNat m) (some d)).2.2, ?_, ?_, ?_⟩
  · rw [← hd', ← hout]
    rfl
  · rw [hret, hlen]
    omega
  · rw [hwin]
    calc (List.range s.mem.getRbuf.2.toNat).map d'
        = (Fifo.firstBytes d' (min m s.mem.bytes.length)).take s.mem.getRbuf.2.toNat := by
          rw [Fifo.firstBytes, ← map_take, take_range, Nat.min_eq_left (by omega)]
      _ = s.mem.bytes.take s.mem.getRbuf.2.toNat := by
          rw [hbytes, take_take, Nat.min_eq_left hm]

theorem fifostream_wbufAgrees : fifostreamOp.WbufAgrees s := by
  refine StreamOp.wbufAgrees_of (fun _ => rfl) rfl fun d data _ hholds => ?_
  obtain ⟨d', rfl, hd⟩ := hholds
  obtain ⟨hoff, hend, hfree, -⟩ := Fifo.getWbuf_spec h
  have havail := Fifo.getAvailLength_toNat h
  have htmp : (s.mem.size - s.mem.head).toNat = s.mem.size.toNat - s.mem.head.toNat :=
    Fifo.sub_toNat (UInt32.le_of_lt h.head_lt)
  rw [Fifo.bytes_length] at hfree
  have hfit : ¬ s.mem.getWbuf.2 > s.mem.getAvailLength := by
    rw [gt_iff_lt, UInt32.lt_iff_toNat_lt, havail]
    omega
  have hstraight : ¬ s.mem.getWbuf.2 > s.mem.size - s.mem.head := by
    rw [gt_iff_lt, UInt32.lt_iff_toNat_lt, htmp]
    omega
  have hcopy : copy s.mem.buffer s.mem.head.toNat d 0 s.mem.getWbuf.2.toNat =
      copy s.mem.buffer s.mem.head.toNat d' 0 s.mem.getWbuf.2.toNat := by
    apply copy_congr
    intro i hi
    rw [zero_add, hd i hi]
  refine ⟨_, _, _, _, rfl, rfl, ?_, .inl rfl⟩
  show some (_, _) = some (_, _)
  rw [UInt32.ofNat_toNat, hoff, hcopy]
  rw [Fifo.push_straight hfit hstraight (some d')]
  -- the lengths do not look at the bytes
  have hnull := Fifo.push_straight (f := { s.mem with
    buffer := copy s.mem.buffer s.mem.head.toNat d' 0 s.mem.getWbuf.2.toNat }) hfit hstraight none
  rw [show fifostreamOp.null = none from rfl, hnull]
  rfl

end

/-! ### The ring of buffers -/

namespace Mbufstream

/-- `stream_get_data_size` and `stream_get_free_size` of `&mem.multibuf`, which is no stream. Its first word,
the size of a buffer, is taken for the table of operations; there is none at that address, and the function
pointer read from there is no function's. -/
def callThrough (_size : ℕ) : Option ℕ := none

/-- `multibuf_stream_get_wbuf`: buffer and offset. -/
def getWbuf (s : Mbufstream) : Option (Option (ℕ × ℕ) × ℕ) :=
  (callThrough s.multibuf.size).map fun availLen =>
    (s.multibuf.getEmpty.map fun b => (b, s.wpos), min availLen (s.multibuf.size - s.wpos))

/-- `multibuf_stream_get_rbuf`, in the same way. -/
def getRbuf (s : Mbufstream) : Option (Option (ℕ × ℕ) × ℕ) :=
  (callThrough s.multibuf.size).map fun availLen =>
    (s.multibuf.getPayload.map fun b => (b, s.rpos), min availLen (s.multibuf.size - s.rpos))

/-- `p[0..n)`; behind `NULL` there is nothing. -/
def load (s : Mbufstream) : Option (ℕ × ℕ) → ℕ → Option (List UInt8)
  | none, n => if n = 0 then some [] else none
  | some (b, off), n => some ((List.range n).map fun i => s.multibuf.bufferList b (off + i))

def store (s : Mbufstream) : Option (ℕ × ℕ) → (ℕ → UInt8) → ℕ → Option Mbufstream
  | none, _, n => if n = 0 then some s else none
  | some (b, off), d, n => some { s with multibuf := { s.multibuf with
      bufferList := Function.update s.multibuf.bufferList b (copy (s.multibuf.bufferList b) off d 0 n) } }

end Mbufstream

/-- `mbufstream_op`. -/
def mbufstreamOp : StreamOp Mbufstream (Option (ℕ → UInt8)) (Option (ℕ × ℕ)) where
  init := Mbufstream.init
  write := Mbufstream.write
  read := Mbufstream.read
  getWbuf := Mbufstream.getWbuf
  getRbuf := Mbufstream.getRbuf
  null := none
  holds _ data d n := ∃ d', data = some d' ∧ ∀ i < n, d' i = d i
  load := Mbufstream.load
  store := Mbufstream.store
  same := Eq

theorem mbufstream_not_rbufAgrees (s : Stream Mbufstream) : ¬ mbufstreamOp.RbufAgrees s := by
  intro ⟨_, _, _, hp, _⟩
  cases hp

theorem mbufstream_not_wbufAgrees (s : Stream Mbufstream) : ¬ mbufstreamOp.WbufAgrees s := by
  intro ⟨_, _, hp, _⟩
  cases hp

/-! ### The single buffer -/

/-- `struct vsf_bufstream_mem_t`; `read` is set for a stream whose reader is served. -/
structure Bufstream where
  memory : ℕ → UInt8
  buffer : ℕ
  size : ℕ
  read : Bool
  pos : ℕ

namespace Bufstream

/-- `buffer_stream_init`. -/
def init (s : Bufstream) : Bufstream := { s with pos := 0 }

/-- `buffer_stream_get_data_length`. -/
def getDataLength (s : Bufstream) : ℕ := if !s.read then s.pos else s.size - s.pos

/-- `buffer_stream_get_avail_length`. -/
def getAvailLength (s : Bufstream) : ℕ := if s.read then s.pos else s.size - s.pos

/-- `buffer_stream_get_wbuf`; `0` is the `NULL` pointer. -/
def getWbuf (s : Bufstream) : ℕ × ℕ := if !s.read then (s.buffer + s.pos, s.getAvailLength) else (0, 0)

/-- `buffer_stream_get_rbuf`. -/
def getRbuf (s : Bufstream) : ℕ × ℕ := if s.read then (s.buffer + s.pos, s.getDataLength) else (0, 0)

/-- `buffer_stream_write`: a served reader gets the writer's buffer itself. -/
def write (s : Bufstream) (n data : ℕ) : ℕ × Bufstream :=
  if s.read then (n, { s with buffer := data, size := n, pos := 0 })
  else
    let wsize := min s.getAvailLength n
    let memory := if data ≠ 0 then copy s.memory (s.buffer + s.pos) s.memory data wsize else s.memory
    (wsize, { s with memory := memory, pos := s.pos + wsize })

/-- `buffer_stream_read`: a served writer gets the reader's buffer itself. -/
def readInto (s : Bufstream) (n data : ℕ) : ℕ × Bufstream :=
  if s.read then
    let rsize := min s.getDataLength n
    let memory := if data ≠ 0 then copy s.memory data s.memory (s.buffer + s.pos) rsize else s.memory
    (rsize, { s with memory := memory, pos := s.pos + rsize })
  else (1, { s with buffer := data, size := n, pos := 0 })

theorem write_lend {s : Bufstream} (hr : s.read = true) (n data : ℕ) :
    s.write n data = (n, { s with buffer := data, size := n, pos := 0 }) := by
  simp [write, hr]

theorem write_fill {s : Bufstream} (hr : s.read = false) (n data : ℕ) :
    s.write n data = (min s.getAvailLength n, { s with
      memory := if data ≠ 0 then copy s.memory (s.buffer + s.pos) s.memory data (min s.getAvailLength n)
        else s.memory,
      pos := s.pos + min s.getAvailLength n }) := by
  simp [write, hr]

theorem readInto_copy {s : Bufstream} (hr : s.read = true) {data : ℕ} (hdata : data ≠ 0) (n : ℕ) :
    s.readInto n data = (min s.getDataLength n, { s with
      memory := copy s.memory data s.memory (s.buffer + s.pos) (min s.getDataLength n),
      pos := s.pos + min s.getDataLength n }) := by
  simp [readInto, hr, hdata]

end Bufstream

/-- `bufstream_op`. -/
def bufstreamOp : StreamOp Bufstream ℕ ℕ where
  init := Bufstream.init
  write s n data := some (s.write n data)
  read s n data := let r := s.readInto n data
    some (r.1, if data = 0 then none else some fun i => r.2.memory (data + i), r.2)
  getWbuf s := some s.getWbuf
  getRbuf s := some s.getRbuf
  null := 0
  holds s data d n := ∀ i < n, s.memory (data + i) = d i
  load s p n := some ((List.range n).map fun i => s.memory (p + i))
  store s p d n := some { s with memory := copy s.memory p d 0 n }
  -- where an empty buffer is does not matter
  same s s' := s = s' ∨ (s.size = 0 ∧ { s with buffer := s'.buffer } = s')

theorem bufstream_rbufAgrees (s : Stream Bufstream) : bufstreamOp.RbufAgrees s := by
  rcases hp : s.mem.getRbuf with ⟨p, n⟩
  refine StreamOp.rbufAgrees_of (congrArg some hp) rfl fun m data hm _ hdata => ?_
  have hdata : data ≠ 0 := hdata
  have hread : bufstreamOp.read s.mem m data = some ((s.mem.readInto m data).1,
      some fun i => (s.mem.readInto m data).2.memory (data + i), (s.mem.readInto m data).2) := by
    show some (_, ite _ _ _, _) = _
    rw [if_neg hdata]
  refine ⟨_, _, _, hread, ?_⟩
  unfold Bufstream.getRbuf at hp
  by_cases hr : s.mem.read = true
  · rw [if_pos hr] at hp
    obtain ⟨rfl, rfl⟩ := Prod.mk.inj hp
    rw [Bufstream.readInto_copy hr hdata, Nat.min_eq_left hm]
    refine ⟨le_refl _, map_congr_left fun i hi => ?_⟩
    have := List.mem_range.mp hi
    show copy s.mem.memory data s.mem.memory (s.mem.buffer + s.mem.pos) s.mem.getDataLength (data + i) = _
    rw [copy, if_pos (by omega), Nat.add_sub_cancel_left]
  · rw [if_neg hr] at hp
    obtain ⟨rfl, rfl⟩ := Prod.mk.inj hp
    exact ⟨Nat.zero_le _, rfl⟩

theorem bufstream_wbufAgrees (s : Stream Bufstream) : bufstreamOp.WbufAgrees s := by
  rcases hp : s.mem.getWbuf with ⟨p, n⟩
  refine StreamOp.wbufAgrees_of (fun _ => Or.inl rfl) (congrArg some hp) fun d data hdata hholds => ?_
  have hdata : data ≠ 0 := hdata
  have hholds : ∀ i < n, s.mem.memory (data + i) = d i := hholds
  unfold Bufstream.getWbuf at hp
  refine ⟨{ s.mem with memory := copy s.mem.memory p d 0 n }, n,
    (Bufstream.write { s.mem with memory := copy s.mem.memory p d 0 n } n 0).2, (s.mem.write n data).2, rfl, ?_⟩
  show some (Bufstream.write _ n 0) = _ ∧ some (s.mem.write n data) = _ ∧ _
  by_cases hr : s.mem.read = true
  · rw [if_neg (by simp [hr])] at hp
    obtain ⟨rfl, rfl⟩ := Prod.mk.inj hp
    have hcopy : copy s.mem.memory 0 d 0 0 = s.mem.memory := by
      funext i
      rw [copy, if_neg (by omega)]
    rw [hcopy, Bufstream.write_lend hr, Bufstream.write_lend hr]
    exact ⟨rfl, rfl, .inr ⟨rfl, Or.inr ⟨rfl, rfl⟩⟩⟩
  · rw [if_pos (by simp [hr])] at hp
    obtain ⟨rfl, rfl⟩ := Prod.mk.inj hp
    have hcopy : copy s.mem.memory (s.mem.buffer + s.mem.pos) d 0 s.mem.getAvailLength =
        copy s.mem.memory (s.mem.buffer + s.mem.pos) s.mem.memory data s.mem.getAvailLength := by
      apply copy_congr
      intro i hi
      rw [zero_add, hholds i hi]
    have hr : s.mem.read = false := by simpa using hr
    have hwrite := Bufstream.write_fill hr s.mem.getAvailLength data
    rw [if_pos hdata, min_self] at hwrite
    have hnull : ∀ memory, Bufstream.write { s.mem with memory := memory } s.mem.getAvailLength 0 =
        (s.mem.getAvailLength, { s.mem with memory := memory, pos := s.mem.pos + s.mem.getAvailLength }) := by
      intro memory
      have hfill := Bufstream.write_fill (s := { s.mem with memory := memory }) hr s.mem.getAvailLength 0
      have havail : ({ s.mem with memory := memory } : Bufstream).getAvailLength = s.mem.getAvailLength := rfl
      rw [havail, min_self] at hfill
      simpa using hfill
    rw [hcopy, hnull, hwrite]
    exact ⟨rfl, rfl, .inl rfl⟩

/-! ### Every reachable stream -/

/-- A ring of at least one byte; who writes into a window changes only bytes. -/
def fifostreams : System (Stream Fifo) Unit :=
  fifostreamOp.system (fun f => 1 ≤ f.size) fun f f' => ∃ b, f' = { f with buffer := b }

def mbufstreams : System (Stream Mbufstream) Unit :=
  mbufstreamOp.system (fun s => Mbufstream.Geometry s.multibuf) fun s s' =>
    ∃ l, s' = { s with multibuf := { s.multibuf with bufferList := l } }

def bufstreams : System (Stream Bufstream) Unit :=
  bufstreamOp.system (fun _ => True) fun s s' => ∃ m, s' = { s with memory := m }

theorem Fifo.push_inv {f : Fifo} (h : f.Inv) (n : UInt32) (data : Option (ℕ → UInt8)) : (f.push n data).2.Inv := by
  by_cases hn : f.getDataLength.toNat + n.toNat < f.size.toNat
  · obtain ⟨-, hsize, htail, hhead, -⟩ := Fifo.push_fits h hn data
    refine ⟨?_, by rw [hsize, htail]; exact h.tail_lt⟩
    rw [UInt32.lt_iff_toNat_lt, hhead, hsize]
    exact Nat.mod_lt _ (by omega)
  · have hgt : n > f.getAvailLength := by
      have hlt := Fifo.getDataLength_lt h
      rw [gt_iff_lt, UInt32.lt_iff_toNat_lt, Fifo.getAvailLength_toNat h]
      omega
    unfold Fifo.push
    rw [if_pos hgt]
    exact h

theorem fifostreams_inv {s : Stream Fifo} (h : fifostreams.Reach s) : s.mem.Inv := by
  refine StreamOp.reach_mem (P := Fifo.Inv) h (fun f hf => Fifo.init_inv hf) ?_ ?_ ?_
  · intro f n data c f' hf _ hw
    rw [← (Prod.mk.inj (some.inj hw)).2]
    exact Fifo.push_inv hf _ _
  · intro f n data c out f' hf _ hr
    rw [← (Prod.mk.inj (Prod.mk.inj (some.inj hr)).2).2]
    exact (Fifo.pop_bytes hf _ _).2.2.1
  · intro f f' hf ht
    obtain ⟨b, rfl⟩ := ht
    exact ⟨hf.head_lt, hf.tail_lt⟩

/-- **The windows and the copying calls** agree in a fifo and in a buffer stream, and in no multibuf stream. -/
theorem windows_iff (f : Stream Fifo) (m : Stream Mbufstream) (s : Stream Bufstream) :
    (fifostreams.Reach f → fifostreamOp.RbufAgrees f ∧ fifostreamOp.WbufAgrees f) ∧
    (mbufstreams.Reach m → ¬ mbufstreamOp.RbufAgrees m ∧ ¬ mbufstreamOp.WbufAgrees m) ∧
    (bufstreams.Reach s → bufstreamOp.RbufAgrees s ∧ bufstreamOp.WbufAgrees s) := by
  refine ⟨fun h => ?_, fun _ => ?_, fun _ => ?_⟩
  · have hinv := fifostreams_inv h
    exact ⟨fifostream_rbufAgrees hinv, fifostream_wbufAgrees hinv⟩
  · exact ⟨mbufstream_not_rbufAgrees m, mbufstream_not_wbufAgrees m⟩
  · exact ⟨bufstream_rbufAgrees s, bufstream_wbufAgrees s⟩

/-- Two buffers of four bytes, after a write of `n` bytes. -/
def mbufAfter (n : ℕ) : Stream Mbufstream :=
  match Stream.write mbufstreamOp id (Stream.init mbufstreamOp ⟨Mbufstream.twoBuffers, false, false, false⟩) n
    (some fun _ => 7) with
  | some (_, s) => s
  | none => ⟨Mbufstream.twoBuffers, false, false, false⟩

theorem mbufAfter_reach {n c : ℕ} (hn : n < 2 ^ 32)
    (h : Stream.write mbufstreamOp id (Stream.init mbufstreamOp ⟨Mbufstream.twoBuffers, false, false, false⟩) n
      (some fun _ => 7) = some (c, mbufAfter n)) : mbufstreams.Reach (mbufAfter n) := by
  have hstart : mbufstreams.start (Stream.init mbufstreamOp ⟨Mbufstream.twoBuffers, false, false, false⟩) :=
    ⟨_, ⟨by decide, by decide, by decide⟩, rfl⟩
  exact (System.Reach.start hstart).step (i := ()) (.inl ⟨n, _, c, hn, h⟩)

/-- A ring and a buffer of four bytes, and the two buffers with one full. -/
theorem windows_iff_example :
    let f := Stream.init fifostreamOp ⟨⟨fun _ => 0, 4, 0, 0⟩, false, false, false⟩
    let s := Stream.init bufstreamOp ⟨⟨fun _ => 0, 0x1000, 4, true, 0⟩, false, false, false⟩
    (fifostreamOp.RbufAgrees f ∧ fifostreamOp.WbufAgrees f) ∧
    (mbufstreams.Reach (mbufAfter 4) ∧
      ¬ mbufstreamOp.RbufAgrees (mbufAfter 4) ∧ ¬ mbufstreamOp.WbufAgrees (mbufAfter 4)) ∧
    (bufstreamOp.RbufAgrees s ∧ bufstreamOp.WbufAgrees s) := by
  intro f s
  obtain ⟨hfifo, hmbuf, hbuf⟩ := windows_iff f (mbufAfter 4) s
  have hreach : mbufstreams.Reach (mbufAfter 4) := mbufAfter_reach (c := 4) (by decide) rfl
  exact ⟨hfifo (.start ⟨_, by decide, rfl⟩), ⟨hreach, hmbuf hreach⟩, hbuf (.start ⟨_, trivial, rfl⟩)⟩

/-- A buffer of four bytes is full: a read of four returns them, and the length of the window is asked through
the word `4`. -/
theorem lends_nothing : mbufstreams.Reach (mbufAfter 4) ∧ (mbufAfter 4).mem.getDataLength = 4 ∧
    ((mbufAfter 4).mem.read 4 (some fun _ => 0)).map (fun r => (r.1, r.2.1.map fun d => (List.range 4).map d)) =
      some (4, some [7, 7, 7, 7]) ∧
    (mbufAfter 4).mem.getRbuf = none ∧ ¬ mbufstreamOp.RbufAgrees (mbufAfter 4) := by
  have hreach : mbufstreams.Reach (mbufAfter 4) := mbufAfter_reach (c := 4) (by decide) rfl
  exact ⟨hreach, rfl, rfl, rfl, mbufstream_not_rbufAgrees _⟩

end Vsf
