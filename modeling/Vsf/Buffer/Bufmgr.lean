/-
# The buffer manager of buffer.c

The allocator `vsf_bufmgr_*` over a byte memory. A block is a header (`struct vsf_bufmgr_mcb_t`: the
payload's address, its size and the list link, 12 bytes) followed by its payload; the two lists
start at headers of their own in `bufmgr`. Headers are read and written in the memory, with 32-bit
arithmetic; `NULL` is 0, and a loop over more links than there are addresses is `none`.
-/
import Mathlib
import Vsf.Lib.ByteMem
import Vsf.Buffer.Queue

namespace Vsf

open ByteMem

/-- `MCB_SIZE`. -/
def mcbSize : ℕ := 12

/-- `VSF_BUFMGR_DEFAULT_ALIGN`. -/
def defaultAlign : ℕ := 4

/-- A value of the 32-bit machine. -/
def u32 (n : ℕ) : ℕ := n % 2 ^ 32

/-- Where `vsf_bufmgr_init` puts the first payload of a region at `buf`. -/
def payloadStart (buf : ℕ) : ℕ := u32 (buf + mcbSize + 3) &&& 0xfffffffc

/-- The memory given to `vsf_bufmgr_init`, and the static `bufmgr` with the list heads: apart, not at
`NULL`, not at the end of the address space, with room for a header and a byte behind it. -/
structure Region where
  buf : ℕ
  size : ℕ
  bufmgr : ℕ
  buf_pos : 0 < buf
  buf_lt : buf + size < 2 ^ 32
  bufmgr_pos : 0 < bufmgr
  bufmgr_lt : bufmgr + 2 * mcbSize < 2 ^ 32
  apart : bufmgr + 2 * mcbSize ≤ buf ∨ buf + size ≤ bufmgr
  room : (buf + mcbSize + 3) / 4 * 4 < buf + size

/-- `&bufmgr.freed_list`. -/
def Region.freedList (r : Region) : ℕ := r.bufmgr

/-- `&bufmgr.allocated_list`. -/
def Region.allocatedList (r : Region) : ℕ := r.bufmgr + mcbSize

namespace Bufmgr

/-! ### Headers -/

/-- The fields of `struct vsf_bufmgr_mcb_t`. -/
inductive Field where
  | buffer
  | size
  | next
deriving DecidableEq

/-- The offset of a field in the header. -/
def Field.offset : Field → ℕ
  | .buffer => 0
  | .size => 4
  | .next => 8

/-- `mcb->field`. -/
def get (m : Mem) (mcb : ℕ) (f : Field) : ℕ := load32 m (mcb + f.offset)

/-- `mcb->field = v`. -/
def set (m : Mem) (mcb : ℕ) (f : Field) (v : ℕ) : Mem := store32 m (mcb + f.offset) v

/-- `sllist_get_container(p, struct vsf_bufmgr_mcb_t, list)`. -/
def getContainer (p : ℕ) : ℕ := if p = 0 then 0 else u32 (2 ^ 32 + p - Field.next.offset)

/-- The header the link of `mcb` leads to. -/
def listNext (m : Mem) (mcb : ℕ) : ℕ := getContainer (get m mcb .next)

/-- `sllist_insert(mcb->list, new->list)`. -/
def sllistInsert (m : Mem) (mcb new : ℕ) : Mem := set m mcb .next (new + Field.next.offset)

/-- `sllist_init_node(mcb->list)`. -/
def sllistInitNode (m : Mem) (mcb : ℕ) : Mem := set m mcb .next 0

/-! ### The lists -/

/-- The loop of `vsf_bufmgr_remove_mcb`. -/
def removeLoop (mcb : ℕ) : ℕ → Mem → ℕ → ℕ → Option Mem
  | 0, _, _, _ => none
  | f + 1, m, prev, active =>
    if active = 0 then some m
    else if active = mcb then
      let next := listNext m active
      let m := if next ≠ 0 then sllistInsert m prev next else sllistInitNode m prev
      some (sllistInitNode m active)
    else removeLoop mcb f m active (listNext m active)

/-- `vsf_bufmgr_remove_mcb`. -/
def removeMcb (m : Mem) (list mcb : ℕ) : Option Mem :=
  removeLoop mcb walkFuel m list (listNext m list)

/-- The loop of `vsf_bufmgr_insert_mcb`. -/
def insertLoop (mcb : ℕ) : ℕ → Mem → ℕ → ℕ → Option Mem
  | 0, _, _, _ => none
  | f + 1, m, prev, active =>
    if active = 0 then some (sllistInitNode (sllistInsert m prev mcb) mcb)
    else if get m active .size ≥ get m mcb .size then
      some (sllistInsert (sllistInsert m prev mcb) mcb active)
    else insertLoop mcb f m active (listNext m active)

/-- `vsf_bufmgr_insert_mcb`. -/
def insertMcb (m : Mem) (list mcb : ℕ) : Option Mem :=
  insertLoop mcb walkFuel m list (listNext m list)

/-- The search of `vsf_bufmgr_merge_mcb`: the block that ends at `mcb`, and the one where `mcb` ends. -/
def mergeLoop (m : Mem) (mcb : ℕ) : ℕ → ℕ → ℕ → ℕ → Option (ℕ × ℕ)
  | 0, _, _, _ => none
  | f + 1, active, prev, next =>
    if active = 0 then some (prev, next)
    else
      mergeLoop m mcb f (listNext m active)
        (if u32 (get m active .buffer + get m active .size) = mcb then active else prev)
        (if u32 (get m mcb .buffer + get m mcb .size) = active then active else next)

/-- `vsf_bufmgr_merge_mcb`. -/
def mergeMcb (m : Mem) (list mcb : ℕ) : Option Mem := do
  let (prev, next) ← mergeLoop m mcb walkFuel (listNext m list) 0 0
  if next = 0 ∧ prev = 0 then insertMcb m list mcb
  else if next ≠ 0 ∧ prev = 0 then
    let m ← removeMcb m list next
    let m := set m mcb .size (u32 (get m mcb .size + (mcbSize + get m next .size)))
    insertMcb m list mcb
  else if next = 0 ∧ prev ≠ 0 then
    let m ← removeMcb m list prev
    let m := set m prev .size (u32 (get m prev .size + (mcbSize + get m mcb .size)))
    insertMcb m list prev
  else
    let m ← removeMcb m list prev
    let m ← removeMcb m list next
    let m := set m prev .size (u32 (get m prev .size + (mcbSize * 2 + get m mcb .size + get m next .size)))
    insertMcb m list prev

/-! ### The interface -/

/-- `vsf_bufmgr_init`. -/
def init (r : Region) (m : Mem) : Mem :=
  let m := set m r.freedList .buffer 0
  let m := set m r.freedList .size 0
  let m := sllistInitNode m r.freedList
  let m := set m r.allocatedList .buffer 0
  let m := set m r.allocatedList .size 0
  let m := sllistInitNode m r.allocatedList
  let m := set m r.buf .buffer (payloadStart r.buf)
  let m := set m r.buf .size (u32 (2 ^ 32 + (r.buf + r.size) - get m r.buf .buffer))
  let m := sllistInitNode m r.buf
  sllistInsert m r.freedList r.buf

/-- The size `vsf_bufmgr_malloc_aligned` works with: up to a multiple of 4. -/
def roundSize (size : UInt32) : UInt32 :=
  if size &&& 3 ≠ 0 then (size &&& 0xfffffffc) + 4 else size

/-- The alignment it works with. -/
def clampAlign (align : UInt32) : ℕ :=
  if align.toNat < defaultAlign then defaultAlign else align.toNat

/-- How far behind `buffer` the next address aligned to `align` is. -/
def alignOffset (buffer align : ℕ) : ℕ :=
  if buffer % align ≠ 0 then align - buffer % align else 0

/-- The end of `vsf_bufmgr_malloc_aligned`, for the unlinked block `mcb_align`. -/
def mallocTail (r : Region) (m : Mem) (mcb size offset : ℕ) : Option (Mem × ℕ) := do
  let m ← if get m mcb .size > u32 (size + offset + mcbSize) then do
      let tail := u32 (get m mcb .buffer + offset + size)
      let m := set m tail .buffer (tail + mcbSize)
      let m := set m tail .size (u32 (3 * 2 ^ 32 + get m mcb .size - offset - size - mcbSize))
      let m ← insertMcb m r.freedList tail
      some (set m mcb .size (offset + size))
    else some m
  let m ← insertMcb m r.allocatedList mcb
  some (m, u32 (get m mcb .buffer + offset))

/-- The body of its loop for a block that fits, split in front when a header and four bytes fit there. -/
def mallocAt (r : Region) (m : Mem) (mcb size offset : ℕ) : Option (Mem × ℕ) :=
  if offset ≥ mcbSize + defaultAlign then do
    let mcbAlign := u32 (get m mcb .buffer + offset - mcbSize)
    let m := set m mcbAlign .buffer (mcbAlign + mcbSize)
    let m := set m mcbAlign .size (u32 (2 ^ 32 + get m mcb .size - offset))
    let m ← removeMcb m r.freedList mcb
    let m := set m mcb .size (offset - mcbSize)
    let m ← insertMcb m r.freedList mcb
    mallocTail r m mcbAlign size 0
  else do
    let m ← removeMcb m r.freedList mcb
    mallocTail r m mcb size offset

/-- The loop of `vsf_bufmgr_malloc_aligned`. -/
def mallocLoop (r : Region) (size align : ℕ) : ℕ → Mem → ℕ → Option (Mem × ℕ)
  | 0, _, _ => none
  | f + 1, m, mcb =>
    if mcb = 0 then some (m, 0)
    else
      let offset := alignOffset (get m mcb .buffer) align
      if get m mcb .size ≥ u32 (size + offset) then mallocAt r m mcb size offset
      else mallocLoop r size align f m (listNext m mcb)

/-- `vsf_bufmgr_malloc_aligned`: the memory after the call, and the result. -/
def mallocAligned (r : Region) (m : Mem) (size align : UInt32) : Option (Mem × ℕ) :=
  if size = 0 then some (m, 0)
  else mallocLoop r (roundSize size).toNat (clampAlign align) walkFuel m (listNext m r.freedList)

/-- The loop of `vsf_bufmgr_free`. -/
def freeLoop (r : Region) (ptr : ℕ) : ℕ → Mem → ℕ → Option Mem
  | 0, _, _ => none
  | f + 1, m, mcb =>
    if mcb = 0 then some m
    else if get m mcb .buffer ≤ ptr ∧ u32 (get m mcb .buffer + get m mcb .size) > ptr then do
      let m ← removeMcb m r.allocatedList mcb
      mergeMcb m r.freedList mcb
    else freeLoop r ptr f m (listNext m mcb)

/-- `vsf_bufmgr_free`. -/
def free (r : Region) (m : Mem) (ptr : ℕ) : Option Mem :=
  freeLoop r ptr walkFuel m (listNext m r.allocatedList)

end Bufmgr
end Vsf
