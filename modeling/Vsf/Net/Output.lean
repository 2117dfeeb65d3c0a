/-
# Packets on their way out

The part of the stack below the sockets: buffers with a reference count, the IP header, and the
interface's queues. A buffer that `vsfip_ip_output` is given is put into one queue, which owns the
reference, or released (`Net.ipOutput_owns`). `Net.holders` counts the queues with a buffer,
`Net.stale` lists releases without a reference left; `Holds` follows one buffer, `Spares` leaves it
alone. Both queues of the interface are linked through `netif_node`: `Net.again` lists what was put
into one while it was in one, and behind that the queues are not those of the model any more.
-/
import Mathlib

namespace Vsf

namespace Ip

/-- The `vsf_err_t` the stack returns. -/
inductive VsfErr
  | none
  | notReady
  | notEnoughResources
  | fail
  | invalidParameter
  | bug
deriving DecidableEq

/-- A `vsf_err_t` below zero. -/
def VsfErr.negative : VsfErr → Bool
  | .none | .notReady => false
  | _ => true

/-- The references the caller keeps. -/
def VsfErr.kept : VsfErr → ℕ
  | .notReady => 1
  | _ => 0

/-- `struct vsfip_sockaddr_t`. -/
structure Sockaddr where
  addr : UInt32
  port : UInt16

/-- `vsfip_bind`, on the ports bound already. -/
def bind (ports : List UInt16) (port : UInt16) : Option (List UInt16) :=
  if port ∈ ports then none else some (port :: ports)

end Ip

open Ip

/-- `struct vsfip_netif_t` for a packet: the MTU, which holds an IP header, and the driver's header length. -/
structure Netif where
  mtu : UInt16
  mtu_ge : 20 ≤ mtu.toNat
  headlen : ℕ
deriving DecidableEq

/-- An Ethernet interface, for examples. -/
def Netif.ethernet : Netif := ⟨1500, by decide, 14⟩

/-- `struct vsfip_buffer_t`: `payload` is `app`, `room` is in front of it, `bufRoom` and `bufSize` are
`buf`; `ref` is in `Net.refs`. -/
structure Buf where
  id : ℕ
  payload : List UInt8
  size_lt : payload.length < 2 ^ 32
  room : ℕ
  bufRoom : ℤ
  bufSize : UInt32
  addr : UInt32
  ttl : UInt16
  retry : UInt16
  netif : Netif
deriving DecidableEq

theorem Buf.nil_lt : ([] : List UInt8).length < 2 ^ 32 := by decide

/-- `app.size`. -/
def Buf.size (b : Buf) : UInt32 := UInt32.ofNat b.payload.length

theorem Buf.size_toNat (b : Buf) : b.size.toNat = b.payload.length := UInt32.toNat_ofNat_of_lt' b.size_lt

theorem Buf.size_pos_iff (b : Buf) : b.size > 0 ↔ b.payload ≠ [] := by
  rw [gt_iff_lt, UInt32.lt_iff_toNat_lt, b.size_toNat, UInt32.toNat_zero, List.length_pos_iff]

/-- A buffer of the user with room for all headers, for examples. -/
def Buf.plain (id : ℕ) (payload : List UInt8) (h : payload.length < 2 ^ 32) : Buf where
  id := id
  payload := payload
  size_lt := h
  room := 54
  bufRoom := 54
  bufSize := UInt32.ofNat payload.length
  addr := 0
  ttl := 0
  retry := 0
  netif := .ethernet

/-- The stack below the sockets: references, queues, what the interface knows, and the next buffers; `cur` is
`arpc.cur_request`, `txBuffer` the driver's. -/
structure Net where
  refs : ℕ → ℕ
  stale : List ℕ
  requestq : List ℕ
  cur : Option ℕ
  outq : List ℕ
  txBuffer : Option ℕ
  again : List ℕ
  sniffed : List ℕ
  sniffer : Bool
  macKnown : Bool
  netifDefault : Option Netif
  pool : List ℕ

/-- The ARP client takes the next request, and puts it out or releases it; the driver is done with a packet
and takes the next; the cache changes; somebody else's frame goes out. -/
inductive NetAct
  | arpTake
  | arpDone (out : Bool)
  | txFinish
  | cache (known : Bool)
  | frame (id : ℕ)

/-- It is not this buffer that somebody else sends. -/
def NetAct.Spares : NetAct → ℕ → Prop
  | .frame i, id => i ≠ id
  | _, _ => True

namespace Net

/-- Nothing sent yet; the address of the peer is known. -/
def init (netif : Option Netif) (pool : List ℕ) : Net where
  refs := fun _ => 0
  stale := []
  requestq := []
  cur := none
  outq := []
  txBuffer := none
  again := []
  sniffed := []
  sniffer := false
  macKnown := true
  netifDefault := netif
  pool := pool

/-- `vsfip_buffer_reference`. -/
def reference (n : Net) (id : ℕ) : Net := { n with refs := Function.update n.refs id (n.refs id + 1) }

/-- `vsfip_buffer_release`. -/
def release (n : Net) (id : ℕ) : Net :=
  if n.refs id = 0 then { n with stale := n.stale ++ [id] }
  else { n with refs := Function.update n.refs id (n.refs id - 1) }

/-- `vsfip_bufferlist_free`. -/
def freeList (n : Net) (q : List Buf) : Net := q.foldl (fun n b => n.release b.id) n

/-- `vsfip_buffer_get`: the next buffer of the pool, with one reference. -/
def bufferGet (n : Net) : Option (ℕ × Net) :=
  match n.pool with
  | [] => none
  | id :: pool => some (id, { n with pool := pool, refs := Function.update n.refs id 1 })

/-- The `netif_node` of a buffer is in a queue. -/
def Linked (n : Net) (id : ℕ) : Prop := id ∈ n.requestq ∨ id ∈ n.outq

instance (n : Net) (id : ℕ) : Decidable (n.Linked id) := inferInstanceAs (Decidable (_ ∨ _))

/-- `vsfq_append` of a buffer to a queue of the interface notes if it was in one. -/
def link (n : Net) (id : ℕ) : List ℕ := if n.Linked id then n.again ++ [id] else n.again

/-- `vsfip_netif_ip_output_do`; the comparison for the driver's header is unsigned. -/
def netifIpOutputDo (n : Net) (b : Buf) : Net :=
  if 0 ≤ b.bufRoom ∧ b.bufRoom < b.netif.headlen then n.release b.id
  else { n with outq := n.outq ++ [b.id], again := n.link b.id }

/-- `vsfip_netif_ip_output`. -/
def netifIpOutput (n : Net) (b : Buf) : Net :=
  if !n.macKnown then { n with requestq := n.requestq ++ [b.id], again := n.link b.id }
  else if b.bufSize ≠ 0 then n.netifIpOutputDo b
  else n

/-- `vsfip_ip_output_do`. -/
def ipOutputDo (n : Net) (b : Buf) : Net :=
  if n.sniffer then { n with sniffed := n.sniffed ++ [b.id] } else n.netifIpOutput b

/-- `vsfip_add_ip4head`: the room is measured at `app`, not at `buf`. -/
def addIp4head (b : Buf) : Option Buf :=
  if b.room < 20 then none else some { b with bufRoom := b.bufRoom - 20, bufSize := b.bufSize + 20 }

/-- `vsfip_ip4_output`. -/
def ip4Output (n : Net) (b : Buf) : VsfErr × Net :=
  if b.bufSize > b.netif.mtu.toUInt32 - 20 then (.notEnoughResources, n.release b.id)
  else
    match addIp4head b with
    | none => (.fail, n.release b.id)
    | some b => (.none, n.ipOutputDo b)

/-- `vsfip_ip6_output`. -/
def ip6Output (n : Net) (b : Buf) : VsfErr × Net := (.none, n.release b.id)

/-- `vsfip_ip_output`; `inet` is `AF_INET == socket->family`. -/
def ipOutput (n : Net) (inet : Bool) (b : Buf) : VsfErr × Net :=
  if inet then n.ip4Output b else n.ip6Output b

/-! ### Who owns a buffer -/

/-- The queues below the sockets that hold a buffer; the ARP client and the driver count for theirs. -/
def holders (n : Net) (id : ℕ) : ℕ := n.requestq.count id + n.cur.toList.count id + n.outq.count id +
  n.txBuffer.toList.count id + n.sniffed.count id

@[simp] theorem reference_holders (n : Net) (id i : ℕ) : (n.reference id).holders i = n.holders i := rfl

@[simp] theorem release_holders (n : Net) (id i : ℕ) : (n.release id).holders i = n.holders i := by
  unfold release holders
  split_ifs <;> rfl

theorem release_of_pos {n : Net} {id : ℕ} (h : n.refs id ≠ 0) :
    n.release id = { n with refs := Function.update n.refs id (n.refs id - 1) } := if_neg h

theorem release_refs_other {n : Net} {id i : ℕ} (h : i ≠ id) : (n.release id).refs i = n.refs i := by
  unfold release
  split_ifs
  · rfl
  · exact Function.update_of_ne h _ _

/-- The reference given to an output is in a queue below, or gone. -/
structure Owns (n n' : Net) (id : ℕ) : Prop where
  balance : n'.refs id + n.holders id + 1 = n.refs id + n'.holders id
  stale : n'.stale = n.stale
  other : ∀ i, i ≠ id → n'.refs i = n.refs i ∧ n'.holders i = n.holders i

theorem release_owns {n : Net} {id : ℕ} (h : n.refs id ≠ 0) : Owns n (n.release id) id := by
  refine ⟨?_, ?_, fun i hi => ⟨release_refs_other hi, release_holders n id i⟩⟩
  · rw [release_holders, release_of_pos h]
    show Function.update n.refs id (n.refs id - 1) id + _ + 1 = _
    rw [Function.update_self]
    omega
  · rw [release_of_pos h]

theorem append_owns {n n' : Net} {id : ℕ} (hrefs : n'.refs = n.refs) (hstale : n'.stale = n.stale)
    (hhold : ∀ i, n'.holders i = n.holders i + if i = id then 1 else 0) : Owns n n' id := by
  refine ⟨?_, hstale, fun i hi => ⟨by rw [hrefs], ?_⟩⟩
  · rw [hrefs, hhold id, if_pos rfl]
    omega
  · rw [hhold i, if_neg hi, add_zero]

theorem count_concat (q : List ℕ) (id i : ℕ) : (q ++ [id]).count i = q.count i + if i = id then 1 else 0 := by
  by_cases h : i = id
  · simp [h]
  · simp [h, Ne.symm h]

theorem netifIpOutputDo_owns {n : Net} {b : Buf} (href : n.refs b.id ≠ 0) :
    Owns n (n.netifIpOutputDo b) b.id := by
  unfold netifIpOutputDo
  split_ifs
  · exact release_owns href
  · refine append_owns rfl rfl fun i => ?_
    simp only [holders, count_concat]
    omega

theorem netifIpOutput_owns {n : Net} {b : Buf} (href : n.refs b.id ≠ 0) (hsize : b.bufSize ≠ 0) :
    Owns n (n.netifIpOutput b) b.id := by
  unfold netifIpOutput
  split_ifs
  · refine append_owns rfl rfl fun i => ?_
    simp only [holders, count_concat]
    omega
  · exact netifIpOutputDo_owns href

theorem ipOutputDo_owns {n : Net} {b : Buf} (href : n.refs b.id ≠ 0) (hsize : b.bufSize ≠ 0) :
    Owns n (n.ipOutputDo b) b.id := by
  unfold ipOutputDo
  split_ifs
  · refine append_owns rfl rfl fun i => ?_
    simp only [holders, count_concat]
    omega
  · exact netifIpOutput_owns href hsize

/-- A packet within the MTU is short enough for the header to fit its length. -/
theorem size_add_ne_zero {b : Buf} (h : ¬ b.bufSize > b.netif.mtu.toUInt32 - 20) : b.bufSize + 20 ≠ 0 := by
  have hmtu := b.netif.mtu_ge
  have hlt := b.netif.mtu.toNat_lt
  have hsub : (b.netif.mtu.toUInt32 - 20).toNat = b.netif.mtu.toNat - 20 := by
    rw [UInt32.toNat_sub_of_le]
    · simp
    · rw [UInt32.le_iff_toNat_le]
      simpa using hmtu
  have hle : b.bufSize.toNat ≤ b.netif.mtu.toNat - 20 := by
    rw [← hsub, ← UInt32.le_iff_toNat_le]
    exact UInt32.not_lt.mp h
  intro h0
  have h0 := congrArg UInt32.toNat h0
  rw [UInt32.toNat_add, Nat.mod_eq_of_lt (by simp; omega)] at h0
  simp at h0

/-- **An output puts the buffer into one queue or releases it.** -/
theorem ipOutput_owns {n : Net} {b : Buf} (inet : Bool) (href : n.refs b.id ≠ 0) :
    Owns n (n.ipOutput inet b).2 b.id := by
  unfold ipOutput ip4Output ip6Output addIp4head
  by_cases hi : inet = true
  · rw [if_pos hi]
    by_cases hm : b.bufSize > b.netif.mtu.toUInt32 - 20
    · rw [if_pos hm]
      exact release_owns href
    rw [if_neg hm]
    by_cases hr : b.room < 20
    · rw [if_pos hr]
      exact release_owns href
    · rw [if_neg hr]
      exact ipOutputDo_owns (b := { b with bufRoom := b.bufRoom - 20, bufSize := b.bufSize + 20 }) href
        (size_add_ne_zero hm)
  · rw [if_neg hi]
    exact release_owns href

/-- What sending a buffer owes, when `held` queues hold it afterwards. -/
structure Settled (n : Net) (id held : ℕ) (err : VsfErr) : Prop where
  refs : n.refs id = held + err.kept
  stale : id ∉ n.stale
  gone : err.negative → held = 0

/-! ### Buffers that are left alone -/

/-- What is done to other buffers. -/
structure Spares (n n' : Net) (id : ℕ) : Prop where
  refs : n'.refs id = n.refs id
  holders : n'.holders id = n.holders id
  stale : id ∈ n'.stale → id ∈ n.stale
  pool : id ∈ n'.pool → id ∈ n.pool

variable {n n' n'' : Net} {id i : ℕ} {b : Buf}

theorem Spares.refl (n : Net) (id : ℕ) : Spares n n id := ⟨rfl, rfl, fun h => h, fun h => h⟩

theorem Spares.trans (h : Spares n n' id) (h' : Spares n' n'' id) : Spares n n'' id :=
  ⟨h'.refs.trans h.refs, h'.holders.trans h.holders, fun hs => h.stale (h'.stale hs), fun hp => h.pool (h'.pool hp)⟩

theorem release_pool (n : Net) (id : ℕ) : (n.release id).pool = n.pool := by
  unfold release
  split_ifs <;> rfl

theorem release_spares (h : id ≠ i) : Spares n (n.release i) id := by
  refine ⟨release_refs_other h, release_holders n i id, fun hs => ?_, fun hp => by rwa [release_pool] at hp⟩
  unfold release at hs
  split_ifs at hs
  · rcases List.mem_append.mp hs with hs | hs
    · exact hs
    · exact absurd (List.mem_singleton.mp hs) h
  · exact hs

theorem reference_spares (h : id ≠ i) : Spares n (n.reference i) id :=
  ⟨Function.update_of_ne h _ _, rfl, fun hs => hs, fun hp => hp⟩

theorem bufferGet_spares (h : id ∉ n.pool) (hget : n.bufferGet = some (i, n')) :
    id ≠ i ∧ n'.refs i ≠ 0 ∧ Spares n n' id := by
  unfold bufferGet at hget
  split at hget
  · cases hget
  · next j pool hpool =>
    obtain ⟨rfl, rfl⟩ := Prod.mk.inj (Option.some.inj hget)
    rw [hpool] at h
    have hne : id ≠ j := fun heq => h (heq ▸ List.mem_cons_self)
    refine ⟨hne, ?_, Function.update_of_ne hne _ _, rfl, fun hs => hs, fun hp => ?_⟩
    · show Function.update n.refs j 1 j ≠ 0
      rw [Function.update_self]
      exact one_ne_zero
    · rw [hpool]
      exact List.mem_cons_of_mem _ hp

theorem ipOutputDo_pool (n : Net) (b : Buf) : (n.ipOutputDo b).pool = n.pool := by
  unfold ipOutputDo netifIpOutput netifIpOutputDo
  split_ifs <;> first | rfl | exact release_pool n b.id

theorem ipOutput_pool (n : Net) (inet : Bool) (b : Buf) : (n.ipOutput inet b).2.pool = n.pool := by
  unfold ipOutput ip4Output ip6Output addIp4head
  by_cases hr : b.room < 20
  · simp only [if_pos hr]
    split_ifs <;> exact release_pool n b.id
  · simp only [if_neg hr]
    split_ifs
    · exact release_pool n b.id
    · exact ipOutputDo_pool n _
    · exact release_pool n b.id

theorem ipOutput_spares (inet : Bool) (href : n.refs b.id ≠ 0) (h : id ≠ b.id) : Spares n (n.ipOutput inet b).2 id := by
  have hown := ipOutput_owns inet href
  refine ⟨(hown.other id h).1, (hown.other id h).2, fun hs => ?_, fun hp => ?_⟩
  · rwa [hown.stale] at hs
  · rwa [ipOutput_pool] at hp

theorem freeList_holders : ∀ (q : List Buf) (n : Net), (n.freeList q).holders id = n.holders id
  | [], _ => rfl
  | b :: q, n => (freeList_holders q (n.release b.id)).trans (release_holders n b.id id)

theorem freeList_pool : ∀ (q : List Buf) (n : Net), (n.freeList q).pool = n.pool
  | [], _ => rfl
  | b :: q, n => (freeList_pool q (n.release b.id)).trans (release_pool n b.id)

/-! ### What the interface does -/

/-- One step of the interface: the loop of `vsfip_netif_arp_client_thread` in two parts,
`vsfusbd_RNDIS_on_tx_finish`, `vsfip_netif_arp_add_assoc`, `vsfip_netif_ip_output_do`. -/
def exec (n : Net) : NetAct → Net
  | .arpTake =>
    match n.cur, n.requestq with
    | none, id :: q => { n with cur := some id, requestq := q }
    | _, _ => n
  | .arpDone out =>
    match n.cur with
    | none => n
    | some id =>
      if out then { n with cur := none, outq := n.outq ++ [id], again := n.link id }
      else { n with cur := none }.release id
  | .txFinish =>
    let n' := { n with outq := n.outq.tail, txBuffer := n.outq.head? }
    match n.txBuffer with
    | none => n'
    | some id => n'.release id
  | .cache known => { n with macKnown := known }
  | .frame id => { n with refs := Function.update n.refs id 1, outq := n.outq ++ [id], again := n.link id }

/-- A buffer moves on, or is given back with the reference of its queue. -/
structure Yields (n n' : Net) (id : ℕ) : Prop where
  lost : ∃ d, n.holders id = n'.holders id + d ∧ n.refs id = n'.refs id + d
  stale : id ∈ n'.stale → id ∈ n.stale
  pool : n'.pool = n.pool

theorem Yields.moved (hh : n'.holders id = n.holders id) (hr : n'.refs id = n.refs id)
    (hs : n'.stale = n.stale) (hp : n'.pool = n.pool) : Yields n n' id :=
  ⟨⟨0, hh.symm, hr.symm⟩, fun h => hs ▸ h, hp⟩

theorem Yields.release (hh : n.holders id = n'.holders id + if id = i then 1 else 0)
    (hr : n'.refs = n.refs) (hs : n'.stale = n.stale) (hp : n'.pool = n.pool) (hle : n.holders id ≤ n.refs id) :
    Yields n (n'.release i) id := by
  have hpool : (n'.release i).pool = n.pool := (release_pool n' i).trans hp
  by_cases hi : id = i
  · subst hi
    rw [if_pos rfl] at hh
    have hpos : n'.refs id ≠ 0 := by
      rw [hr]
      omega
    have hrel := release_owns hpos
    refine ⟨⟨1, by rw [release_holders]; exact hh, ?_⟩, fun h => hs ▸ hrel.stale ▸ h, hpool⟩
    have hb := hrel.balance
    rw [release_holders, hr] at hb
    omega
  · rw [if_neg hi, add_zero] at hh
    have hsp : Spares n' (n'.release i) id := release_spares hi
    exact ⟨⟨0, by rw [hsp.holders]; exact hh, by rw [hsp.refs, hr, add_zero]⟩, fun h => hs ▸ hsp.stale h, hpool⟩

theorem count_cons' (q : List ℕ) (id i : ℕ) : (i :: q).count id = q.count id + if id = i then 1 else 0 := by
  rw [List.count_cons]
  by_cases h : id = i
  · simp [h]
  · simp [h, Ne.symm h]

/-- **The interface gives a reference back with the buffer.** -/
theorem exec_yields {a : NetAct} (ha : a.Spares id) (hle : n.holders id ≤ n.refs id) :
    Yields n (n.exec a) id := by
  cases a with
  | arpTake =>
    simp only [exec]
    split
    · next i q hcur hq =>
      refine .moved ?_ rfl rfl rfl
      simp only [holders, hcur, hq, Option.toList, List.count_nil, count_cons']
      omega
    · exact .moved rfl rfl rfl rfl
  | arpDone out =>
    simp only [exec]
    split
    · exact .moved rfl rfl rfl rfl
    · next i hcur =>
      cases out with
      | true =>
        refine .moved ?_ rfl rfl rfl
        simp only [holders, hcur, Option.toList, List.count_nil, count_cons', count_concat, if_true]
        omega
      | false =>
        refine .release ?_ rfl rfl rfl hle
        simp only [holders, hcur, Option.toList, List.count_nil, count_cons']
        omega
  | txFinish =>
    have hq : n.outq.count id = n.outq.head?.toList.count id + n.outq.tail.count id := by
      cases n.outq with
      | nil => rfl
      | cons i q =>
        simp only [List.head?_cons, List.tail_cons, Option.toList, List.count_nil, count_cons']
        omega
    simp only [exec]
    split
    · next htx =>
      refine .moved ?_ rfl rfl rfl
      simp only [holders, htx, hq, Option.toList, List.count_nil]
      omega
    · next i htx =>
      refine .release ?_ rfl rfl rfl hle
      simp only [holders, htx, hq, Option.toList, List.count_nil, count_cons']
      omega
  | cache known => exact .moved rfl rfl rfl rfl
  | frame i =>
    have hne : id ≠ i := Ne.symm ha
    refine .moved ?_ (Function.update_of_ne hne _ _) rfl rfl
    simp only [exec, holders, count_concat, if_neg hne]
    omega

/-! ### The references besides the queues below -/

/-- The buffer has `k` references besides those of the queues below. -/
structure Holds (n : Net) (id k : ℕ) : Prop where
  refs : n.refs id = n.holders id + k
  stale : id ∉ n.stale

variable {k : ℕ}

theorem Holds.spared (h : Holds n id k) (hs : Spares n n' id) : Holds n' id k :=
  ⟨by rw [hs.refs, hs.holders, h.refs], fun hst => h.stale (hs.stale hst)⟩

theorem Owns.holds (h : Owns n n' id) (hn : Holds n id (k + 1)) : Holds n' id k := by
  refine ⟨?_, by rw [h.stale]; exact hn.stale⟩
  have hb := h.balance
  have hr := hn.refs
  omega

theorem Holds.ne_zero (h : Holds n id (k + 1)) : n.refs id ≠ 0 := by
  rw [h.refs]
  omega

theorem Holds.release (h : Holds n id (k + 1)) : Holds (n.release id) id k :=
  (release_owns h.ne_zero).holds h

theorem Holds.reference (h : Holds n id k) : Holds (n.reference id) id (k + 1) := by
  refine ⟨?_, h.stale⟩
  show Function.update n.refs id (n.refs id + 1) id = n.holders id + (k + 1)
  rw [Function.update_self, h.refs, add_assoc]

theorem Holds.ipOutput (inet : Bool) (h : Holds n b.id (k + 1)) : Holds (n.ipOutput inet b).2 b.id k :=
  (ipOutput_owns inet h.ne_zero).holds h

theorem Holds.freeList : ∀ (q : List Buf) {n : Net}, Holds n id ((q.map Buf.id).count id + k) →
    Holds (n.freeList q) id k
  | [], n, h => by simpa [Net.freeList] using h
  | b :: q, n, h => by
    have hstep : Holds (n.release b.id) id ((q.map Buf.id).count id + k) := by
      by_cases hb : b.id = id
      · subst hb
        apply Holds.release
        rw [List.map_cons, List.count_cons_self] at h
        exact ⟨by rw [h.refs]; omega, h.stale⟩
      · rw [List.map_cons, List.count_cons_of_ne hb] at h
        exact h.spared (release_spares (Ne.symm hb))
    exact Holds.freeList q hstep

end Net

end Vsf
