/-
# A frame on its way in

From `vsfip_eth_input` to the socket: which bytes of the frame each function reads. Lengths come
from the frame itself; `vsfip_ip4_input` compares that of the packet with the frame's after it has
read the header, and nobody compares it with the header behind (`receive_safe_iff`). Headers are
brought into host order in place, and may overlap, so the bytes are a memory.
-/
import Mathlib
import Vsf.Net.Arp
import Vsf.Net.Sockets

namespace Vsf
namespace Receive

open ByteMem Ip List Function

/-! ### Bytes -/

/-- The 16 bits at `a`, high byte first. -/
def be16 (m : Mem) (a : ℕ) : UInt16 := (m a).toUInt16 <<< 8 ||| (m (a + 1)).toUInt16

/-- The 16 bits at `a`, low byte first. -/
def le16 (m : Mem) (a : ℕ) : UInt16 := (m (a + 1)).toUInt16 <<< 8 ||| (m a).toUInt16

/-- `BE_TO_SYS_U16`, where the bytes lie. -/
def swap16 (m : Mem) (a : ℕ) : Mem := Function.update (Function.update m a (m (a + 1))) (a + 1) (m a)

/-- `BE_TO_SYS_U32`, where the bytes lie. -/
def swap32 (m : Mem) (a : ℕ) : Mem := fun i =>
  if i = a then m (a + 3) else if i = a + 1 then m (a + 2) else if i = a + 2 then m (a + 1)
  else if i = a + 3 then m a else m i

/-- The loop of `vsfip_checksum`. -/
def checksumLoop (m : Mem) : ℕ → ℕ → UInt32 → UInt32
  | _, 0, c => c
  | a, 1, c => c + (m a).toUInt32 <<< 8
  | a, n + 2, c => checksumLoop m (a + 2) n (c + (be16 m a).toUInt32)

/-- `vsfip_checksum`. -/
def checksum (m : Mem) (a len : ℕ) : UInt16 :=
  let c := checksumLoop m a len 0
  let c := (c &&& (0xffff : UInt32)) + c >>> (16 : UInt32)
  ((c &&& (0xffff : UInt32)) + c >>> (16 : UInt32)).toUInt16

/-! ### The functions -/

/-- The frame's interface, and which addresses have a socket that can receive. -/
structure Receiver where
  netif : Arp.Netif
  netmask : UInt32
  socket : Proto → Sockaddr → Sockaddr → Bool

/-- The bytes that were read, and the `app` a socket was given. -/
structure Rx where
  reads : List Access
  delivered : List Access

/-- What was read before. -/
def Rx.after (reads : List Access) (x : Rx) : Rx := ⟨reads ++ x.reads, x.delivered⟩

/-- The addresses of the IP header at `ip` and the ports of the header at `l4`. -/
def source (m : Mem) (ip l4 : ℕ) : Sockaddr := ⟨UInt32.ofNat (load32 m (ip + 12)), le16 m l4⟩

def dest (m : Mem) (ip l4 : ℕ) : Sockaddr := ⟨UInt32.ofNat (load32 m (ip + 16)), le16 m (l4 + 2)⟩

/-- `vsfip_proto_input`. -/
def protoInput (r : Receiver) (p : Proto) (m : Mem) (ip l4 : ℕ) (app : Access) : Rx where
  reads := [(ip + 12, 4), (ip + 16, 4)]
  delivered := if r.socket p (source m ip l4) (dest m ip l4) then [app] else []

/-- The header of `vsfip_udp_input` in host order. -/
def udpFix (m : Mem) (a : ℕ) : Mem := swap16 (swap16 (swap16 (swap16 m a) (a + 2)) (a + 4)) (a + 6)

/-- `vsfip_udp_input`. -/
def udpInput (r : Receiver) (m : Mem) (ip l4 : ℕ) (size : UInt32) : Rx :=
  (protoInput r .udp (udpFix m l4) ip l4 (l4 + 8, (size - 8).toNat)).after [(l4, 8)]

/-- `tcphead->headlen = (tcphead->headlen >> 4) << 2`. -/
def fixHeadlen (m : Mem) (a : ℕ) : Mem := Function.update m (a + 12) ((m (a + 12) >>> 4) <<< 2)

/-- The header of `vsfip_tcp_input` in host order. -/
def tcpFix (m : Mem) (a : ℕ) : Mem :=
  swap16 (swap16 (swap16 (fixHeadlen (swap32 (swap32 (swap16 (swap16 m a) (a + 2)) (a + 4)) (a + 8)) a) (a + 14)) (a + 16))
    (a + 18)

/-- `vsfip_tcp_input`. -/
def tcpInput (r : Receiver) (m : Mem) (ip l4 : ℕ) (size : UInt32) : Rx :=
  let m := tcpFix m l4
  let headlen := m (l4 + 12)
  (protoInput r .tcp m ip l4 (l4 + headlen.toNat, (size - headlen.toUInt32).toNat)).after [(l4, 13), (l4 + 14, 6)]

/-- `vsfip_icmp_input`. -/
def icmpInput (m : Mem) (ip l4 : ℕ) : Rx :=
  if m l4 = 8 then ⟨[(ip, 1), (l4, 1), (ip + 12, 4), (ip + 16, 4), (ip + 2, 2), (ip + 4, 2), (ip + 10, 2), (l4 + 2, 2)], []⟩
  else ⟨[(ip, 1), (l4, 1)], []⟩

/-- `VSFIP_IP4H_HLEN(iphead) * 4`. -/
def hlen (m : Mem) (ip : ℕ) : ℕ := (m ip &&& 0x0f).toNat * 4

/-- `vsfip_ip4_isbroadcast`. -/
def isBroadcast (r : Receiver) (addr : UInt32) : Bool :=
  addr = 0 || addr = 0xffffffff || addr = (r.netif.ipaddr &&& r.netmask) ||| ~~~r.netmask

/-- The IP header of `vsfip_ip4_input` in host order. -/
def ipFix (m : Mem) (ip : ℕ) : Mem := swap16 (swap16 (swap16 (swap16 m (ip + 2)) (ip + 4)) (ip + 6)) (ip + 10)

/-- `vsfip_ip4_input`; nothing is forwarded, and fragments are dropped. -/
def ip4Input (r : Receiver) (b : RxBuf) : Rx :=
  let ip := b.off
  let hlen := hlen b.mem ip
  if checksum b.mem ip hlen ≠ 0xffff then ⟨[(ip, 1), (ip, hlen)], []⟩
  else
    let ipaddr := UInt32.ofNat (load32 b.mem (ip + 16))
    if ¬ isBroadcast r ipaddr ∧ ipaddr ≠ r.netif.ipaddr then ⟨[(ip, 1), (ip, hlen), (ip + 16, 4)], []⟩
    else
      let reads := [(ip, 1), (ip, hlen), (ip + 16, 4), (ip + 2, 2), (ip + 4, 2), (ip + 6, 2), (ip + 10, 2)]
      let m := ipFix b.mem ip
      let len := (le16 m (ip + 2)).toNat
      if m ip >>> 4 ≠ 4 ∨ hlen > len ∨ len > b.size.toNat then ⟨reads, []⟩
      else
        let size := UInt32.ofNat (len - hlen)
        let offset := le16 m (ip + 6)
        if offset &&& 0x4000 = 0 ∧ offset &&& 0x3fff ≠ 0 then ⟨reads, []⟩
        else
          Rx.after (reads ++ [(ip + 9, 1)]) <|
            match m (ip + 9) with
            | 17 => udpInput r m ip (ip + hlen) size
            | 6 => tcpInput r m ip (ip + hlen) size
            | 1 => icmpInput m ip (ip + hlen)
            | _ => ⟨[], []⟩

/-- `vsfip_eth_input`, without the type it reads itself; ARP delivers nothing. -/
def ethInput (r : Receiver) (b : RxBuf) : Rx :=
  let inner : RxBuf := ⟨b.mem, b.off + 14, b.size - 14⟩
  match be16 b.mem (b.off + 12) with
  | 0x0800 => ip4Input r inner
  | 0x0806 => ⟨(r.netif.arpInput inner).reads, []⟩
  | _ => ⟨[], []⟩

/-! ### Frames that are long enough -/

/-- All that is read and delivered lies between `lo` and `hi`. -/
def Rx.Inside (lo hi : ℕ) (x : Rx) : Prop := ∀ a ∈ x.reads ++ x.delivered, lo ≤ a.1 ∧ a.1 + a.2 ≤ hi

/-- The packet passes the checks of `vsfip_ip4_input` after the checksum. -/
def Taken (r : Receiver) (b : RxBuf) : Prop :=
  (isBroadcast r (UInt32.ofNat (load32 b.mem (b.off + 16))) ∨ UInt32.ofNat (load32 b.mem (b.off + 16)) = r.netif.ipaddr) ∧
    b.mem b.off >>> 4 = 4 ∧ hlen b.mem b.off ≤ (be16 b.mem (b.off + 2)).toNat ∧
    (be16 b.mem (b.off + 2)).toNat ≤ b.size.toNat ∧
    (be16 b.mem (b.off + 6) &&& 0x4000 ≠ 0 ∨ be16 b.mem (b.off + 6) &&& 0x3fff = 0)

/-- The header at `l4` fits before `hi`, and what is given of its `n` bytes starts there. -/
def L4Fits (r : Receiver) (m : Mem) (ip l4 n hi : ℕ) : Prop :=
  match m (ip + 9) with
  | 17 => l4 + 8 ≤ hi ∧ (r.socket .udp (source (udpFix m l4) ip l4) (dest (udpFix m l4) ip l4) → 8 ≤ n)
  | 6 => l4 + 20 ≤ hi ∧ (r.socket .tcp (source (tcpFix m l4) ip l4) (dest (tcpFix m l4) ip l4) →
      ((m (l4 + 12) >>> 4) <<< 2).toNat ≤ n)
  | 1 => l4 + 1 ≤ hi ∧ (m l4 = 8 → l4 + 4 ≤ hi)
  | _ => True

/-- The IP header fits before `hi`, as far as looked at, and the one after it. -/
def Ip4Fits (r : Receiver) (b : RxBuf) (hi : ℕ) : Prop :=
  b.off + 1 ≤ hi ∧ b.off + hlen b.mem b.off ≤ hi ∧ (checksum b.mem b.off (hlen b.mem b.off) = 0xffff →
    b.off + 20 ≤ hi ∧ (Taken r b →
      L4Fits r (ipFix b.mem b.off) b.off (b.off + hlen b.mem b.off) ((be16 b.mem (b.off + 2)).toNat - hlen b.mem b.off) hi))

/-- The frame is long enough for what its headers say. -/
def Fits (r : Receiver) (b : RxBuf) : Prop :=
  match be16 b.mem (b.off + 12) with
  | 0x0800 => Ip4Fits r ⟨b.mem, b.off + 14, b.size - 14⟩ (b.off + b.size.toNat)
  | 0x0806 => 22 ≤ b.size.toNat
  | _ => True

/-! ### The headers in host order -/

variable {r : Receiver} {m : Mem} {b : RxBuf} {ip l4 lo hi : ℕ} {size : UInt32}

theorem swap16_of_ne {a i : ℕ} (h : i ≠ a) (h' : i ≠ a + 1) : swap16 m a i = m i := by
  unfold swap16
  rw [update_of_ne h', update_of_ne h]

theorem swap32_of_lt {a i : ℕ} (h : a + 3 < i) : swap32 m a i = m i := by
  unfold swap32
  rw [if_neg (by omega), if_neg (by omega), if_neg (by omega), if_neg (by omega)]

theorem le16_congr {m' : Mem} {a : ℕ} (h : m' a = m a) (h' : m' (a + 1) = m (a + 1)) : le16 m' a = le16 m a := by
  unfold le16
  rw [h, h']

theorem le16_swap16 (a : ℕ) : le16 (swap16 m a) a = be16 m a := by
  unfold le16 be16 swap16
  rw [update_self, update_of_ne (ne_of_lt a.lt_succ_self), update_self]

theorem le16_ipFix_len : le16 (ipFix m ip) (ip + 2) = be16 m (ip + 2) := by
  have h : ∀ i, i = ip + 2 ∨ i = ip + 3 → ipFix m ip i = swap16 m (ip + 2) i := fun i hi => by
    unfold ipFix
    rw [swap16_of_ne (by omega) (by omega), swap16_of_ne (by omega) (by omega), swap16_of_ne (by omega) (by omega)]
  rw [le16_congr (h _ (.inl rfl)) (h _ (.inr rfl)), le16_swap16]

theorem le16_ipFix_offset : le16 (ipFix m ip) (ip + 6) = be16 m (ip + 6) := by
  have h : ∀ i, i = ip + 6 ∨ i = ip + 7 →
      ipFix m ip i = swap16 (swap16 (swap16 m (ip + 2)) (ip + 4)) (ip + 6) i := fun i hi => by
    unfold ipFix
    rw [swap16_of_ne (by omega) (by omega)]
  have h' : ∀ i, i = ip + 6 ∨ i = ip + 7 → swap16 (swap16 m (ip + 2)) (ip + 4) i = m i := fun i hi => by
    rw [swap16_of_ne (by omega) (by omega), swap16_of_ne (by omega) (by omega)]
  rw [le16_congr (h _ (.inl rfl)) (h _ (.inr rfl)), le16_swap16]
  unfold be16
  rw [h' _ (.inl rfl), h' _ (.inr rfl)]

theorem ipFix_ver : ipFix m ip ip = m ip := by
  unfold ipFix
  rw [swap16_of_ne (by omega) (by omega), swap16_of_ne (by omega) (by omega), swap16_of_ne (by omega) (by omega),
    swap16_of_ne (by omega) (by omega)]

theorem tcpFix_headlen : tcpFix m l4 (l4 + 12) = (m (l4 + 12) >>> 4) <<< 2 := by
  unfold tcpFix
  rw [swap16_of_ne (by omega) (by omega), swap16_of_ne (by omega) (by omega), swap16_of_ne (by omega) (by omega)]
  unfold fixHeadlen
  rw [update_self, swap32_of_lt (by omega), swap32_of_lt (by omega), swap16_of_ne (by omega) (by omega),
    swap16_of_ne (by omega) (by omega)]

/-! ### What lies inside -/

theorem inside_after {reads : List Access} {x : Rx} :
    (x.after reads).Inside lo hi ↔ (∀ a ∈ reads, lo ≤ a.1 ∧ a.1 + a.2 ≤ hi) ∧ x.Inside lo hi := by
  unfold Rx.Inside Rx.after
  simp only [append_assoc, forall_mem_append]

theorem protoInput_inside {p : Proto} {app : Access} (hlo : lo ≤ ip) (hhi : ip + 20 ≤ hi) :
    (protoInput r p m ip l4 app).Inside lo hi ↔
      (r.socket p (source m ip l4) (dest m ip l4) → lo ≤ app.1 ∧ app.1 + app.2 ≤ hi) := by
  unfold Rx.Inside protoInput
  cases r.socket p (source m ip l4) (dest m ip l4)
  · simp only [Bool.false_eq_true, if_false, append_nil, forall_mem_cons, not_mem_nil, false_imp_iff, forall_const]
    simp only [and_true, iff_true]
    omega
  · simp only [if_true, forall_const, forall_mem_append, forall_mem_cons, not_mem_nil, false_imp_iff]
    simp only [and_true]
    omega

/-- A length taken from a size of the same bytes goes below zero, or stays
inside. -/
theorem tail_inside {n : UInt32} {x : ℕ} (hlo : lo ≤ l4) (hx : n.toNat = x) (hhi : l4 + size.toNat ≤ hi) (hbig : hi < l4 + 2 ^ 32) :
    (lo ≤ l4 + x ∧ l4 + x + (size - n).toNat ≤ hi) ↔ x ≤ size.toNat := by
  have hsub := UInt32.toNat_sub size n
  omega

theorem udpInput_inside (hlo : lo ≤ ip) (hip : ip ≤ l4) (hhi : ip + 20 ≤ hi) (hsize : l4 + size.toNat ≤ hi)
    (hbig : hi < l4 + 2 ^ 32) : (udpInput r m ip l4 size).Inside lo hi ↔
      l4 + 8 ≤ hi ∧ (r.socket .udp (source (udpFix m l4) ip l4) (dest (udpFix m l4) ip l4) → 8 ≤ size.toNat) := by
  unfold udpInput
  rw [inside_after, protoInput_inside hlo hhi]
  rw [tail_inside (hlo.trans hip) (by rfl) hsize hbig]
  simp only [forall_mem_cons, not_mem_nil, false_imp_iff, forall_const, and_true]
  exact and_congr_left fun _ => ⟨fun h => h.2, fun h => ⟨hlo.trans hip, h⟩⟩

theorem tcpInput_inside (hlo : lo ≤ ip) (hip : ip ≤ l4) (hhi : ip + 20 ≤ hi) (hsize : l4 + size.toNat ≤ hi)
    (hbig : hi < l4 + 2 ^ 32) : (tcpInput r m ip l4 size).Inside lo hi ↔
      l4 + 20 ≤ hi ∧ (r.socket .tcp (source (tcpFix m l4) ip l4) (dest (tcpFix m l4) ip l4) →
        ((m (l4 + 12) >>> 4) <<< 2).toNat ≤ size.toNat) := by
  unfold tcpInput
  rw [inside_after, protoInput_inside hlo hhi, tcpFix_headlen]
  rw [tail_inside (hlo.trans hip) (UInt8.toNat_toUInt32 _) hsize hbig]
  simp only [forall_mem_cons, not_mem_nil, false_imp_iff, forall_const, and_true]
  refine and_congr_left fun _ => ?_
  omega

theorem icmpInput_inside (hlo : lo ≤ ip) (hip : ip ≤ l4) (hhi : ip + 20 ≤ hi) :
    (icmpInput m ip l4).Inside lo hi ↔ l4 + 1 ≤ hi ∧ (m l4 = 8 → l4 + 4 ≤ hi) := by
  unfold icmpInput Rx.Inside
  split_ifs with h
  · simp only [append_nil, forall_mem_cons, not_mem_nil, false_imp_iff, forall_const, and_true, h]
    omega
  · simp only [append_nil, forall_mem_cons, not_mem_nil, false_imp_iff, forall_const, and_true, h]
    omega

theorem l4_inside (hlo : lo ≤ ip) (hip : ip ≤ l4) (hhi : ip + 20 ≤ hi) (hsize : l4 + size.toNat ≤ hi)
    (hbig : hi < l4 + 2 ^ 32) :
    (match m (ip + 9) with
      | 17 => udpInput r m ip l4 size
      | 6 => tcpInput r m ip l4 size
      | 1 => icmpInput m ip l4
      | _ => ⟨[], []⟩).Inside lo hi ↔ L4Fits r m ip l4 size.toNat hi := by
  unfold L4Fits
  split
  · exact udpInput_inside hlo hip hhi hsize hbig
  · exact tcpInput_inside hlo hip hhi hsize hbig
  · exact icmpInput_inside hlo hip hhi
  · exact iff_of_true (by simp [Rx.Inside]) trivial

theorem ip4Input_first (r : Receiver) (b : RxBuf) : (b.off, 1) ∈ (ip4Input r b).reads := by
  unfold ip4Input Rx.after
  dsimp only
  split_ifs <;> simp

/-- **`vsfip_ip4_input`**, for a right size or a start behind the end. -/
theorem ip4_safe_iff (hlo : lo ≤ b.off) (hhi : b.off + b.size.toNat = hi ∨ hi < b.off) :
    (ip4Input r b).Inside lo hi ↔ Ip4Fits r b hi := by
  rcases hhi with hhi | hhi
  swap
  · refine iff_of_false (fun h => ?_) fun h => ?_
    · have := (h _ (mem_append_left _ (ip4Input_first r b))).2
      simp only at this
      omega
    · have := h.1
      omega
  have hsize := b.size.toNat_lt
  unfold ip4Input Ip4Fits
  dsimp only
  set n := hlen b.mem b.off with hn
  by_cases hck : checksum b.mem b.off n = 0xffff
  swap
  · rw [if_pos hck]
    simp only [Rx.Inside, hck, false_imp_iff, and_true, append_nil, forall_mem_cons, not_mem_nil, forall_const]
    omega
  rw [if_neg (not_not_intro hck), le16_ipFix_len, le16_ipFix_offset, ipFix_ver]
  -- a packet that is dropped was only looked at up to its destination
  have hdrop : ∀ reads : List Access, ¬ Taken r b →
      ((∀ a ∈ reads, lo ≤ a.1 ∧ a.1 + a.2 ≤ hi) ↔ b.off + 1 ≤ hi ∧ b.off + n ≤ hi ∧ b.off + 20 ≤ hi) →
      ((⟨reads, []⟩ : Rx).Inside lo hi ↔ b.off + 1 ≤ hi ∧ b.off + n ≤ hi ∧ (checksum b.mem b.off n = 0xffff →
        b.off + 20 ≤ hi ∧ (Taken r b → L4Fits r (ipFix b.mem b.off) b.off (b.off + n)
          ((be16 b.mem (b.off + 2)).toNat - n) hi))) := fun reads ht hreads => by
    rw [show (⟨reads, []⟩ : Rx).Inside lo hi ↔ _ from by rw [Rx.Inside, append_nil], hreads]
    simp only [hck, ht, false_imp_iff, and_true, forall_const]
  by_cases hfor : ¬ isBroadcast r (UInt32.ofNat (load32 b.mem (b.off + 16))) ∧
      UInt32.ofNat (load32 b.mem (b.off + 16)) ≠ r.netif.ipaddr
  · rw [if_pos hfor]
    refine hdrop _ (fun ht => ht.1.elim hfor.1 hfor.2) ?_
    simp only [forall_mem_cons, not_mem_nil, false_imp_iff, forall_const, and_true]
    omega
  have hreads : (∀ a ∈ [(b.off, 1), (b.off, n), (b.off + 16, 4), (b.off + 2, 2), (b.off + 4, 2), (b.off + 6, 2), (b.off + 10, 2)],
      lo ≤ a.1 ∧ a.1 + a.2 ≤ hi) ↔ b.off + 1 ≤ hi ∧ b.off + n ≤ hi ∧ b.off + 20 ≤ hi := by
    simp only [forall_mem_cons, not_mem_nil, false_imp_iff, forall_const, and_true]
    omega
  rw [if_neg hfor]
  by_cases hlen : b.mem b.off >>> 4 ≠ 4 ∨ n > (be16 b.mem (b.off + 2)).toNat ∨ (be16 b.mem (b.off + 2)).toNat > b.size.toNat
  · rw [if_pos hlen]
    refine hdrop _ (fun ht => ?_) hreads
    obtain ⟨-, h1, h2, h3, -⟩ := ht
    rcases hlen with hv | hl | hl
    · exact hv h1
    · exact absurd h2 (by omega)
    · exact absurd h3 (by omega)
  rw [if_neg hlen]
  by_cases hfrag : be16 b.mem (b.off + 6) &&& 0x4000 = 0 ∧ be16 b.mem (b.off + 6) &&& 0x3fff ≠ 0
  · rw [if_pos hfrag]
    exact hdrop _ (fun ht => ht.2.2.2.2.elim (fun h => h hfrag.1) hfrag.2) hreads
  rw [if_neg hfrag]
  push Not at hlen
  have ht : Taken r b := by
    refine ⟨?_, hlen.1, hlen.2.1, hlen.2.2, ?_⟩
    · by_cases hb : isBroadcast r (UInt32.ofNat (load32 b.mem (b.off + 16)))
      · exact .inl hb
      · exact .inr (not_not.mp fun he => hfor ⟨hb, he⟩)
    · by_cases hd : be16 b.mem (b.off + 6) &&& 0x4000 = 0
      · exact .inr (not_not.mp fun he => hfrag ⟨hd, he⟩)
      · exact .inl hd
  have hn' : (UInt32.ofNat ((be16 b.mem (b.off + 2)).toNat - n)).toNat = (be16 b.mem (b.off + 2)).toNat - n :=
    UInt32.toNat_ofNat_of_lt' (lt_of_le_of_lt ((Nat.sub_le _ _).trans hlen.2.2) b.size.toNat_lt_size)
  have hbig : hi < b.off + n + 2 ^ 32 := by omega
  have hend : b.off + n + (UInt32.ofNat ((be16 b.mem (b.off + 2)).toNat - n)).toNat ≤ hi := by omega
  have hreads' : (∀ a ∈ [(b.off, 1), (b.off, n), (b.off + 16, 4), (b.off + 2, 2), (b.off + 4, 2), (b.off + 6, 2), (b.off + 10, 2)] ++
      [(b.off + 9, 1)], lo ≤ a.1 ∧ a.1 + a.2 ≤ hi) ↔ b.off + 1 ≤ hi ∧ b.off + n ≤ hi ∧ b.off + 20 ≤ hi := by
    rw [forall_mem_append, hreads, forall_mem_singleton]
    omega
  rw [inside_after, hreads']
  simp only [hck, ht, forall_const]
  rw [and_assoc, and_assoc]
  refine and_congr_right fun _ => and_congr_right fun _ => and_congr_right fun h20 => ?_
  have hl4 := l4_inside (r := r) (m := ipFix b.mem b.off) hlo (Nat.le_add_right _ _) h20 hend hbig
  rw [hn'] at hl4
  exact hl4

/-- **`vsfip_netif_arp_input`** reads 8 bytes before it looks at the size. -/
theorem arp_safe_iff (n : Arp.Netif) (hlo : lo ≤ b.off) (hhi : b.off + b.size.toNat = hi ∨ hi < b.off) :
    (⟨(n.arpInput b).reads, []⟩ : Rx).Inside lo hi ↔ b.off + 8 ≤ hi := by
  unfold Rx.Inside Arp.Netif.arpInput
  dsimp only
  split
  case h_1 | h_2 =>
    split_ifs <;>
      simp only [append_nil, forall_mem_cons, not_mem_nil, false_imp_iff, forall_const, and_true] <;>
      omega
  case h_3 =>
    simp only [append_nil, forall_mem_cons, not_mem_nil, false_imp_iff, forall_const, and_true]
    omega

/-- **What is read and delivered lies in the frame** exactly if it is as long as its headers say. -/
theorem receive_safe_iff (r : Receiver) (b : RxBuf) :
    (ethInput r b).Inside b.off (b.off + b.size.toNat) ↔ Fits r b := by
  have hsize : b.off + 14 + (b.size - 14).toNat = b.off + b.size.toNat ∨ b.off + b.size.toNat < b.off + 14 := by
    have hsub := UInt32.toNat_sub b.size 14
    have hlt := b.size.toNat_lt
    simp only [UInt32.reduceToNat] at hsub
    omega
  unfold ethInput Fits
  dsimp only
  split
  · exact ip4_safe_iff (Nat.le_add_right _ _) hsize
  · rw [arp_safe_iff r.netif (Nat.le_add_right _ _) hsize]
    dsimp only
    omega
  · exact iff_of_true (by simp [Rx.Inside]) trivial

/-! ### A packet without its header -/

/-- A host that has a socket for everything. -/
def host : Receiver := ⟨Arp.Traffic.quiet.netif, 0x00ffffff, fun _ _ _ => true⟩

/-- A frame for 192.168.0.1 whose UDP packet is 20 bytes: the IP header alone. -/
def headless : RxBuf where
  mem := fun i => ([2, 0, 0, 0, 0, 1, 2, 0, 0, 0, 0, 7, 8, 0, 0x45, 0, 0, 20, 0, 0, 0x40, 0, 64, 17, 0xb9, 0x85,
    192, 168, 0, 2, 192, 168, 0, 1] : List UInt8).getD i 0
  off := 0
  size := 60

/-- **The socket is given almost 4 GiB.** -/
theorem headless_delivered : (ethInput host headless).delivered = [(42, 4294967288)] ∧
    ¬ (ethInput host headless).Inside headless.off (headless.off + headless.size.toNat) := by
  have h : (ethInput host headless).delivered = [(42, 4294967288)] := by rfl
  refine ⟨h, fun hin => ?_⟩
  have := (hin _ (mem_append_right _ (by rw [h]; exact mem_singleton_self _))).2
  exact absurd this (by decide)

end Receive
end Vsf
