/-
# Headers put in front of a payload

A buffer of `VSFIP_TCPBUF_GET` or `VSFIP_UDPBUF_GET` has room for the headers, and each layer moves
`buf` down and writes its own. The room is that of the plain headers; a SYN has an option of 4
bytes, and nothing is left for the Ethernet header (`headers_fit`). The checksum is the complement
of the sum without it (`checksum_right`).
-/
import Mathlib
import Vsf.Lib.CStr
import Vsf.Lib.LittleEndian
import Vsf.Net.Checksum

namespace Vsf
namespace Frame

open ByteMem Ip Receive Arp CStr UInt16

/-! ### Buffers -/

/-- `struct vsfip_buffer_t` in its memory: its block (`buffer`), `buf`, `app`, `proto_node.addr`, all below
2^32. -/
structure TxBuf where
  mem : Mem
  buffer : ℕ
  buf : ℕ
  bufSize : UInt32
  app : ℕ
  appSize : UInt32
  nodeAddr : UInt32

/-- The difference of a pointer and a pointer or an offset. -/
def ptrSub (a n : ℕ) : ℕ := (a + 2 ^ 32 - n) % 2 ^ 32

/-- `vsfip_appbuffer_get`, when `get_buffer` returns the block at `a`. -/
def appbufferGet (m : Mem) (a : ℕ) (header app : UInt32) : TxBuf where
  mem := m
  buffer := a
  buf := a
  bufSize := header + app
  app := a + header.toNat
  appSize := header + app - header
  nodeAddr := 0

/-- `VSFIP_CFG_NETIF_HEADLEN`, for Ethernet. -/
def netifHeadlen : UInt32 := 14

/-- `VSFIP_PROTO_HEADLEN`. -/
def protoHeadlen : UInt32 := netifHeadlen + 20

/-- `VSFIP_TCPBUF_GET`. -/
def tcpbufGet (m : Mem) (a : ℕ) (s : UInt32) : TxBuf := appbufferGet m a (protoHeadlen + 20) s

/-- `VSFIP_UDPBUF_GET`. -/
def udpbufGet (m : Mem) (a : ℕ) (s : UInt32) : TxBuf := appbufferGet m a (protoHeadlen + 8) s

/-! ### Headers -/

/-- The number of a protocol. -/
def protoNumber : Proto → UInt8
  | .udp => 17
  | .tcp => 6

/-- What the headers need of a socket, its control blocks and its input queue. -/
structure TxSocket where
  proto : Proto
  localPort : UInt16
  remote : Sockaddr
  lseq : UInt32
  rseq : UInt32
  rxWindow : UInt32
  inqLen : UInt32
  id : UInt16
  xfedLen : UInt32

/-- What they need of the interface. -/
structure TxNetif where
  ipaddr : UInt32
  macaddr : Vector UInt8 16

/-- The high byte first. -/
def be32Bytes (v : UInt32) : List UInt8 := be16Bytes (v >>> 16).toUInt16 ++ be16Bytes v.toUInt16

/-- `VSFIP_TCPFLAG_SYN`. -/
def synFlag : UInt8 := 0x02

/-- `VSFIP_TCPFLAG_ACK`. -/
def ackFlag : UInt8 := 0x10

/-- `VSFIP_CFG_TCP_MSS`. -/
def tcpMss : UInt16 := 1460

/-- The length of a TCP header. -/
def tcpHeadlen (flags : UInt8) : ℕ := if flags &&& synFlag ≠ 0 then 24 else 20

/-- The TCP header before its checksum, and behind, with a SYN's option. -/
def tcpFront (s : TxSocket) (flags : UInt8) : List UInt8 :=
  be16Bytes s.localPort ++ be16Bytes s.remote.port ++ be32Bytes s.lseq ++ be32Bytes s.rseq ++
    [UInt8.ofNat (tcpHeadlen flags / 4 * 16), if s.rseq ≠ 0 then flags ||| ackFlag else flags] ++
    be16Bytes (s.rxWindow - s.inqLen).toUInt16

def tcpBack (flags : UInt8) : List UInt8 :=
  [0, 0] ++ if flags &&& synFlag ≠ 0 then [0x02, 0x04] ++ be16Bytes tcpMss else []

def tcphead (s : TxSocket) (flags : UInt8) (checksum : UInt16) : List UInt8 :=
  tcpFront s flags ++ (be16Bytes checksum ++ tcpBack flags)

/-- `vsfip_add_tcphead`. -/
def addTcphead (s : TxSocket) (b : TxBuf) (flags : UInt8) : VsfErr × TxBuf :=
  if (b.app : ℤ) - b.buffer < tcpHeadlen flags then (.notEnoughResources, b)
  else
    let a := ptrSub b.app (tcpHeadlen flags)
    (.none, { b with
      mem := write b.mem a (tcphead s flags 0)
      buf := a
      bufSize := b.appSize + UInt32.ofNat (tcpHeadlen flags)
      nodeAddr := s.lseq })

/-- The two halves of an address, as `GET_BE_U16` reads them. -/
def addrHalf (ip : UInt32) (i : ℕ) : UInt32 := (be16 (LE.get8 (addrBytes ip)) i).toUInt32

/-- `vsfip_proto_checksum`. -/
def protoChecksum (s : TxSocket) (n : TxNetif) (b : TxBuf) : UInt16 :=
  let c := (checksum b.mem b.buf b.bufSize.toUInt16.toNat).toUInt32
  let c := c + addrHalf n.ipaddr 0 + addrHalf n.ipaddr 2
  let c := c + addrHalf s.remote.addr 0 + addrHalf s.remote.addr 2
  let c := c + (protoNumber s.proto).toUInt32 + b.bufSize
  let c := (c &&& (0xffff : UInt32)) + c >>> (16 : UInt32)
  ((c &&& (0xffff : UInt32)) + c >>> (16 : UInt32)).toUInt16

/-- `vsfip_add_tcpchecksum`. -/
def addTcpchecksum (s : TxSocket) (n : TxNetif) (b : TxBuf) : TxBuf :=
  { b with mem := write b.mem (b.buf + 16) (be16Bytes (~~~protoChecksum s n b)) }

def udphead (s : TxSocket) (len : UInt16) : List UInt8 :=
  be16Bytes s.localPort ++ be16Bytes s.remote.port ++ be16Bytes len ++ [0, 0]

/-- `vsfip_add_udphead`. -/
def addUdphead (s : TxSocket) (b : TxBuf) : VsfErr × TxBuf :=
  if ptrSub b.app b.buffer < 8 then (.notEnoughResources, b)
  else
    let a := ptrSub b.app 8
    let size := b.appSize + 8
    (.none, { b with mem := write b.mem a (udphead s size.toUInt16), buf := a, bufSize := size })

/-- The IP header in front of its checksum, and behind it. -/
def ip4Front (s : TxSocket) (len : UInt16) : List UInt8 :=
  [0x45, 0] ++ be16Bytes len ++ be16Bytes s.id ++ be16Bytes s.xfedLen.toUInt16 ++ [32, protoNumber s.proto]

def ip4Back (s : TxSocket) (n : TxNetif) : List UInt8 := addrBytes n.ipaddr ++ addrBytes s.remote.addr

def ip4head (s : TxSocket) (n : TxNetif) (len checksum : UInt16) : List UInt8 :=
  ip4Front s len ++ (be16Bytes checksum ++ ip4Back s n)

/-- `vsfip_add_ip4head`. -/
def addIp4head (s : TxSocket) (n : TxNetif) (b : TxBuf) : VsfErr × TxBuf :=
  if ptrSub b.app b.buffer < 20 then (.fail, b)
  else
    let a := ptrSub b.buf 20
    let size := b.bufSize + 20
    let m := write b.mem a (ip4head s n size.toUInt16 0)
    (.none, { b with mem := write m (a + 10) (be16Bytes (~~~checksum m a 20)), buf := a, bufSize := size })

def ethhead (n : TxNetif) (dest : Vector UInt8 16) (proto : UInt16) : List UInt8 :=
  dest.toList.take 6 ++ n.macaddr.toList.take 6 ++ be16Bytes proto

/-- `vsfip_eth_header`. -/
def ethHeader (n : TxNetif) (dest : Vector UInt8 16) (proto : UInt16) (b : TxBuf) : VsfErr × TxBuf :=
  if ptrSub b.buf b.buffer < 14 then (.fail, b)
  else
    let a := ptrSub b.buf 14
    (.none, { b with mem := write b.mem a (ethhead n dest proto), buf := a, bufSize := b.bufSize + 14 })

/-! ### Frames -/

/-- The checksum of some bytes. -/
def complement (bs : List UInt8) : UInt16 := UInt16.ofNat (65535 - OnesComplement.sum 65536 (words bs))

/-- The IP header with its checksum. -/
def ip4Header (s : TxSocket) (n : TxNetif) (len : UInt16) : List UInt8 :=
  ip4head s n len (complement (ip4head s n len 0))

/-- The pseudo-header of a segment of a length. -/
def pseudo (s : TxSocket) (n : TxNetif) (len : UInt16) : List UInt8 :=
  addrBytes n.ipaddr ++ addrBytes s.remote.addr ++ [0, protoNumber s.proto] ++ be16Bytes len

/-- A TCP segment with its checksum. -/
def tcpSegment (s : TxSocket) (n : TxNetif) (flags : UInt8) (payload : List UInt8) : List UInt8 :=
  let len := UInt16.ofNat (tcpHeadlen flags + payload.length)
  tcphead s flags (complement (pseudo s n len ++ (tcphead s flags 0 ++ payload))) ++ payload

/-- The buffer goes through a layer: no error, and it stays in its block. -/
structure Passed (r : VsfErr × TxBuf) : Prop where
  err : r.1 = .none
  inside : r.2.buffer ≤ r.2.buf

/-- The frame that is sent. -/
structure Whole (b : TxBuf) (frame : List UInt8) : Prop where
  size : b.bufSize.toNat = frame.length
  bytes : Holds b.mem b.buf frame

/-- What is asked of a TCP segment in the buffer `b`. -/
structure TcpFrame (s : TxSocket) (n : TxNetif) (dest : Vector UInt8 16) (flags : UInt8) (payload : List UInt8) (b : TxBuf) : Prop where
  tcp : Passed (addTcphead s b flags)
  ip : Passed (addIp4head s n (addTcpchecksum s n (addTcphead s b flags).2))
  eth : Passed (ethHeader n dest protoIp (addIp4head s n (addTcpchecksum s n (addTcphead s b flags).2)).2)
  frame : Whole (ethHeader n dest protoIp (addIp4head s n (addTcpchecksum s n (addTcphead s b flags).2)).2).2
    (ethhead n dest protoIp ++ (ip4Header s n (UInt16.ofNat (20 + (tcpHeadlen flags + payload.length))) ++
      tcpSegment s n flags payload))

/-- What is asked of a datagram. -/
structure UdpFrame (s : TxSocket) (n : TxNetif) (dest : Vector UInt8 16) (payload : List UInt8) (b : TxBuf) : Prop where
  udp : Passed (addUdphead s b)
  ip : Passed (addIp4head s n (addUdphead s b).2)
  eth : Passed (ethHeader n dest protoIp (addIp4head s n (addUdphead s b).2).2)
  frame : Whole (ethHeader n dest protoIp (addIp4head s n (addUdphead s b).2).2).2
    (ethhead n dest protoIp ++ (ip4Header s n (UInt16.ofNat (20 + (8 + payload.length))) ++
      (udphead s (UInt16.ofNat (8 + payload.length)) ++ payload)))

variable {m : Mem} {a c : ℕ} {bs cs hs xs ys zs payload : List UInt8}

/-! ### Checksums that are filled in -/

@[simp] theorem be16Bytes_length (v : UInt16) : (be16Bytes v).length = 2 := rfl

@[simp] theorem addrBytes_length (ip : UInt32) : (addrBytes ip).length = 4 := rfl

@[simp] theorem be32Bytes_length (v : UInt32) : (be32Bytes v).length = 4 := rfl

theorem toNat_high (v : UInt16) : (v >>> 8).toUInt8.toNat = v.toNat / 256 := by
  have hv := v.toNat_lt
  rw [toNat_toUInt8, UInt16.toNat_shiftRight, show (8 : UInt16).toNat % 16 = 8 from rfl, Nat.shiftRight_eq_div_pow]
  omega

theorem words_be16 (v : UInt16) (zs : List UInt8) : words (be16Bytes v ++ zs) = v.toNat :: words zs := by
  have hlo : v.toUInt8.toNat = v.toNat % 256 := toNat_toUInt8 v
  show ((v >>> 8).toUInt8.toNat * 256 + v.toUInt8.toNat) :: words zs = _
  rw [toNat_high, hlo, mul_comm, Nat.div_add_mod]

variable {v : UInt16} {b' : TxBuf}

theorem be16_of_holds (h : Holds m a (be16Bytes v ++ bs)) : be16 m a = v := by
  obtain ⟨hhi, hrest⟩ := holds_cons.mp h
  obtain ⟨hlo, -⟩ := holds_cons.mp hrest
  apply UInt16.toNat_inj.mp
  rw [be16_toNat, hhi, hlo, toNat_high, toNat_toUInt8]
  omega

theorem words_field (hx : 2 ∣ xs.length) (v : UInt16) :
    (words (xs ++ (be16Bytes v ++ zs))).sum = (words (xs ++ (be16Bytes 0 ++ zs))).sum + v.toNat := by
  rw [words_append xs _ hx, words_append xs _ hx, words_be16, words_be16]
  simp only [List.sum_append, List.sum_cons, UInt16.toNat_zero]
  omega

theorem complement_toNat (bs : List UInt8) : (complement bs).toNat = 65535 - OnesComplement.sum 65536 (words bs) := by
  rw [complement, toNat_ofNat', Nat.mod_eq_of_lt (by omega)]

/-- **A header with its checksum** has the sum 0xFFFF. -/
theorem complement_sum (hx : 2 ∣ xs.length) :
    OnesComplement.sum 65536 (words (xs ++ (be16Bytes (complement (xs ++ (be16Bytes 0 ++ zs))) ++ zs))) = 65535 := by
  refine OnesComplement.sum_complement (by decide) (words_lt _) (words_lt (xs ++ (be16Bytes 0 ++ zs))) ?_
  rw [words_field hx, complement_toNat]

theorem toNat_not (v : UInt16) : (~~~v).toNat = 65535 - v.toNat := by
  rw [← toNat_toBitVec, UInt16.toBitVec_not, BitVec.toNat_not, toNat_toBitVec]

theorem not_eq_complement (h : v.toNat = OnesComplement.sum 65536 (words bs)) : ~~~v = complement bs := by
  apply UInt16.toNat_inj.mp
  rw [toNat_not, complement_toNat, h]

/-! ### The layers -/

theorem ptrSub_of_le (h : c ≤ a) (hlt : a < c + 2 ^ 32) : ptrSub a c = a - c := by
  unfold ptrSub
  omega

variable {s : TxSocket} {n : TxNetif} {b : TxBuf} {flags : UInt8} {dest : Vector UInt8 16} {proto : UInt16}

theorem ip4head_length (s : TxSocket) (n : TxNetif) (len ck : UInt16) : (ip4head s n len ck).length = 20 := rfl

theorem ethhead_length (n : TxNetif) (dest : Vector UInt8 16) (proto : UInt16) : (ethhead n dest proto).length = 14 := by
  simp [ethhead]

theorem tcpFront_length (s : TxSocket) (flags : UInt8) : (tcpFront s flags).length = 16 := rfl

theorem tcphead_length (s : TxSocket) (flags : UInt8) (ck : UInt16) : (tcphead s flags ck).length = tcpHeadlen flags := by
  unfold tcphead tcpBack tcpHeadlen
  simp only [List.length_append, tcpFront_length, be16Bytes_length]
  split_ifs <;> rfl

theorem tcpHeadlen_cases (flags : UInt8) :
    flags &&& synFlag = 0 ∧ tcpHeadlen flags = 20 ∨ flags &&& synFlag ≠ 0 ∧ tcpHeadlen flags = 24 := by
  unfold tcpHeadlen
  by_cases h : flags &&& synFlag ≠ 0
  · exact .inr ⟨h, if_pos h⟩
  · exact .inl ⟨not_not.mp h, if_neg h⟩

/-- **The IP header** is put in front of what `buf` holds. -/
theorem addIp4head_spec (hroom : b.buffer + 20 ≤ b.app) (happ : b.app < b.buffer + 2 ^ 32) (hbuf : 20 ≤ b.buf) (hlt : b.buf ≤ 2 ^ 32)
    (hsize : b.bufSize.toNat = bs.length) (h : Holds b.mem b.buf bs) :
    ∃ m', addIp4head s n b = (.none, { b with mem := m', buf := b.buf - 20, bufSize := b.bufSize + 20 }) ∧
      Holds m' (b.buf - 20) (ip4Header s n (UInt16.ofNat (20 + bs.length)) ++ bs) := by
  have hdiff : ¬ptrSub b.app b.buffer < 20 := by
    rw [ptrSub_of_le (by omega) happ]
    omega
  have hsub : ptrSub b.buf 20 = b.buf - 20 := ptrSub_of_le hbuf (by omega)
  have hword : (b.bufSize + 20).toUInt16 = UInt16.ofNat (20 + bs.length) := by
    apply UInt16.toNat_inj.mp
    rw [UInt32.toNat_toUInt16, UInt32.toNat_add, hsize, toNat_ofNat', show (20 : UInt32).toNat = 20 from rfl]
    omega
  unfold addIp4head
  dsimp only
  rw [if_neg hdiff, hsub, hword]
  refine ⟨_, rfl, ?_⟩
  set len := UInt16.ofNat (20 + bs.length)
  -- the header with 0 for its checksum
  have hzero : Holds (write b.mem (b.buf - 20) (ip4head s n len 0)) (b.buf - 20) (ip4head s n len 0 ++ bs) := by
    refine holds_write_front ?_
    rw [ip4head_length, Nat.sub_add_cancel hbuf]
    exact h
  have hck := not_eq_complement (checksum_sum (holds_append.mp hzero).1 (by rw [ip4head_length]; decide))
  rw [ip4head_length] at hck
  have hassoc : ∀ ck, ip4head s n len ck ++ bs = ip4Front s len ++ (be16Bytes ck ++ (ip4Back s n ++ bs)) := fun ck => by
    rw [ip4head, List.append_assoc, List.append_assoc]
  rw [hassoc] at hzero
  rw [hck, ip4Header, hassoc]
  exact holds_write_field hzero rfl rfl

/-- **The Ethernet header**, if there is room for it. -/
theorem ethHeader_spec (n : TxNetif) (dest : Vector UInt8 16) (proto : UInt16) (hroom : b.buffer + 14 ≤ b.buf) (hlt : b.buf < 2 ^ 32)
    (h : Holds b.mem b.buf bs) :
    ethHeader n dest proto b = (.none, { b with
      mem := write b.mem (b.buf - 14) (ethhead n dest proto), buf := b.buf - 14, bufSize := b.bufSize + 14 }) ∧
      Holds (write b.mem (b.buf - 14) (ethhead n dest proto)) (b.buf - 14) (ethhead n dest proto ++ bs) := by
  have hdiff : ¬ptrSub b.buf b.buffer < 14 := by
    rw [ptrSub_of_le (by omega) (by omega)]
    omega
  have hsub : ptrSub b.buf 14 = b.buf - 14 := ptrSub_of_le (by omega) (by omega)
  refine ⟨?_, holds_write_front ?_⟩
  · unfold ethHeader
    rw [if_neg hdiff, hsub]
  · rw [ethhead_length, Nat.sub_add_cancel (by omega)]
    exact h

theorem ethHeader_fail (hlo : b.buffer ≤ b.buf) (hroom : b.buf < b.buffer + 14) :
    (ethHeader n dest proto b).1 = .fail := by
  have hdiff : ptrSub b.buf b.buffer < 14 := by
    rw [ptrSub_of_le hlo (by omega)]
    omega
  unfold ethHeader
  rw [if_pos hdiff]

/-- **The TCP header** is put in front of the payload. -/
theorem addTcphead_spec (s : TxSocket) (flags : UInt8) (hroom : b.buffer + tcpHeadlen flags ≤ b.app) (happ : b.app ≤ 2 ^ 32)
    (h : Holds b.mem b.app payload) :
    addTcphead s b flags = (.none, { b with
      mem := write b.mem (b.app - tcpHeadlen flags) (tcphead s flags 0)
      buf := b.app - tcpHeadlen flags
      bufSize := b.appSize + UInt32.ofNat (tcpHeadlen flags)
      nodeAddr := s.lseq }) ∧
      Holds (write b.mem (b.app - tcpHeadlen flags) (tcphead s flags 0)) (b.app - tcpHeadlen flags) (tcphead s flags 0 ++ payload) := by
  have hpos : 0 < tcpHeadlen flags := by
    rcases tcpHeadlen_cases flags with ⟨-, h⟩ | ⟨-, h⟩ <;> omega
  have hsub : ptrSub b.app (tcpHeadlen flags) = b.app - tcpHeadlen flags := ptrSub_of_le (by omega) (by omega)
  refine ⟨?_, holds_write_front ?_⟩
  · unfold addTcphead
    rw [if_neg (by omega), hsub]
  · rw [tcphead_length, Nat.sub_add_cancel (by omega)]
    exact h

theorem words_addr (ip : UInt32) : (words (addrBytes ip)).sum = (addrHalf ip 0).toNat + (addrHalf ip 2).toNat := by
  rw [addrHalf, addrHalf, toNat_toUInt32, toNat_toUInt32, be16_toNat, be16_toNat]
  simp [words, addrBytes, LE.get8]

theorem words_pseudo (s : TxSocket) (n : TxNetif) (len : UInt16) : (words (pseudo s n len)).sum =
    (addrHalf n.ipaddr 0).toNat + (addrHalf n.ipaddr 2).toNat + ((addrHalf s.remote.addr 0).toNat + (addrHalf s.remote.addr 2).toNat) +
      (protoNumber s.proto).toNat + len.toNat := by
  have hlen := words_be16 len []
  rw [List.append_nil] at hlen
  rw [pseudo, words_append _ _ ⟨5, rfl⟩, words_append _ _ ⟨4, rfl⟩, words_append _ _ ⟨2, rfl⟩, hlen]
  simp only [List.sum_append, words_addr]
  simp [words]

/-- **The checksum of a segment** is that of the pseudo-header and the segment. -/
theorem protoChecksum_sum (h : Holds b.mem b.buf bs) (hsize : b.bufSize.toNat = bs.length) (hlen : bs.length < 65536) :
    ~~~protoChecksum s n b = complement (pseudo s n (UInt16.ofNat bs.length) ++ bs) := by
  have hsz : b.bufSize.toUInt16.toNat = bs.length := by
    rw [UInt32.toNat_toUInt16, hsize, Nat.mod_eq_of_lt hlen]
  have hlen16 : (UInt16.ofNat bs.length).toNat = bs.length := by
    rw [toNat_ofNat', Nat.mod_eq_of_lt hlen]
  have hseg := checksum_sum h (by omega)
  have hhalf : ∀ ip i, (addrHalf ip i).toNat < 65536 := fun ip i => by
    rw [addrHalf, toNat_toUInt32]
    exact toNat_lt _
  have hnum := (protoNumber s.proto).toNat_lt
  have hseglt := OnesComplement.sum_lt (show 1 < 65536 by decide) (words_lt bs)
  have hps := words_pseudo s n (UInt16.ofNat bs.length)
  rw [hlen16] at hps
  have h1 := hhalf n.ipaddr 0
  have h2 := hhalf n.ipaddr 2
  have h3 := hhalf s.remote.addr 0
  have h4 := hhalf s.remote.addr 2
  apply not_eq_complement
  unfold protoChecksum
  dsimp only
  rw [hsz]
  -- what is added up is the sum of the segment and the words of the pseudo-header
  have hc : ((checksum b.mem b.buf bs.length).toUInt32 + addrHalf n.ipaddr 0 + addrHalf n.ipaddr 2 + addrHalf s.remote.addr 0 +
      addrHalf s.remote.addr 2 + ((protoNumber s.proto).toUInt32) + b.bufSize).toNat =
      (OnesComplement.sum 65536 (words bs) :: words (pseudo s n (UInt16.ofNat bs.length))).sum := by
    rw [List.sum_cons, hps]
    simp only [UInt32.toNat_add, toNat_toUInt32, UInt8.toNat_toUInt32, hseg, hsize]
    omega
  have hws : ∀ w ∈ OnesComplement.sum 65536 (words bs) :: words (pseudo s n (UInt16.ofNat bs.length)), w < 65536 := by
    rintro w hw
    rcases List.mem_cons.mp hw with rfl | hw
    · exact hseglt
    · exact words_lt _ w hw
  have hlt := OnesComplement.sum_lt (show 1 < 65536 by decide) hws
  rw [toNat_folds hc hws, UInt32.toNat_toUInt16, UInt32.toNat_ofNat_of_lt' (hlt.trans (by decide)), Nat.mod_eq_of_lt hlt]
  refine OnesComplement.sum_congr (by decide) hws (words_lt _) ?_ ?_
  · rw [words_append _ _ ⟨6, rfl⟩, List.sum_append, List.sum_cons, add_comm]
    exact (OnesComplement.sum_modEq (by decide) (words bs)).add_left _
  · have hzero := @OnesComplement.sum_eq_zero 65536 (words bs)
    rw [words_append _ _ ⟨6, rfl⟩, List.sum_append, List.sum_cons]
    omega

theorem addUdphead_spec (hroom : b.buffer + 8 ≤ b.app) (happ : b.app < b.buffer + 2 ^ 32) (hlt : b.app ≤ 2 ^ 32)
    (hsize : b.appSize.toNat = payload.length) (h : Holds b.mem b.app payload) : ∃ m',
    addUdphead s b = (.none, { b with mem := m', buf := b.app - 8, bufSize := b.appSize + 8 }) ∧
      Holds m' (b.app - 8) (udphead s (UInt16.ofNat (8 + payload.length)) ++ payload) := by
  have hdiff : ¬ptrSub b.app b.buffer < 8 := by
    rw [ptrSub_of_le (by omega) happ]
    omega
  have hsub : ptrSub b.app 8 = b.app - 8 := ptrSub_of_le (by omega) (by omega)
  have hword : (b.appSize + 8).toUInt16 = UInt16.ofNat (8 + payload.length) := by
    apply UInt16.toNat_inj.mp
    rw [UInt32.toNat_toUInt16, UInt32.toNat_add, hsize, toNat_ofNat', show (8 : UInt32).toNat = 8 from rfl]
    omega
  unfold addUdphead
  dsimp only
  rw [if_neg hdiff, hsub, hword]
  refine ⟨_, rfl, holds_write_front ?_⟩
  rw [show (udphead s (UInt16.ofNat (8 + payload.length))).length = 8 from rfl, Nat.sub_add_cancel (by omega)]
  exact h

/-- **The checksum of a segment** is put into its header. -/
theorem addTcpchecksum_spec (s : TxSocket) (n : TxNetif) (flags : UInt8) (hsize : b.bufSize.toNat = tcpHeadlen flags + payload.length)
    (hlen : tcpHeadlen flags + payload.length < 65536) (h : Holds b.mem b.buf (tcphead s flags 0 ++ payload)) :
    ∃ m', addTcpchecksum s n b = { b with mem := m' } ∧ Holds m' b.buf (tcpSegment s n flags payload) := by
  have hlength : (tcphead s flags 0 ++ payload).length = tcpHeadlen flags + payload.length := by
    rw [List.length_append, tcphead_length]
  have hck := protoChecksum_sum (s := s) (n := n) h (hsize.trans hlength.symm) (by omega)
  rw [hlength] at hck
  refine ⟨_, rfl, ?_⟩
  have hassoc : ∀ ck, tcphead s flags ck ++ payload = tcpFront s flags ++ (be16Bytes ck ++ (tcpBack flags ++ payload)) := fun ck => by
    rw [tcphead, List.append_assoc, List.append_assoc]
  rw [tcpSegment, hck, hassoc]
  rw [hassoc] at h
  exact holds_write_field h rfl rfl

theorem tcpSegment_length (s : TxSocket) (n : TxNetif) (flags : UInt8) (payload : List UInt8) :
    (tcpSegment s n flags payload).length = tcpHeadlen flags + payload.length := by
  rw [tcpSegment, List.length_append, tcphead_length]

theorem toNat_add32 {u : UInt32} {k : ℕ} (hk : k < 65536) (h : u.toNat < 131072) : (u + UInt32.ofNat k).toNat = u.toNat + k := by
  rw [UInt32.toNat_add, UInt32.toNat_ofNat_of_lt' (by simp [UInt32.size]; omega), Nat.mod_eq_of_lt (by omega)]

/-- The IP and Ethernet headers go in front, if 34 bytes are free. -/
theorem lower_fit (s : TxSocket) (n : TxNetif) (dest : Vector UInt8 16) (hroom : b.buffer + 34 ≤ b.buf) (happ : b.buf ≤ b.app)
    (hlt : b.app ≤ 2 ^ 32) (hdiff : b.app < b.buffer + 2 ^ 32)
    (hsize : b.bufSize.toNat = bs.length) (hlen : bs.length < 65536) (h : Holds b.mem b.buf bs) :
    Passed (addIp4head s n b) ∧ Passed (ethHeader n dest protoIp (addIp4head s n b).2) ∧
      Whole (ethHeader n dest protoIp (addIp4head s n b).2).2
        (ethhead n dest protoIp ++ (ip4Header s n (UInt16.ofNat (20 + bs.length)) ++ bs)) := by
  obtain ⟨m', hip, hbytes⟩ := addIp4head_spec (s := s) (n := n) (by omega) hdiff (by omega) (by omega) hsize h
  rw [hip]
  have heth := ethHeader_spec n dest protoIp
    (b := { b with mem := m', buf := b.buf - 20, bufSize := b.bufSize + 20 }) (by dsimp only; omega) (by dsimp only; omega) hbytes
  obtain ⟨heq, hframe⟩ := heth
  rw [heq]
  refine ⟨⟨rfl, ?_⟩, ⟨rfl, ?_⟩, ⟨?_, hframe⟩⟩
  · dsimp only
    omega
  · dsimp only
    omega
  · have h20 : (b.bufSize + 20).toNat = b.bufSize.toNat + 20 := toNat_add32 (k := 20) (by decide) (by omega)
    have h34 : (b.bufSize + 20 + 14).toNat = b.bufSize.toNat + 20 + 14 := by
      rw [← h20]
      exact toNat_add32 (k := 14) (by decide) (by omega)
    rw [h34, hsize, List.length_append, List.length_append, ethhead_length, ip4Header, ip4head_length]
    omega

theorem tcpFrame_iff (hblock : a + 54 + payload.length ≤ 2 ^ 32) (hlen : payload.length + 40 < 65536)
    (h : Holds m (a + 54) payload) :
    TcpFrame s n dest flags payload (tcpbufGet m a (UInt32.ofNat payload.length)) ↔ flags &&& synFlag = 0 := by
  set b := tcpbufGet m a (UInt32.ofNat payload.length) with hb
  have happ : b.app = a + 54 := rfl
  have hbuffer : b.buffer = a := rfl
  have hmem : b.mem = m := rfl
  have hn : (UInt32.ofNat payload.length).toNat = payload.length := UInt32.toNat_ofNat_of_lt' (by simp [UInt32.size]; omega)
  have happSize : b.appSize.toNat = payload.length := by
    show (protoHeadlen + 20 + UInt32.ofNat payload.length - (protoHeadlen + 20)).toNat = _
    rw [UInt32.add_comm, UInt32.add_sub_cancel, hn]
  have hhead : tcpHeadlen flags ≤ 24 := by
    rcases tcpHeadlen_cases flags with ⟨-, h⟩ | ⟨-, h⟩ <;> omega
  rw [← hmem, ← happ] at h
  obtain ⟨htcp, hbytes⟩ := addTcphead_spec s flags (by rw [happ, hbuffer]; omega) (by rw [happ]; omega) h
  have hsize : (b.appSize + UInt32.ofNat (tcpHeadlen flags)).toNat = tcpHeadlen flags + payload.length := by
    rw [toNat_add32 (by omega) (by omega), happSize, add_comm]
  obtain ⟨m', hck, hseg⟩ := addTcpchecksum_spec s n flags (b := { b with
      mem := write b.mem (b.app - tcpHeadlen flags) (tcphead s flags 0)
      buf := b.app - tcpHeadlen flags
      bufSize := b.appSize + UInt32.ofNat (tcpHeadlen flags)
      nodeAddr := s.lseq }) hsize (by omega) hbytes
  have hlength := tcpSegment_length s n flags payload
  constructor
  · intro hframe
    by_contra hsyn
    obtain ⟨-, h24⟩ := (tcpHeadlen_cases flags).resolve_left fun h => hsyn h.1
    have heth := hframe.eth.err
    rw [htcp, hck] at heth
    rw [h24] at hseg hsize hlength heth
    obtain ⟨m'', hip, -⟩ := addIp4head_spec (s := s) (n := n) (b := { b with
      mem := m', buf := b.app - 24, bufSize := b.appSize + UInt32.ofNat 24, nodeAddr := s.lseq })
      (by dsimp only; omega) (by dsimp only; omega) (by dsimp only; omega) (by dsimp only; omega)
      (by dsimp only; rw [hsize, hlength]) hseg
    rw [hip, ethHeader_fail (by dsimp only; omega) (by dsimp only; omega)] at heth
    cases heth
  · intro hsyn
    obtain ⟨-, h20⟩ := (tcpHeadlen_cases flags).resolve_right fun h => h.1 hsyn
    have hlower := lower_fit s n dest (b := { b with
        mem := m'
        buf := b.app - tcpHeadlen flags
        bufSize := b.appSize + UInt32.ofNat (tcpHeadlen flags)
        nodeAddr := s.lseq })
      (by dsimp only; omega) (by dsimp only; omega) (by dsimp only; omega) (by dsimp only; omega)
      (by dsimp only; rw [hsize, hlength]) (by omega) hseg
    rw [hlength] at hlower
    obtain ⟨hip, heth, hwhole⟩ := hlower
    refine ⟨⟨?_, ?_⟩, ?_, ?_, ?_⟩
    · rw [htcp]
    · rw [htcp]
      dsimp only
      omega
    · rw [htcp, hck]
      exact hip
    · rw [htcp, hck]
      exact heth
    · rw [htcp, hck]
      exact hwhole

theorem udpFrame (hblock : a + 42 + payload.length ≤ 2 ^ 32) (hlen : payload.length + 28 < 65536)
    (h : Holds m (a + 42) payload) : UdpFrame s n dest payload (udpbufGet m a (UInt32.ofNat payload.length)) := by
  set b := udpbufGet m a (UInt32.ofNat payload.length) with hb
  have happ : b.app = a + 42 := rfl
  have hbuffer : b.buffer = a := rfl
  have hmem : b.mem = m := rfl
  have hn : (UInt32.ofNat payload.length).toNat = payload.length := UInt32.toNat_ofNat_of_lt' (by simp [UInt32.size]; omega)
  have happSize : b.appSize.toNat = payload.length := by
    show (protoHeadlen + 8 + UInt32.ofNat payload.length - (protoHeadlen + 8)).toNat = _
    rw [UInt32.add_comm, UInt32.add_sub_cancel, hn]
  rw [← hmem, ← happ] at h
  obtain ⟨m', hudp, hbytes⟩ := addUdphead_spec (s := s) (by omega) (by omega) (by omega) happSize h
  have hsize : (b.appSize + 8).toNat = 8 + payload.length := by
    have := toNat_add32 (u := b.appSize) (k := 8) (by decide) (by omega)
    rw [happSize] at this
    rw [show (8 : UInt32) = UInt32.ofNat 8 from rfl, this, add_comm]
  have hlength : (udphead s (UInt16.ofNat (8 + payload.length)) ++ payload).length = 8 + payload.length := by
    rw [List.length_append]
    rfl
  have hlower := lower_fit s n dest (b := { b with mem := m', buf := b.app - 8, bufSize := b.appSize + 8 })
    (by dsimp only; omega) (by dsimp only; omega) (by dsimp only; omega) (by dsimp only; omega)
    (by dsimp only; rw [hsize, hlength]) (by omega) hbytes
  rw [hlength] at hlower
  obtain ⟨hip, heth, hwhole⟩ := hlower
  refine ⟨⟨?_, ?_⟩, ?_, ?_, ?_⟩
  · rw [hudp]
  · rw [hudp]
    dsimp only
    omega
  · rw [hudp]
    exact hip
  · rw [hudp]
    exact heth
  · rw [hudp]
    exact hwhole

/-! ### Header room and checksums -/

/-- **Header room**: a datagram in the MTU goes through, and a segment that is no SYN. -/
theorem headers_fit (s : TxSocket) (n : TxNetif) (dest : Vector UInt8 16) (flags : UInt8) (m : Mem) (a : ℕ) (mtu : UInt16)
    (payload : List UInt8) :
    (payload.length + 40 ≤ mtu.toNat → a + 54 + payload.length ≤ 2 ^ 32 → Holds m (a + 54) payload →
      (TcpFrame s n dest flags payload (tcpbufGet m a (UInt32.ofNat payload.length)) ↔ flags &&& synFlag = 0)) ∧
    (payload.length + 28 ≤ mtu.toNat → a + 42 + payload.length ≤ 2 ^ 32 → Holds m (a + 42) payload →
      UdpFrame s n dest payload (udpbufGet m a (UInt32.ofNat payload.length))) := by
  have hmtu := mtu.toNat_lt
  constructor
  · intro hlen hblock h
    exact tcpFrame_iff hblock (by omega) h
  · intro hlen hblock h
    exact udpFrame hblock (by omega) h

/-- A connection to port 80 of 10.0.0.2. -/
def client : TxSocket where
  proto := .tcp
  localPort := 1024
  remote := ⟨0x0200000a, 80⟩
  lseq := 1
  rseq := 2
  rxWindow := 1460
  inqLen := 0
  id := 7
  xfedLen := 0

/-- The interface 10.0.0.1. -/
def station : TxNetif := ⟨0x0100000a, Vector.replicate 16 2⟩

theorem headers_fit_client : TcpFrame client station (Vector.replicate 16 4) 0x18 [0, 0, 0] (tcpbufGet (fun _ => 0) 0 3) ∧
    UdpFrame client station (Vector.replicate 16 4) [0, 0, 0] (udpbufGet (fun _ => 0) 0 3) := by
  obtain ⟨htcp, hudp⟩ := headers_fit client station (Vector.replicate 16 4) 0x18 (fun _ => 0) 0 1500 [0, 0, 0]
  have hzero : ∀ a, Holds (fun _ => 0) a [0, 0, 0] := by
    intro a i hi
    match i, hi with
    | 0, _ => rfl
    | 1, _ => rfl
    | 2, _ => rfl
  exact ⟨(htcp (by decide) (by decide) (hzero _)).mpr (by decide), hudp (by decide) (by decide) (hzero _)⟩

theorem syn_no_room : ¬TcpFrame client station (Vector.replicate 16 4) synFlag [] (tcpbufGet (fun _ => 0) 0 0) := by
  intro h
  have herr := h.eth.err
  revert herr
  decide +kernel

/-- The bytes in `buf`. -/
def TxBuf.bytes (b : TxBuf) : List UInt8 := (List.range b.bufSize.toNat).map fun i => b.mem (b.buf + i)

theorem bytes_eq (h : Holds b.mem b.buf bs) (hsize : b.bufSize.toNat = bs.length) : b.bytes = bs := by
  apply List.ext_getElem
  · simp [TxBuf.bytes, hsize]
  · intro i _ hi
    simp [TxBuf.bytes, h i hi]

theorem holds_range (m : Mem) (a k : ℕ) : Holds m a ((List.range k).map fun i => m (a + i)) := by
  intro i hi
  simp

theorem hlen_ip4Header {len : UInt16} (h : Holds m a (ip4Header s n len)) : hlen m a = 20 := by
  have hfirst : m a = 0x45 := h 0 (by rw [ip4Header, ip4head_length]; decide)
  rw [hlen, hfirst]
  rfl

theorem addIp4head_checksum (h : addIp4head s n b = (.none, b')) :
    checksum b'.mem b'.buf (hlen b'.mem b'.buf) = 0xffff := by
  unfold addIp4head at h
  split_ifs at h with hroom
  · cases h
  · set a := ptrSub b.buf 20
    set len := (b.bufSize + 20).toUInt16
    have hhead : Holds (write b.mem a (ip4head s n len 0)) a (ip4head s n len 0) := holds_write _ _ _
    have hck := not_eq_complement (checksum_sum hhead (by rw [ip4head_length]; decide))
    rw [ip4head_length] at hck
    have hfull : Holds (write (write b.mem a (ip4head s n len 0)) (a + 10)
        (be16Bytes (~~~checksum (write b.mem a (ip4head s n len 0)) a 20))) a (ip4Header s n len) := by
      rw [hck, ip4Header]
      exact holds_write_field hhead rfl rfl
    cases h
    have hsum := checksum_sum hfull (by rw [ip4Header, ip4head_length]; decide)
    rw [ip4Header, ip4head_length] at hsum
    apply UInt16.toNat_inj.mp
    rw [hlen_ip4Header hfull, hsum]
    exact complement_sum ⟨5, rfl⟩

/-- A segment of `vsfip_add_tcphead` and `vsfip_add_tcpchecksum`. -/
theorem addTcpchecksum_checksum (h : addTcphead s b flags = (.none, b'))
    (hlen : b.appSize.toNat + tcpHeadlen flags ≤ 65535) :
    OnesComplement.sum 65536 (words (pseudo s n b'.bufSize.toUInt16 ++ (addTcpchecksum s n b').bytes)) = 65535 := by
  unfold addTcphead at h
  split_ifs at h with hroom
  · cases h
  · cases h
    set a := ptrSub b.app (tcpHeadlen flags)
    set m := write b.mem a (tcphead s flags 0)
    set payload := (List.range b.appSize.toNat).map fun i => m (a + tcpHeadlen flags + i)
    have hpayload : payload.length = b.appSize.toNat := by simp [payload]
    have hsize : (b.appSize + UInt32.ofNat (tcpHeadlen flags)).toNat = tcpHeadlen flags + payload.length := by
      rw [toNat_add32 (by omega) (by omega), hpayload, add_comm]
    have hbytes : Holds m a (tcphead s flags 0 ++ payload) := by
      refine holds_append.mpr ⟨holds_write _ _ _, ?_⟩
      rw [tcphead_length]
      exact holds_range m _ _
    obtain ⟨m', hck, hseg⟩ := addTcpchecksum_spec s n flags (b := { b with
      mem := m, buf := a, bufSize := b.appSize + UInt32.ofNat (tcpHeadlen flags), nodeAddr := s.lseq }) hsize (by omega) hbytes
    have hlen16 : (b.appSize + UInt32.ofNat (tcpHeadlen flags)).toUInt16 = UInt16.ofNat (tcpHeadlen flags + payload.length) := by
      apply UInt16.toNat_inj.mp
      rw [UInt32.toNat_toUInt16, hsize, toNat_ofNat']
    rw [hck, bytes_eq hseg (by rw [tcpSegment_length]; exact hsize), hlen16]
    have heven : 2 ∣ (pseudo s n (UInt16.ofNat (tcpHeadlen flags + payload.length)) ++ tcpFront s flags).length := ⟨14, rfl⟩
    have hsum := @complement_sum _ (tcpBack flags ++ payload) heven
    simp only [tcpSegment, tcphead, List.append_assoc] at hsum ⊢
    exact hsum

/-- **The Internet checksum** is the one's-complement sum, and 0xFFFF of what is sent. -/
theorem checksum_right : (∀ (m : Mem) (a : ℕ) (bs : List UInt8), Holds m a bs → bs.length ≤ 65535 →
      (checksum m a bs.length).toNat = OnesComplement.sum 65536 (words bs) ∧
      (checksum m a bs.length).toNat ≡ (words bs).sum [MOD 65535] ∧
      (checksum m a bs.length = 0 → ∀ w ∈ words bs, w = 0)) ∧
    (∀ (s : TxSocket) (n : TxNetif) (b b' : TxBuf), addIp4head s n b = (.none, b') →
      checksum b'.mem b'.buf (hlen b'.mem b'.buf) = 0xffff) ∧
    (∀ (s : TxSocket) (n : TxNetif) (b b' : TxBuf) (flags : UInt8), addTcphead s b flags = (.none, b') →
      b.appSize.toNat + tcpHeadlen flags ≤ 65535 →
      OnesComplement.sum 65536 (words (pseudo s n b'.bufSize.toUInt16 ++ (addTcpchecksum s n b').bytes)) = 65535) := by
  refine ⟨?_, ?_, ?_⟩
  · intro m a bs h hlen
    have hsum := checksum_sum h hlen
    refine ⟨hsum, ?_, ?_⟩
    · rw [hsum]
      exact OnesComplement.sum_modEq (by decide) _
    · intro hzero
      rw [hzero, UInt16.toNat_zero] at hsum
      exact List.sum_eq_zero_iff.mp (OnesComplement.sum_eq_zero.mp hsum.symm)
  · intro s n b b' h
    exact addIp4head_checksum h
  · intro s n b b' flags h hlen
    exact addTcpchecksum_checksum h hlen

theorem checksum_right_client : let b := tcpbufGet (fun _ => 0) 0 3
    let ip := (addIp4head client station b).2
    let tcp := (addTcphead client b 0x18).2
    (checksum (write (fun _ => 0) 0 [1, 2, 3]) 0 3).toNat = OnesComplement.sum 65536 [258, 768] ∧
    checksum ip.mem ip.buf (hlen ip.mem ip.buf) = 0xffff ∧
    OnesComplement.sum 65536 (words (pseudo client station tcp.bufSize.toUInt16 ++ (addTcpchecksum client station tcp).bytes)) = 65535 := by
  obtain ⟨hsum, hip, htcp⟩ := checksum_right
  refine ⟨(hsum _ 0 [1, 2, 3] (holds_write _ _ _) (by decide)).1, ?_, ?_⟩
  · exact hip client station (tcpbufGet (fun _ => 0) 0 3) _ (Prod.ext (by decide +kernel) rfl)
  · exact htcp client station (tcpbufGet (fun _ => 0) 0 3) _ 0x18 (Prod.ext (by decide +kernel) rfl) (by decide)

end Frame
end Vsf
