/-
# Answers to a ping

`vsfip_icmp_input` answers an echo request in its buffer: addresses are swapped, fields go back into
network order, and the checksum is moved on by 8. The offset of the IP header is not put back, so a
request with DF gets a wrong answer; and the carry is added for sums from 0xFFF7 on, where it
belongs to sums over 0xFFFF (`echo_iff`).
-/
import Mathlib
import Vsf.Net.Checksum

namespace Vsf
namespace Icmp

open ByteMem Ip Receive List Function

/-! ### The functions -/

/-- `ipsrc` and `ipdest` swapped. -/
def swapAddr (m : Mem) (ip : ℕ) : Mem := fun i =>
  if ip + 12 ≤ i ∧ i < ip + 16 then m (i + 4)
  else if ip + 16 ≤ i ∧ i < ip + 20 then m (i - 4)
  else m i

/-- `icmphead->checksum` of the reply. -/
def replyChecksum (v : UInt16) : UInt16 :=
  let v := v + 8
  if 0xfff7 ≤ v then v + 1 else v

/-- The low byte first. -/
def store16 (m : Mem) (a : ℕ) (v : UInt16) : Mem :=
  Function.update (Function.update m a v.toUInt8) (a + 1) (v >>> 8).toUInt8

/-- `vsfip_icmp_input`: the buffer it sends, if it does not release it. -/
def icmpReply (m : Mem) (ip l4 : ℕ) (size : UInt32) : Option RxBuf :=
  let iphHlen := hlen m ip
  if m l4 = 8 then
    let m := swapAddr m ip
    let m := swap16 (swap16 (swap16 m (ip + 2)) (ip + 4)) (ip + 10)
    let m := Function.update m l4 0
    let m := store16 m (l4 + 2) (replyChecksum (le16 m (l4 + 2)))
    some ⟨m, l4 - iphHlen, size + UInt32.ofNat iphHlen⟩
  else none

/-- What `vsfip_ip4_input` sends by `vsfip_icmp_input`. -/
def ip4Answer (r : Receiver) (b : RxBuf) : Option RxBuf :=
  let ip := b.off
  let hlen := hlen b.mem ip
  if checksum b.mem ip hlen ≠ 0xffff then none
  else
    let ipaddr := UInt32.ofNat (load32 b.mem (ip + 16))
    if ¬ isBroadcast r ipaddr ∧ ipaddr ≠ r.netif.ipaddr then none
    else
      let m := ipFix b.mem ip
      let len := (le16 m (ip + 2)).toNat
      if m ip >>> 4 ≠ 4 ∨ hlen > len ∨ len > b.size.toNat then none
      else
        let offset := le16 m (ip + 6)
        if offset &&& 0x4000 = 0 ∧ offset &&& 0x3fff ≠ 0 then none
        else if m (ip + 9) = 1 then icmpReply m ip (ip + hlen) (UInt32.ofNat (len - hlen))
        else none

/-! ### Requests and replies -/

/-- `iphead->len`, the offset field, and the ICMP message. -/
def totalLen (b : RxBuf) : ℕ := (be16 b.mem (b.off + 2)).toNat

def offsetField (b : RxBuf) : UInt16 := be16 b.mem (b.off + 6)

def message (b : RxBuf) : ℕ := b.off + hlen b.mem b.off

def messageLen (b : RxBuf) : ℕ := totalLen b - hlen b.mem b.off

/-- A well-formed echo request that `vsfip_ip4_input` accepts. -/
structure EchoRequest (r : Receiver) (b : RxBuf) : Prop where
  ipChecksum : checksum b.mem b.off (hlen b.mem b.off) = 0xffff
  taken : Taken r b
  header : 20 ≤ hlen b.mem b.off
  proto : b.mem (b.off + 9) = 1
  unfragmented : offsetField b &&& 0x3fff = 0
  long : 8 ≤ messageLen b
  echo : b.mem (message b) = 8
  icmpChecksum : checksum b.mem (message b) (messageLen b) = 0xffff

/-- A valid reply to it. -/
structure EchoReply (b b' : RxBuf) : Prop where
  off : b'.off = b.off
  size : b'.size.toNat = totalLen b
  source : ∀ i < 4, b'.mem (b.off + 12 + i) = b.mem (b.off + 16 + i)
  dest : ∀ i < 4, b'.mem (b.off + 16 + i) = b.mem (b.off + 12 + i)
  fields : ∀ i < hlen b.mem b.off, i < 12 ∨ 20 ≤ i → b'.mem (b.off + i) = b.mem (b.off + i)
  type : b'.mem (message b) = 0
  content : ∀ i < messageLen b, i = 1 ∨ 4 ≤ i → b'.mem (message b + i) = b.mem (message b + i)
  ipChecksum : checksum b'.mem b.off (hlen b.mem b.off) = 0xffff
  icmpChecksum : checksum b'.mem (message b) (messageLen b) = 0xffff

/-- No flag is set, and adding 8 low byte first carries nothing into the top, or gives 0xFFFF for a message
not all 0. -/
def Answerable (b : RxBuf) : Prop :=
  offsetField b = 0 ∧ (le16 b.mem (message b + 2) < 0xffef ∨
    le16 b.mem (message b + 2) = 0xfff7 ∧ ∃ i < messageLen b, (i = 1 ∨ 4 ≤ i) ∧ b.mem (message b + i) ≠ 0)

/-! ### Blocks of bytes -/

/-- The `n` bytes at `a`. -/
def block (m : Mem) (a n : ℕ) : List UInt8 := (List.range n).map fun i => m (a + i)

variable {m m' : Mem} {a a' c ip l4 k n : ℕ} {r : Receiver} {b b' : RxBuf}

@[simp] theorem block_length (m : Mem) (a n : ℕ) : (block m a n).length = n := by
  simp [block]

theorem holds_block (m : Mem) (a n : ℕ) : Holds m a (block m a n) := by
  intro i hi
  simp [block]

theorem block_add (m : Mem) (a k n : ℕ) : block m a (k + n) = block m a k ++ block m (a + k) n := by
  simp only [block, range_add, map_append, map_map]
  congr 1
  apply map_congr_left
  intro i _
  rw [Function.comp_apply, add_assoc]

theorem block_congr (h : ∀ i < n, m (a + i) = m' (a' + i)) : block m a n = block m' a' n := by
  apply map_congr_left
  intro i hi
  exact h i (List.mem_range.mp hi)

theorem mem_block {x : UInt8} : x ∈ block m a n ↔ ∃ i < n, m (a + i) = x := by
  simp [block]

theorem checksum_block (hn : n ≤ 65535) : checksum m a n = 0xffff ↔
    (words (block m a n)).sum % 65535 = 0 ∧ (words (block m a n)).sum ≠ 0 := by
  have h := checksum_eq_last (holds_block m a n) (by rwa [block_length])
  rw [block_length] at h
  exact h

theorem words_sum_eq_zero : ∀ bs : List UInt8, (words bs).sum = 0 ↔ ∀ x ∈ bs, x = 0
  | [] => by simp [words]
  | [x] => by
    rw [forall_mem_singleton, ← UInt8.toNat_inj, UInt8.toNat_zero]
    simp [words]
  | x :: y :: bs => by
    rw [forall_mem_cons, forall_mem_cons, ← words_sum_eq_zero bs, ← UInt8.toNat_inj, ← UInt8.toNat_inj, UInt8.toNat_zero]
    simp only [words, sum_cons]
    omega

/-! ### The reply in the buffer -/

/-- What `vsfip_icmp_input` leaves: the offset field's bytes are swapped. -/
def replyMem (m : Mem) (ip l4 : ℕ) : Mem :=
  store16 (Function.update (swapAddr (swap16 m (ip + 6)) ip) l4 0) (l4 + 2) (replyChecksum (le16 m (l4 + 2)))

theorem swap16_swap16 (m : Mem) (a : ℕ) : swap16 (swap16 m a) a = m := by
  funext i
  by_cases h : i = a ∨ i = a + 1
  · rcases h with rfl | rfl
    · simp [swap16]
    · simp [swap16]
  · rw [swap16_of_ne (by omega) (by omega), swap16_of_ne (by omega) (by omega)]

theorem swap16_comm (h : a + 2 ≤ c ∨ c + 2 ≤ a) : swap16 (swap16 m a) c = swap16 (swap16 m c) a := by
  funext i
  by_cases hc : i = c ∨ i = c + 1
  · rw [swap16_of_ne (a := a) (by omega) (by omega)]
    rcases hc with rfl | rfl
    · simp only [swap16, update_apply]
      split_ifs <;> first | omega | rfl
    · simp only [swap16, update_apply]
      split_ifs <;> first | omega | rfl
  · rw [swap16_of_ne (a := c) (by omega) (by omega)]
    by_cases ha : i = a ∨ i = a + 1
    · rcases ha with rfl | rfl
      · simp only [swap16, update_apply]
        split_ifs <;> first | omega | rfl
      · simp only [swap16, update_apply]
        split_ifs <;> first | omega | rfl
    · rw [swap16_of_ne (by omega) (by omega), swap16_of_ne (by omega) (by omega), swap16_of_ne (by omega) (by omega)]

theorem swapAddr_swap16 (h : a + 2 ≤ ip + 12) : swapAddr (swap16 m a) ip = swap16 (swapAddr m ip) a := by
  funext i
  by_cases ha : i = a ∨ i = a + 1
  · have hsame : swapAddr m ip a = m a ∧ swapAddr m ip (a + 1) = m (a + 1) := by
      unfold swapAddr
      rw [if_neg (by omega), if_neg (by omega), if_neg (by omega), if_neg (by omega)]
      exact ⟨rfl, rfl⟩
    have hi : swapAddr (swap16 m a) ip i = swap16 m a i := by
      unfold swapAddr
      rw [if_neg (by omega), if_neg (by omega)]
    rw [hi]
    rcases ha with rfl | rfl
    · simp only [swap16, update_apply, hsame]
    · simp only [swap16, update_apply, hsame]
  · rw [swap16_of_ne (by omega) (by omega)]
    unfold swapAddr
    split_ifs with h1 h2
    · exact swap16_of_ne (by omega) (by omega)
    · exact swap16_of_ne (by omega) (by omega)
    · exact swap16_of_ne (by omega) (by omega)

theorem swapBack_ipFix (m : Mem) (ip : ℕ) :
    swap16 (swap16 (swap16 (swapAddr (ipFix m ip) ip) (ip + 2)) (ip + 4)) (ip + 10) = swapAddr (swap16 m (ip + 6)) ip := by
  rw [← swapAddr_swap16 (by omega), ← swapAddr_swap16 (by omega), ← swapAddr_swap16 (by omega)]
  congr 1
  unfold ipFix
  rw [swap16_comm (a := ip + 10) (c := ip + 2) (by omega), swap16_comm (a := ip + 6) (c := ip + 2) (by omega),
    swap16_comm (a := ip + 4) (c := ip + 2) (by omega), swap16_swap16, swap16_comm (a := ip + 10) (c := ip + 4) (by omega),
    swap16_comm (a := ip + 6) (c := ip + 4) (by omega), swap16_swap16, swap16_swap16]

variable {i : ℕ}

theorem ipFix_of_ne (h : i = ip ∨ i = ip + 9 ∨ ip + 12 ≤ i) : ipFix m ip i = m i := by
  unfold ipFix
  rw [swap16_of_ne (by omega) (by omega), swap16_of_ne (by omega) (by omega), swap16_of_ne (by omega) (by omega),
    swap16_of_ne (by omega) (by omega)]

theorem swapAddr_of_ne (h : i < ip + 12 ∨ ip + 20 ≤ i) : swapAddr m ip i = m i := by
  unfold swapAddr
  rw [if_neg (by omega), if_neg (by omega)]

/-- What becomes of a packet that `vsfip_icmp_input` answers. -/
theorem icmpReply_ipFix (hl4 : ip + 20 ≤ l4) (hecho : m l4 = 8) (size : UInt32) :
    icmpReply (ipFix m ip) ip l4 size = some ⟨replyMem m ip l4, l4 - hlen m ip, size + UInt32.ofNat (hlen m ip)⟩ := by
  have hfix : ∀ i, l4 ≤ i → ipFix m ip i = m i := fun i hi => ipFix_of_ne (by omega)
  have hver : hlen (ipFix m ip) ip = hlen m ip := by
    unfold hlen
    rw [ipFix_of_ne (.inl rfl)]
  have hsame : ∀ i, l4 < i → Function.update (swapAddr (swap16 m (ip + 6)) ip) l4 0 i = m i := fun i hi => by
    rw [update_of_ne (by omega), swapAddr_of_ne (by omega), swap16_of_ne (by omega) (by omega)]
  unfold icmpReply
  dsimp only
  rw [hfix l4 (le_refl _), if_pos hecho, hver, swapBack_ipFix, le16_congr (hsame (l4 + 2) (by omega)) (hsame (l4 + 2 + 1) (by omega))]
  rfl

theorem ip4Answer_request (h : EchoRequest r b) :
    ip4Answer r b = some ⟨replyMem b.mem b.off (message b), b.off, UInt32.ofNat (totalLen b)⟩ := by
  obtain ⟨hdest, hver, hle, hsize, hfrag⟩ := h.taken
  have hmsg : b.off + 20 ≤ b.off + hlen b.mem b.off := Nat.add_le_add_left h.header _
  have hecho : b.mem (b.off + hlen b.mem b.off) = 8 := h.echo
  unfold ip4Answer
  dsimp only
  rw [if_neg (not_not_intro h.ipChecksum), if_neg (fun hn => hdest.elim hn.1 hn.2), le16_ipFix_len, le16_ipFix_offset, ipFix_ver,
    if_neg (by simp only [hver, ne_eq, not_true_eq_false, false_or]; omega), if_neg (fun hn => hfrag.elim (· hn.1) hn.2),
    ipFix_of_ne (.inr (.inl rfl)), if_pos h.proto, icmpReply_ipFix hmsg hecho, Nat.add_sub_cancel,
    ← UInt32.ofNat_add, Nat.sub_add_cancel hle]
  rfl

/-! ### Its bytes -/

theorem replyMem_of_ne (h : i < ip + 6 ∨ ip + 8 ≤ i ∧ i < ip + 12 ∨ ip + 20 ≤ i)
    (hmsg : i ≠ l4 ∧ i ≠ l4 + 2 ∧ i ≠ l4 + 3) : replyMem m ip l4 i = m i := by
  obtain ⟨h0, h2, h3⟩ := hmsg
  unfold replyMem store16
  rw [update_of_ne (by omega), update_of_ne h2, update_of_ne h0, swapAddr_of_ne (by omega),
    swap16_of_ne (by omega) (by omega)]

theorem replyMem_header (hl4 : ip + 20 ≤ l4) (h : i < ip + 20) :
    replyMem m ip l4 i = swapAddr (swap16 m (ip + 6)) ip i := by
  unfold replyMem store16
  rw [update_of_ne (by omega), update_of_ne (by omega), update_of_ne (by omega)]

theorem replyMem_offset (hl4 : ip + 20 ≤ l4) :
    replyMem m ip l4 (ip + 6) = m (ip + 7) ∧ replyMem m ip l4 (ip + 7) = m (ip + 6) := by
  rw [replyMem_header hl4 (by omega), replyMem_header hl4 (by omega), swapAddr_of_ne (by omega), swapAddr_of_ne (by omega)]
  simp [swap16]

theorem replyMem_source (hl4 : ip + 20 ≤ l4) (hi : i < 4) : replyMem m ip l4 (ip + 12 + i) = m (ip + 16 + i) := by
  rw [replyMem_header hl4 (by omega), swapAddr, if_pos (by omega), swap16_of_ne (by omega) (by omega)]
  congr 1
  omega

theorem replyMem_dest (hl4 : ip + 20 ≤ l4) (hi : i < 4) : replyMem m ip l4 (ip + 16 + i) = m (ip + 12 + i) := by
  rw [replyMem_header hl4 (by omega), swapAddr, if_neg (by omega), if_pos (by omega), swap16_of_ne (by omega) (by omega)]
  congr 1
  omega

theorem replyMem_type (m : Mem) (ip l4 : ℕ) : replyMem m ip l4 l4 = 0 := by
  unfold replyMem store16
  rw [update_of_ne (by omega), update_of_ne (by omega), update_self]

theorem replyMem_checksum (m : Mem) (ip l4 : ℕ) :
    replyMem m ip l4 (l4 + 2) = (replyChecksum (le16 m (l4 + 2))).toUInt8 ∧
      replyMem m ip l4 (l4 + 3) = (replyChecksum (le16 m (l4 + 2)) >>> 8).toUInt8 := by
  unfold replyMem store16
  constructor
  · rw [update_of_ne (by omega), update_self]
  · exact update_self _ _ _

/-! ### The checksums -/

theorem replyChecksum_toNat (v : UInt16) : (v.toNat < 0xffef ∧ (replyChecksum v).toNat = v.toNat + 8) ∨
    (0xffef ≤ v.toNat ∧ v.toNat < 0xfff7 ∧ (replyChecksum v).toNat = v.toNat + 9) ∨
    (v.toNat = 0xfff7 ∧ (replyChecksum v).toNat = 0) ∨
    (0xfff7 < v.toNat ∧ (replyChecksum v).toNat = v.toNat + 8 - 65536) := by
  have hv := v.toNat_lt
  have hadd : (v + 8).toNat = (v.toNat + 8) % 65536 := UInt16.toNat_add v 8
  have hadd' : (v + 8 + 1).toNat = ((v.toNat + 8) % 65536 + 1) % 65536 := by
    rw [UInt16.toNat_add, hadd]
    rfl
  have hle : (0xfff7 : UInt16) ≤ v + 8 ↔ 0xfff7 ≤ (v + 8).toNat := UInt16.le_iff_toNat_le
  unfold replyChecksum
  dsimp only
  split_ifs with h
  · rw [hle, hadd] at h
    rw [hadd']
    omega
  · rw [hle, hadd] at h
    rw [hadd]
    omega

/-- **A checksum moved** by 8, low byte first, is right for a message that loses 8 first; `x` is its code,
`n` the sum of the rest. -/
theorem checksum_moved {v : UInt16} {x : ℕ}
    (h : (8 * 256 + x + (v.toNat % 256 * 256 + v.toNat / 256 + n)) % 65535 = 0) :
    (x + ((replyChecksum v).toNat % 256 * 256 + (replyChecksum v).toNat / 256 + n)) % 65535 = 0 ∧
        x + ((replyChecksum v).toNat % 256 * 256 + (replyChecksum v).toNat / 256 + n) ≠ 0 ↔
      v.toNat < 0xffef ∨ v.toNat = 0xfff7 ∧ x + n ≠ 0 := by
  have hv := v.toNat_lt
  rcases replyChecksum_toNat v with ⟨h1, h2⟩ | ⟨h1, h1', h2⟩ | ⟨h1, h2⟩ | ⟨h1, h2⟩
  · rw [h2]
    omega
  · rw [h2]
    omega
  · have hold : v.toNat % 256 * 256 + v.toNat / 256 = 63487 := by rw [h1]
    rw [hold] at h
    rw [h2, Nat.zero_mod, Nat.zero_div, Nat.zero_mul, Nat.zero_add]
    constructor
    · rintro ⟨-, hne⟩
      exact .inr ⟨h1, hne⟩
    · rintro (hlt | ⟨-, hne⟩)
      · omega
      · exact ⟨by omega, hne⟩
  · -- the carry that is lost is worth 256
    have hlow : v.toNat % 256 = v.toNat + 8 - 65536 + 248 := by omega
    have hhigh : v.toNat / 256 = 255 := by omega
    have hnew : (v.toNat + 8 - 65536) % 256 = v.toNat + 8 - 65536 ∧ (v.toNat + 8 - 65536) / 256 = 0 := by omega
    rw [hlow, hhigh] at h
    rw [h2, hnew.1, hnew.2]
    refine iff_of_false ?_ ?_
    · rintro ⟨hmod, -⟩
      generalize v.toNat + 8 - 65536 = d at h hmod
      omega
    · rintro (hlt | ⟨heq, -⟩)
      · exact absurd hlt (by omega)
      · exact absurd heq (by omega)

theorem ipChecksum_reply (hl4 : ip + 20 ≤ l4) (hk : 20 ≤ k) (hle : ip + k ≤ l4) (hk' : k ≤ 65535) (hoff : m (ip + 6) = m (ip + 7))
    (h : checksum m ip k = 0xffff) : checksum (replyMem m ip l4) ip k = 0xffff := by
  obtain ⟨j, rfl⟩ : ∃ j, k = 12 + (4 + (4 + j)) := ⟨k - 20, by omega⟩
  rw [checksum_block hk'] at h ⊢
  have hoffset := replyMem_offset (m := m) hl4
  have hfront : block (replyMem m ip l4) ip 12 = block m ip 12 := by
    refine block_congr fun i hi => ?_
    by_cases h6 : i = 6
    · rw [h6, hoffset.1, hoff]
    · by_cases h7 : i = 7
      · rw [h7, hoffset.2, hoff]
      · exact replyMem_of_ne (by omega) (by omega)
  have hsrc : block (replyMem m ip l4) (ip + 12) 4 = block m (ip + 16) 4 := block_congr fun i hi => replyMem_source hl4 hi
  have hdst : block (replyMem m ip l4) (ip + 16) 4 = block m (ip + 12) 4 := block_congr fun i hi => replyMem_dest hl4 hi
  have hopt : block (replyMem m ip l4) (ip + 20) j = block m (ip + 20) j :=
    block_congr fun i hi => replyMem_of_ne (by omega) (by omega)
  have hsum : ∀ m' : Mem, (words (block m' ip (12 + (4 + (4 + j))))).sum =
      (words (block m' ip 12)).sum + ((words (block m' (ip + 12) 4)).sum + ((words (block m' (ip + 16) 4)).sum +
        (words (block m' (ip + 20) j)).sum)) := fun m' => by
    rw [block_add, block_add, block_add, words_append _ _ ⟨6, rfl⟩, words_append _ _ ⟨2, rfl⟩, words_append _ _ ⟨2, rfl⟩,
      sum_append, sum_append, sum_append]
  rw [hsum, hfront, hsrc, hdst, hopt]
  rw [hsum] at h
  omega

theorem words_message (m : Mem) (a n : ℕ) : (words (block m a (4 + n))).sum =
    (m a).toNat * 256 + (m (a + 1)).toNat + ((le16 m (a + 2)).toNat % 256 * 256 + (le16 m (a + 2)).toNat / 256 +
      (words (block m (a + 4) n)).sum) := by
  have h2 := (m (a + 2)).toNat_lt
  rw [block_add, words_append _ _ ⟨2, rfl⟩, sum_append, le16_toNat, show a + 2 + 1 = a + 3 from rfl]
  have hhead : (words (block m a 4)).sum = (m a).toNat * 256 + (m (a + 1)).toNat + ((m (a + 2)).toNat * 256 + (m (a + 3)).toNat) := by
    simp [block, words, range_succ]
  rw [hhead]
  omega

theorem icmpChecksum_reply (hl4 : ip + 20 ≤ l4) (hlong : 4 ≤ k) (hk : k ≤ 65535) (hecho : m l4 = 8) (h : checksum m l4 k = 0xffff) :
    checksum (replyMem m ip l4) l4 k = 0xffff ↔ (le16 m (l4 + 2)).toNat < 0xffef ∨
      (le16 m (l4 + 2)).toNat = 0xfff7 ∧ ∃ i < k, (i = 1 ∨ 4 ≤ i) ∧ m (l4 + i) ≠ 0 := by
  obtain ⟨j, rfl⟩ : ∃ j, k = 4 + j := ⟨k - 4, by omega⟩
  rw [checksum_block hk] at h ⊢
  have hcode : replyMem m ip l4 (l4 + 1) = m (l4 + 1) := replyMem_of_ne (by omega) (by omega)
  have hrest : block (replyMem m ip l4) (l4 + 4) j = block m (l4 + 4) j :=
    block_congr fun i hi => replyMem_of_ne (by omega) (by omega)
  have hck : (le16 (replyMem m ip l4) (l4 + 2)).toNat = (replyChecksum (le16 m (l4 + 2))).toNat := by
    obtain ⟨hlo, hhi⟩ := replyMem_checksum m ip l4
    have hlt := (replyChecksum (le16 m (l4 + 2))).toNat_lt
    rw [le16_toNat, show l4 + 2 + 1 = l4 + 3 from rfl, hlo, hhi, UInt16.toNat_toUInt8, UInt16.toNat_toUInt8, UInt16.toNat_shiftRight,
      show (8 : UInt16).toNat % 16 = 8 from rfl, Nat.shiftRight_eq_div_pow]
    omega
  have hnonzero : (m (l4 + 1)).toNat + (words (block m (l4 + 4) j)).sum ≠ 0 ↔ ∃ i < 4 + j, (i = 1 ∨ 4 ≤ i) ∧ m (l4 + i) ≠ 0 := by
    constructor
    · intro hne
      by_contra hall
      push Not at hall
      have hone := hall 1 (by omega) (.inl rfl)
      have hzero := (words_sum_eq_zero (block m (l4 + 4) j)).mpr fun x hx => by
        obtain ⟨i, hi, rfl⟩ := mem_block.mp hx
        rw [add_assoc]
        exact hall (4 + i) (by omega) (.inr (by omega))
      rw [hone, hzero] at hne
      exact hne rfl
    · rintro ⟨i, hi, hplace, hbyte⟩ hsum
      obtain ⟨hone, hzero⟩ := Nat.add_eq_zero_iff.mp hsum
      rcases hplace with rfl | hge
      · exact hbyte (UInt8.toNat_inj.mp hone)
      · refine hbyte ((words_sum_eq_zero _).mp hzero _ (mem_block.mpr ⟨i - 4, by omega, ?_⟩))
        congr 1
        omega
  rw [words_message, hecho] at h
  rw [words_message, replyMem_type, hcode, hrest, hck, UInt8.toNat_zero, Nat.zero_mul, zero_add, ← hnonzero]
  exact checksum_moved h.1

/-! ### Which requests are answered -/

theorem be16_eq_zero (h : be16 m a &&& 0x3fff = 0) (heq : m a = m (a + 1)) : be16 m a = 0 := by
  have hb := be16_toNat m a
  have hlt := (m (a + 1)).toNat_lt
  have hmod : (be16 m a).toNat % 2 ^ 14 = 0 := by
    rw [← Nat.and_two_pow_sub_one_eq_mod, show 2 ^ 14 - 1 = (0x3fff : UInt16).toNat from rfl, ← UInt16.toNat_and, h]
    rfl
  apply UInt16.toNat_inj.mp
  rw [UInt16.toNat_zero]
  rw [heq] at hb
  omega

theorem be16_bytes (h : be16 m a = 0) : m a = m (a + 1) := by
  have hb := be16_toNat m a
  rw [h, UInt16.toNat_zero] at hb
  apply UInt8.toNat_inj.mp
  omega

/-- **Echo replies** are valid exactly if no flag is set and the checksum's carry comes out right. -/
theorem echo_iff (r : Receiver) (b : RxBuf) (h : EchoRequest r b) :
    (∃ b', ip4Answer r b = some b' ∧ EchoReply b b') ↔ Answerable b := by
  have hmsg : b.off + 20 ≤ message b := Nat.add_le_add_left h.header _
  have hlong := h.long
  have htotal : totalLen b < 65536 := (be16 b.mem (b.off + 2)).toNat_lt
  have hrest : messageLen b = totalLen b - hlen b.mem b.off := rfl
  have hoff : message b = b.off + hlen b.mem b.off := rfl
  have hle : hlen b.mem b.off ≤ totalLen b := h.taken.2.2.1
  have hck := icmpChecksum_reply hmsg (by omega) (by omega) h.echo h.icmpChecksum
  have hlt : le16 b.mem (message b + 2) < 0xffef ↔ (le16 b.mem (message b + 2)).toNat < 0xffef := UInt16.lt_iff_toNat_lt
  have heq : le16 b.mem (message b + 2) = 0xfff7 ↔ (le16 b.mem (message b + 2)).toNat = 0xfff7 := UInt16.toNat_inj.symm
  rw [ip4Answer_request h, Answerable, hlt, heq, ← hck]
  have hswap := replyMem_offset (m := b.mem) hmsg
  constructor
  · rintro ⟨b', hb', hreply⟩
    cases hb'
    have hfield := hreply.fields 6 (by omega) (.inl (by omega))
    refine ⟨be16_eq_zero h.unfragmented ?_, hreply.icmpChecksum⟩
    exact hfield.symm.trans hswap.1
  · rintro ⟨hzero, hicmp⟩
    have hbytes : b.mem (b.off + 6) = b.mem (b.off + 7) := be16_bytes hzero
    refine ⟨_, rfl, rfl, ?_, ?_, ?_, ?_, replyMem_type _ _ _, ?_, ?_, hicmp⟩
    · exact UInt32.toNat_ofNat_of_lt' (htotal.trans (by decide))
    · intro i hi
      exact replyMem_source hmsg hi
    · intro i hi
      exact replyMem_dest hmsg hi
    · intro i hi hplace
      by_cases h6 : i = 6
      · rw [h6]
        exact hswap.1.trans hbytes.symm
      · by_cases h7 : i = 7
        · rw [h7]
          exact hswap.2.trans hbytes
        · exact replyMem_of_ne (by omega) (by omega)
    · intro i hi hplace
      exact replyMem_of_ne (by omega) (by omega)
    · exact ipChecksum_reply hmsg h.header (by omega) (by omega) hbytes h.ipChecksum

/-- A ping from 192.168.0.2, with what is in its offset field and the IP checksum. -/
def ping (hi lo c d : UInt8) : RxBuf where
  mem := fun i => ([0x45, 0, 0, 28, 0, 1, hi, lo, 64, 1, c, d, 192, 168, 0, 2, 192, 168, 0, 1,
    8, 0, 0xf7, 0xfc, 0, 1, 0, 2] : List UInt8).getD i 0
  off := 0
  size := 28

theorem echo_iff_ping : ∃ b', ip4Answer host (ping 0 0 0xf9 0x8c) = some b' ∧ EchoReply (ping 0 0 0xf9 0x8c) b' := by
  have hrequest : EchoRequest host (ping 0 0 0xf9 0x8c) :=
    ⟨by decide +kernel, ⟨.inr (by decide +kernel), by decide +kernel, by decide +kernel, by decide +kernel, .inr (by decide +kernel)⟩,
      by decide, rfl, by decide +kernel, by decide +kernel, rfl, by decide +kernel⟩
  exact (echo_iff host _ hrequest).mpr ⟨by decide +kernel, .inl (by decide +kernel)⟩

/-- With DF, of a ping not to be fragmented, the reply is not valid. -/
theorem ping_df : EchoRequest host (ping 0x40 0 0xb9 0x8c) ∧
    ¬∃ b', ip4Answer host (ping 0x40 0 0xb9 0x8c) = some b' ∧ EchoReply (ping 0x40 0 0xb9 0x8c) b' := by
  have hrequest : EchoRequest host (ping 0x40 0 0xb9 0x8c) :=
    ⟨by decide +kernel, ⟨.inr (by decide +kernel), by decide +kernel, by decide +kernel, by decide +kernel, .inr (by decide +kernel)⟩,
      by decide, rfl, by decide +kernel, by decide +kernel, rfl, by decide +kernel⟩
  refine ⟨hrequest, ?_⟩
  rintro ⟨b', hb', hreply⟩
  rw [ip4Answer_request hrequest] at hb'
  cases hb'
  have hfield := hreply.fields 6 (by decide) (.inl (by decide))
  revert hfield
  decide +kernel

end Icmp
end Vsf
