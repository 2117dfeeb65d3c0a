/-
# The DHCP server

`vsfip_dhcpd.c` gives each client the next address: a counter is added to the host part of the
server's address, and the sum is an address as long as it has no bit under the netmask. The last one
can be the broadcast address; as long as it is not, no two clients have the same (`assigned_sound`).
-/
import Mathlib
import Vsf.Lib.ByteOrder
import Vsf.Lib.System

namespace Vsf

open ByteOrder List Option

/-- `struct vsfip_ipmac_assoc`; the size of `mac` is its length, 0 if not given out. -/
structure Assoc where
  mac : List UInt8
  ip : UInt32
deriving DecidableEq

/-- `struct vsfip_dhcpd_t`, the hardware address's size, and the interface, as they are sent. -/
structure Dhcpd where
  macsize : ℕ
  macsize_pos : 0 < macsize
  macsize_le : macsize ≤ 16
  ipaddr : UInt32
  netmask : UInt32
  assoc : List Assoc
  allocIdx : UInt32

/-- A message to the server's port: if it came at its interface, the fields looked at, and each option's
data. -/
structure DhcpMsg where
  netif : Bool
  op : UInt8
  htype : UInt8
  hlen : UInt8
  magic : UInt32
  chaddr : List UInt8
  chaddr_length : chaddr.length = 16
  getOpt : UInt8 → List UInt8

/-- What the server writes into the message it sends back. -/
structure DhcpReply where
  op : UInt8
  yiaddr : UInt32
  siaddr : UInt32
  options : List (UInt8 × List UInt8)

/-- `DHCP_MAGIC`. -/
def dhcpMagic : UInt32 := 0x63825363

/-- `enum dhcp_msg_t`, as far as the server knows it. -/
def dhcpDiscover : UInt8 := 1
def dhcpOffer : UInt8 := 2
def dhcpRequest : UInt8 := 3
def dhcpAck : UInt8 := 5
def dhcpNak : UInt8 := 6

/-- The bytes of an address, the low one first. -/
def sAddrBuf (a : UInt32) : List UInt8 := [a.toUInt8, (a >>> 8).toUInt8, (a >>> 16).toUInt8, (a >>> 24).toUInt8]

/-- The loop of `vsfip_dhcpd_get_assoc` from `i`: the client's entry, or the first free one. -/
def assocLoop (key : List UInt8) : ℕ → Option ℕ → List Assoc → ℕ ⊕ Option ℕ
  | _, free, [] => .inr free
  | i, free, a :: as =>
    if a.mac.length = key.length then
      if a.mac = key then .inl i else assocLoop key (i + 1) free as
    else assocLoop key (i + 1) (if free = none then some i else free) as

namespace Dhcpd

variable (d : Dhcpd)

/-- The part of `chaddr` that is compared. -/
def key (hwaddr : List UInt8) : List UInt8 := hwaddr.take d.macsize

/-- The next address, without the part under the netmask. -/
def nextAddr : UInt32 := swapU32 (swapU32 (d.ipaddr &&& ~~~d.netmask) + d.allocIdx)

/-- `vsfip_dhcpd_get_assoc`. -/
def getAssoc (hwaddr : List UInt8) : Option Assoc × Dhcpd :=
  match assocLoop (d.key hwaddr) 0 none d.assoc with
  | .inl i => (d.assoc[i]?, d)
  | .inr none => (none, d)
  | .inr (some i) =>
    if d.nextAddr &&& d.netmask ≠ 0 then (none, d)
    else
      let assoc : Assoc := ⟨d.key hwaddr, d.nextAddr ||| (d.netmask &&& d.ipaddr)⟩
      (some assoc, { d with assoc := d.assoc.set i assoc, allocIdx := d.allocIdx + 1 })

/-- `common_reply` of `vsfip_dhcpd_input`, without the names a build sets. -/
def commonReply (op : UInt8) (assoc : Assoc) : DhcpReply where
  op := op
  yiaddr := assoc.ip
  siaddr := d.ipaddr
  options := [(53, [op]), (54, sAddrBuf d.ipaddr), (51, [0x80, 0, 0, 0]), (1, sAddrBuf d.netmask),
    (3, sAddrBuf d.ipaddr), (6, sAddrBuf d.ipaddr)]

/-- The checks in front of the `switch`. -/
def Passes (m : DhcpMsg) : Prop :=
  m.netif ∧ m.op = 1 ∧ m.magic = swapU32 dhcpMagic ∧ m.htype = 1 ∧ m.hlen = 6 ∧ (m.getOpt 53).length = 1

instance (m : DhcpMsg) : Decidable (Passes m) := inferInstanceAs (Decidable (_ ∧ _))

/-- `vsfip_dhcpd_input`; no reply when the buffer is released. -/
def input (m : DhcpMsg) : Option DhcpReply × Dhcpd :=
  if Passes m then
    if m.getOpt 53 = [dhcpDiscover] then
      match d.getAssoc m.chaddr with
      | (none, d) => (none, d)
      | (some assoc, d) => (some (d.commonReply dhcpOffer assoc), d)
    else if m.getOpt 53 = [dhcpRequest] then
      match d.getAssoc m.chaddr with
      | (none, d) => (none, d)
      | (some assoc, d) =>
        let reqip := m.getOpt 50
        (some (d.commonReply (if reqip.length = 4 ∧ reqip ≠ sAddrBuf assoc.ip then dhcpNak else dhcpAck) assoc), d)
    else (none, d)
  else (none, d)

/-! ### Runs -/

/-- The netmask has its bits on the left, some; and the server is a host of its subnet. -/
structure Placed : Prop where
  contiguous : ∃ h, h < 32 ∧ swapU32 d.netmask = ~~~UInt32.ofNat (2 ^ h - 1)
  network : d.ipaddr &&& ~~~d.netmask ≠ 0
  broadcast : d.ipaddr &&& ~~~d.netmask ≠ ~~~d.netmask

/-- After `vsfip_dhcpd_start`. -/
structure Start : Prop extends Placed d where
  assoc : ∀ a ∈ d.assoc, a.mac = []
  allocIdx : d.allocIdx = 1

/-- Messages, in any order. -/
def messages : System Dhcpd DhcpMsg where
  start := Start
  step d m d' := d' = (d.input m).2

/-- The entries that were given out. -/
def given : List Assoc := d.assoc.filter fun a => a.mac.length = d.macsize

/-- An address for a client: of the subnet, not the server's, the network's or broadcast. -/
structure Usable (ip : UInt32) : Prop where
  subnet : ip &&& d.netmask = d.ipaddr &&& d.netmask
  server : ip ≠ d.ipaddr
  network : ip ≠ d.ipaddr &&& d.netmask
  broadcast : ip ≠ (d.ipaddr &&& d.netmask) ||| ~~~d.netmask

/-- The table maps distinct clients to distinct addresses that can be used. -/
structure Sound : Prop where
  macs : (d.given.map Assoc.mac).Nodup
  ips : (d.given.map Assoc.ip).Nodup
  usable : ∀ a ∈ d.given, d.Usable a.ip

/-- The message asks for an address. -/
def Asks (m : DhcpMsg) : Prop := Passes m ∧ (m.getOpt 53 = [dhcpDiscover] ∨ m.getOpt 53 = [dhcpRequest])

/-- A client the table does not know, with an entry left for it. -/
def Fresh (hwaddr : List UInt8) : Prop :=
  (∀ a ∈ d.assoc, a.mac ≠ d.key hwaddr) ∧ ∃ a ∈ d.assoc, a.mac.length ≠ d.macsize

/-- An entry is not filled while the next address is the last of the subnet. -/
def NotLast (m : DhcpMsg) : Prop :=
  Asks m → d.Fresh m.chaddr → swapU32 (d.ipaddr &&& ~~~d.netmask) + d.allocIdx ≠ swapU32 (~~~d.netmask)

variable {d : Dhcpd} {d' : Dhcpd} {m : DhcpMsg} {hwaddr : List UInt8}

/-! ### The entry that is chosen -/

/-- The client's entry; or without one the first not given out, if any. -/
inductive Chosen (key : List UInt8) (i : ℕ) (as : List Assoc) : ℕ ⊕ Option ℕ → Prop
  | known {xs ys : List Assoc} {a : Assoc} : as = xs ++ a :: ys → a.mac = key → Chosen key i as (.inl (i + xs.length))
  | free {xs ys : List Assoc} {a : Assoc} : (∀ b ∈ as, b.mac ≠ key) → as = xs ++ a :: ys →
      a.mac.length ≠ key.length → Chosen key i as (.inr (some (i + xs.length)))
  | full : (∀ b ∈ as, b.mac ≠ key) → (∀ b ∈ as, b.mac.length = key.length) → Chosen key i as (.inr none)

/-- With an entry remembered, the loop only looks for the client. -/
theorem assocLoop_some (key : List UInt8) (n : ℕ) : ∀ (as : List Assoc) (i : ℕ),
    (∃ xs a ys, as = xs ++ a :: ys ∧ a.mac = key ∧ assocLoop key i (some n) as = .inl (i + xs.length)) ∨
      (∀ b ∈ as, b.mac ≠ key) ∧ assocLoop key i (some n) as = .inr (some n)
  | [], i => .inr ⟨by simp, rfl⟩
  | a :: as, i => by
    have ih := assocLoop_some key n as (i + 1)
    have hstep : a.mac ≠ key → assocLoop key i (some n) (a :: as) = assocLoop key (i + 1) (some n) as := fun hne => by
      rw [assocLoop]
      by_cases hlen : a.mac.length = key.length
      · rw [if_pos hlen, if_neg hne]
      · rw [if_neg hlen, if_neg (some_ne_none n)]
    by_cases ha : a.mac = key
    · exact .inl ⟨[], a, as, rfl, ha, by rw [assocLoop, if_pos (by rw [ha]), if_pos ha]; rfl⟩
    · rw [hstep ha]
      rcases ih with ⟨xs, b, ys, has, hb, hl⟩ | ⟨hall, hl⟩
      · exact .inl ⟨a :: xs, b, ys, by rw [has]; rfl, hb, by rw [hl, length_cons]; congr 1; omega⟩
      · exact .inr ⟨by simpa [ha] using hall, hl⟩

/-- **The loop of `vsfip_dhcpd_get_assoc`.** -/
theorem assocLoop_spec (key : List UInt8) : ∀ (as : List Assoc) (i : ℕ), Chosen key i as (assocLoop key i none as)
  | [], i => .full (by simp) (by simp)
  | a :: as, i => by
    by_cases hlen : a.mac.length = key.length
    · by_cases ha : a.mac = key
      · rw [assocLoop, if_pos hlen, if_pos ha]
        have hk : Chosen key i (a :: as) (.inl (i + ([] : List Assoc).length)) := .known rfl ha
        exact hk
      · rw [assocLoop, if_pos hlen, if_neg ha]
        have ih := assocLoop_spec key as (i + 1)
        generalize assocLoop key (i + 1) none as = r at ih
        have hcons : ∀ xs : List Assoc, i + 1 + xs.length = i + (a :: xs).length := fun xs => by
          rw [length_cons]
          omega
        cases ih with
        | known has hb => rw [hcons]; exact .known (by rw [has]; rfl) hb
        | free hall has hb => rw [hcons]; exact .free (by simpa [ha] using hall) (by rw [has]; rfl) hb
        | full hall hlens => exact .full (by simpa [ha] using hall) (by simpa [hlen] using hlens)
    · have hne : a.mac ≠ key := fun he => hlen (by rw [he])
      rw [assocLoop, if_neg hlen, if_pos rfl]
      rcases assocLoop_some key i as (i + 1) with ⟨xs, b, ys, has, hb, hl⟩ | ⟨hall, hl⟩
      · have hcons : i + 1 + xs.length = i + (a :: xs).length := by
          rw [length_cons]
          omega
        rw [hl, hcons]
        exact .known (by rw [has]; rfl) hb
      · rw [hl]
        have hf : Chosen key i (a :: as) (.inr (some (i + ([] : List Assoc).length))) :=
          .free (by simpa [hne] using hall) rfl hlen
        exact hf

/-! ### Host numbers -/

/-- The host part of an address, as a number. -/
def hostNo (d : Dhcpd) (ip : UInt32) : ℕ := (swapU32 (ip &&& ~~~d.netmask)).toNat

theorem eq_of_hostNo {ip ip' : UInt32} (h : ip &&& d.netmask = ip' &&& d.netmask) (hh : d.hostNo ip = d.hostNo ip') :
    ip = ip' := by
  have hswap : ip &&& ~~~d.netmask = ip' &&& ~~~d.netmask := by
    rw [← swapU32_swapU32 (ip &&& ~~~d.netmask), UInt32.toNat_inj.mp hh, swapU32_swapU32]
  rw [← split_mask ip d.netmask, ← split_mask ip' d.netmask, hswap, UInt32.and_comm d.netmask, h, UInt32.and_comm d.netmask]

theorem hostNo_network : d.hostNo (d.ipaddr &&& d.netmask) = 0 := by
  unfold hostNo
  rw [UInt32.and_assoc, UInt32.and_not_self, UInt32.and_zero]
  rfl

/-- `2 ^ h` host numbers, the server's among them, and the next one not above. -/
structure Range (d : Dhcpd) (h : ℕ) : Prop where
  lt : h < 32
  mask : swapU32 d.netmask = ~~~UInt32.ofNat (2 ^ h - 1)
  pos : 0 < d.hostNo d.ipaddr
  last : d.hostNo d.ipaddr < 2 ^ h - 1
  idx_pos : 0 < d.allocIdx.toNat
  idx_le : d.hostNo d.ipaddr + d.allocIdx.toNat ≤ 2 ^ h

variable {h : ℕ}

theorem Range.two_pow_lt (hr : Range d h) : 2 ^ h < 2 ^ 32 := Nat.pow_lt_pow_right (by decide) hr.lt

theorem Range.sum (hr : Range d h) :
    (swapU32 (d.ipaddr &&& ~~~d.netmask) + d.allocIdx).toNat = d.hostNo d.ipaddr + d.allocIdx.toNat := by
  have hle := hr.idx_le
  have hlt := hr.two_pow_lt
  rw [UInt32.toNat_add]
  exact Nat.mod_eq_of_lt (by unfold hostNo at hle; omega)

/-- **There is a next address** just if its host number is one of the subnet. -/
theorem Range.nextAddr_and (hr : Range d h) :
    d.nextAddr &&& d.netmask = 0 ↔ d.hostNo d.ipaddr + d.allocIdx.toNat < 2 ^ h := by
  rw [← swapU32_eq_zero, swapU32_and, nextAddr, swapU32_swapU32, hr.mask, and_high_eq_zero _ hr.lt, hr.sum]

theorem Range.hostNo_next (hr : Range d h) (h0 : d.nextAddr &&& d.netmask = 0) :
    d.hostNo (d.nextAddr ||| (d.netmask &&& d.ipaddr)) = d.hostNo d.ipaddr + d.allocIdx.toNat := by
  unfold hostNo at *
  rw [or_and_not_mask h0, nextAddr, swapU32_swapU32, hr.sum]
  rfl

theorem Range.hostNo_broadcast (hr : Range d h) :
    d.hostNo ((d.ipaddr &&& d.netmask) ||| ~~~d.netmask) = 2 ^ h - 1 := by
  have hor : (d.ipaddr &&& d.netmask) ||| ~~~d.netmask = ~~~d.netmask ||| (d.netmask &&& d.ipaddr) := by
    rw [UInt32.or_comm, UInt32.and_comm]
  have h0 : ~~~d.netmask &&& d.netmask = 0 := by rw [UInt32.and_comm, UInt32.and_not_self]
  have hlt := hr.two_pow_lt
  unfold hostNo
  rw [hor, or_and_not_mask h0, swapU32_not, hr.mask, UInt32.not_not]
  exact UInt32.toNat_ofNat_of_lt' (by rw [UInt32.size]; omega)

theorem subnet_broadcast : ((d.ipaddr &&& d.netmask) ||| ~~~d.netmask) &&& d.netmask = d.ipaddr &&& d.netmask := by
  have h0 : ~~~d.netmask &&& d.netmask = 0 := by rw [UInt32.and_comm, UInt32.and_not_self]
  rw [UInt32.or_comm, UInt32.and_comm d.ipaddr, or_and_mask h0, UInt32.and_comm]

theorem Range.usable_iff (hr : Range d h) {ip : UInt32} (hs : ip &&& d.netmask = d.ipaddr &&& d.netmask)
    (hlt : d.hostNo d.ipaddr < d.hostNo ip) : d.Usable ip ↔ d.hostNo ip ≠ 2 ^ h - 1 := by
  constructor
  · intro hu he
    refine hu.broadcast (eq_of_hostNo ?_ (by rw [he, hr.hostNo_broadcast]))
    rw [hs, subnet_broadcast]
  · intro hne
    refine ⟨hs, ?_, ?_, ?_⟩
    · rintro rfl
      exact lt_irrefl _ hlt
    · rintro rfl
      rw [hostNo_network] at hlt
      omega
    · rintro rfl
      exact hne hr.hostNo_broadcast

/-! ### The table -/

/-- The table is sound, and the addresses given out are those before the
counter. -/
structure Inv (d : Dhcpd) (h : ℕ) : Prop extends Range d h, Sound d where
  before : ∀ a ∈ d.given, d.hostNo d.ipaddr < d.hostNo a.ip ∧ d.hostNo a.ip < d.hostNo d.ipaddr + d.allocIdx.toNat

theorem Start.inv (hs : Start d) : ∃ h, Inv d h := by
  obtain ⟨h, hlt, hmask⟩ := hs.contiguous
  have hpow : 2 ^ h < 2 ^ 32 := Nat.pow_lt_pow_right (by decide) hlt
  have hgiven : d.given = [] := filter_eq_nil_iff.mpr fun a ha => by
    rw [hs.assoc a ha]
    simpa using (ne_of_gt d.macsize_pos).symm
  have hnot : swapU32 (~~~d.netmask) = UInt32.ofNat (2 ^ h - 1) := by rw [swapU32_not, hmask, UInt32.not_not]
  have hlow : d.hostNo d.ipaddr = (swapU32 d.ipaddr).toNat % 2 ^ h := by
    unfold hostNo
    rw [swapU32_and, hnot, and_low _ hlt]
  have hpos : 0 < d.hostNo d.ipaddr := by
    refine pos_of_ne_zero fun h0 => hs.network ?_
    exact swapU32_eq_zero.mp (UInt32.toNat_inj.mp h0)
  have hlast : d.hostNo d.ipaddr ≠ 2 ^ h - 1 := by
    intro he
    have hval : (UInt32.ofNat (2 ^ h - 1)).toNat = 2 ^ h - 1 := UInt32.toNat_ofNat_of_lt' (by rw [UInt32.size]; omega)
    have hswap : swapU32 (d.ipaddr &&& ~~~d.netmask) = UInt32.ofNat (2 ^ h - 1) := UInt32.toNat_inj.mp (he.trans hval.symm)
    refine hs.broadcast ?_
    rw [← swapU32_swapU32 (d.ipaddr &&& ~~~d.netmask), hswap, ← hnot, swapU32_swapU32]
  have hidx : d.allocIdx.toNat = 1 := by rw [hs.allocIdx]; rfl
  refine ⟨h, ⟨hlt, hmask, hpos, by omega, by omega, by omega⟩, ?_, ?_⟩
  · refine ⟨?_, ?_, ?_⟩ <;> rw [hgiven] <;> simp
  · rw [hgiven]
    simp

theorem given_set {xs ys : List Assoc} {a new : Assoc} (hxs : d.assoc = xs ++ a :: ys) (ha : a.mac.length ≠ d.macsize)
    (hnew : new.mac.length = d.macsize) :
    ((d.assoc.set xs.length new).filter fun b => b.mac.length = d.macsize).Perm (new :: d.given) := by
  unfold given
  rw [hxs, set_append_right _ _ (Nat.le_refl _), Nat.sub_self, set_cons_zero, filter_append,
    filter_append, filter_cons_of_pos (by simpa using hnew), filter_cons_of_neg (by simpa using ha)]
  exact perm_middle

theorem key_length (m : DhcpMsg) : (d.key m.chaddr).length = d.macsize := by
  unfold key
  rw [length_take, m.chaddr_length]
  exact min_eq_left d.macsize_le

/-- The server after it gave the next address to a client. -/
def give (d : Dhcpd) (n : ℕ) (hwaddr : List UInt8) : Dhcpd :=
  { d with
    assoc := d.assoc.set n ⟨d.key hwaddr, d.nextAddr ||| (d.netmask &&& d.ipaddr)⟩
    allocIdx := d.allocIdx + 1 }

/-- What `vsfip_dhcpd_get_assoc` does: the client is known, or there is nothing left, or it gets the next
address. -/
inductive Assigned (d : Dhcpd) (m : DhcpMsg) : Option Assoc × Dhcpd → Prop
  | known {a : Assoc} : a ∈ d.given → a.mac = d.key m.chaddr → Assigned d m (some a, d)
  | full : (∀ a ∈ d.assoc, a.mac ≠ d.key m.chaddr) → (∀ a ∈ d.assoc, a.mac.length = d.macsize) → Assigned d m (none, d)
  | exhausted : d.Fresh m.chaddr → d.nextAddr &&& d.netmask ≠ 0 → Assigned d m (none, d)
  | given {n : ℕ} : d.Fresh m.chaddr → d.nextAddr &&& d.netmask = 0 →
      (d.give n m.chaddr).given.Perm (⟨d.key m.chaddr, d.nextAddr ||| (d.netmask &&& d.ipaddr)⟩ :: d.given) →
      Assigned d m (some ⟨d.key m.chaddr, d.nextAddr ||| (d.netmask &&& d.ipaddr)⟩, d.give n m.chaddr)

/-- **`vsfip_dhcpd_get_assoc`.** -/
theorem getAssoc_spec (d : Dhcpd) (m : DhcpMsg) : Assigned d m (d.getAssoc m.chaddr) := by
  have hkey := key_length (d := d) m
  have hs := assocLoop_spec (d.key m.chaddr) d.assoc 0
  unfold getAssoc
  generalize assocLoop (d.key m.chaddr) 0 none d.assoc = r at hs
  cases hs with
  | @known xs ys a hxs ha =>
    have hget : d.assoc[0 + xs.length]? = some a := by
      rw [hxs, Nat.zero_add, getElem?_append_right (Nat.le_refl _), Nat.sub_self]
      rfl
    dsimp only
    rw [hget]
    refine .known (mem_filter.mpr ⟨?_, ?_⟩) ha
    · rw [hxs]
      exact mem_append_right _ mem_cons_self
    · rw [ha, hkey]
      exact decide_eq_true rfl
  | full hall hlens => exact .full hall fun a ha => (hlens a ha).trans hkey
  | @free xs ys a hall hxs ha =>
    have hfresh : d.Fresh m.chaddr := by
      refine ⟨hall, a, ?_, hkey ▸ ha⟩
      rw [hxs]
      exact mem_append_right _ mem_cons_self
    dsimp only
    rw [zero_add]
    by_cases h0 : d.nextAddr &&& d.netmask = 0
    · rw [if_neg (not_not_intro h0)]
      exact .given hfresh h0 (given_set hxs (hkey ▸ ha) hkey)
    · rw [if_pos h0]
      exact .exhausted hfresh h0

/-- **A client is given the next address**, and the table stays sound unless that is broadcast. -/
theorem Inv.give {n : ℕ} (hi : Inv d h) (hf : d.Fresh m.chaddr) (h0 : d.nextAddr &&& d.netmask = 0)
    (hperm : (d.give n m.chaddr).given.Perm (⟨d.key m.chaddr, d.nextAddr ||| (d.netmask &&& d.ipaddr)⟩ :: d.given)) :
    (d.hostNo d.ipaddr + d.allocIdx.toNat ≠ 2 ^ h - 1 → Inv (d.give n m.chaddr) h) ∧
      ((d.give n m.chaddr).Sound → d.hostNo d.ipaddr + d.allocIdx.toNat ≠ 2 ^ h - 1) := by
  set new : Assoc := ⟨d.key m.chaddr, d.nextAddr ||| (d.netmask &&& d.ipaddr)⟩ with hnew
  have hno : d.hostNo new.ip = d.hostNo d.ipaddr + d.allocIdx.toNat := hi.hostNo_next h0
  have hsub : new.ip &&& d.netmask = d.ipaddr &&& d.netmask := or_and_mask h0
  have hlt := hi.nextAddr_and.mp h0
  have hidx := hi.idx_pos
  have huse := hi.usable_iff hsub (by rw [hno]; omega)
  rw [hno] at huse
  have hnext : (d.allocIdx + 1).toNat = d.allocIdx.toNat + 1 := by
    have := hi.two_pow_lt
    rw [UInt32.toNat_add]
    exact Nat.mod_eq_of_lt (by simp only [UInt32.reduceToNat]; omega)
  constructor
  · intro hne
    refine ⟨⟨hi.lt, hi.mask, hi.pos, hi.last, ?_, ?_⟩, ⟨?_, ?_, fun a ha => ?_⟩, fun a ha => ?_⟩
    · show 0 < (d.allocIdx + 1).toNat
      omega
    · show d.hostNo d.ipaddr + (d.allocIdx + 1).toNat ≤ 2 ^ h
      omega
    · rw [(hperm.map _).nodup_iff, map_cons, nodup_cons]
      refine ⟨fun hm => ?_, hi.macs⟩
      obtain ⟨a, ha, he⟩ := List.mem_map.mp hm
      exact hf.1 a (mem_filter.mp ha).1 he
    · rw [(hperm.map _).nodup_iff, map_cons, nodup_cons]
      refine ⟨fun hm => ?_, hi.ips⟩
      obtain ⟨a, ha, he⟩ := List.mem_map.mp hm
      have := (hi.before a ha).2
      rw [he, hno] at this
      exact lt_irrefl _ this
    · rcases mem_cons.mp (hperm.mem_iff.mp ha) with rfl | ha
      · obtain ⟨h1, h2, h3, h4⟩ := huse.mpr hne
        exact ⟨h1, h2, h3, h4⟩
      · obtain ⟨h1, h2, h3, h4⟩ := hi.usable a ha
        exact ⟨h1, h2, h3, h4⟩
    · show d.hostNo d.ipaddr < d.hostNo a.ip ∧ d.hostNo a.ip < d.hostNo d.ipaddr + (d.allocIdx + 1).toNat
      rcases mem_cons.mp (hperm.mem_iff.mp ha) with rfl | ha
      · omega
      · have := hi.before a ha
        omega
  · intro hs
    refine huse.mp ?_
    obtain ⟨h1, h2, h3, h4⟩ := hs.usable new (hperm.mem_iff.mpr mem_cons_self)
    exact ⟨h1, h2, h3, h4⟩

theorem Range.last_iff (hr : Range d h) :
    swapU32 (d.ipaddr &&& ~~~d.netmask) + d.allocIdx ≠ swapU32 (~~~d.netmask) ↔
      d.hostNo d.ipaddr + d.allocIdx.toNat ≠ 2 ^ h - 1 := by
  have hlt := hr.two_pow_lt
  have hval : (UInt32.ofNat (2 ^ h - 1)).toNat = 2 ^ h - 1 := UInt32.toNat_ofNat_of_lt' (by rw [UInt32.size]; omega)
  rw [swapU32_not, hr.mask, UInt32.not_not, ne_eq, ← UInt32.toNat_inj, hr.sum, hval]

theorem input_asks (d : Dhcpd) (ha : Asks m) : (d.input m).2 = (d.getAssoc m.chaddr).2 ∧
    (d.input m).1.map DhcpReply.yiaddr = (d.getAssoc m.chaddr).1.map Assoc.ip := by
  unfold input
  rw [if_pos ha.1]
  rcases hg : d.getAssoc m.chaddr with ⟨_ | a, d'⟩
  · split_ifs with h1 h2
    · exact ⟨rfl, rfl⟩
    · exact ⟨rfl, rfl⟩
    · exact absurd ha.2 (not_or.mpr ⟨h1, h2⟩)
  · split_ifs with h1 h2
    · exact ⟨rfl, rfl⟩
    · exact ⟨rfl, rfl⟩
    · exact absurd ha.2 (not_or.mpr ⟨h1, h2⟩)

theorem input_other (d : Dhcpd) (ha : ¬ Asks m) : d.input m = (none, d) := by
  unfold input
  split_ifs with h1 h2 h3
  · exact absurd ⟨h1, .inl h2⟩ ha
  · exact absurd ⟨h1, .inr h3⟩ ha
  · rfl
  · rfl

/-- **One message.** -/
theorem Inv.input (hi : Inv d h) (m : DhcpMsg) :
    (d.NotLast m → Inv (d.input m).2 h) ∧ ((d.input m).2.Sound → d.NotLast m) := by
  by_cases ha : Asks m
  swap
  · rw [input_other d ha]
    exact ⟨fun _ => hi, fun _ ha' => absurd ha' ha⟩
  rw [(input_asks d ha).1]
  have hs := getAssoc_spec d m
  generalize d.getAssoc m.chaddr = r at hs
  cases hs with
  | @known a hmem hmac =>
    exact ⟨fun _ => hi, fun _ _ hf => absurd hmac (hf.1 a (mem_filter.mp hmem).1)⟩
  | full hall hlens =>
    refine ⟨fun _ => hi, fun _ _ hf => ?_⟩
    obtain ⟨a, hmem, hlen⟩ := hf.2
    exact absurd (hlens a hmem) hlen
  | exhausted hf h0 =>
    refine ⟨fun _ => hi, fun _ _ _ => hi.last_iff.mpr fun he => h0 (hi.nextAddr_and.mpr ?_)⟩
    have := Nat.two_pow_pos h
    omega
  | given hf h0 hperm =>
    obtain ⟨h1, h2⟩ := hi.give hf h0 hperm
    exact ⟨fun hn => h1 (hi.last_iff.mp (hn ha hf)), fun hs _ _ => hi.last_iff.mpr (h2 hs)⟩

theorem reach_inv (h : (messages.restrict NotLast).Reach d) : ∃ n, Inv d n := by
  refine h.invariant (fun _ hs => hs.inv) fun d m d' _ hi hs => ?_
  obtain ⟨n, hi⟩ := hi
  obtain ⟨hn, rfl⟩ := hs
  exact ⟨n, (hi.input m).1 hn⟩

/-- **The table is sound in every run that never gives out the last address**; a message keeps what was
given out, its reply is its client's, and the table stays sound exactly if it is not given that one. -/
theorem assigned_sound (h : (messages.restrict NotLast).Reach d) :
    d.Sound ∧ ∀ m, (∀ a ∈ d.given, a ∈ (d.input m).2.given) ∧
      (∀ r, (d.input m).1 = some r → ⟨d.key m.chaddr, r.yiaddr⟩ ∈ (d.input m).2.given) ∧
      ((d.input m).1 = none → (d.input m).2 = d) ∧
      ((∀ a ∈ d.given, a.mac ≠ d.key m.chaddr) →
        (∀ a ∈ d.assoc, a.mac.length = d.macsize) ∨ d.nextAddr &&& d.netmask ≠ 0 → d.input m = (none, d)) ∧
      ((d.input m).2.Sound ↔ d.NotLast m) := by
  obtain ⟨n, hi⟩ := reach_inv h
  refine ⟨hi.toSound, fun m => ?_⟩
  obtain ⟨hkeep, hlose⟩ := hi.input m
  by_cases ha : Asks m
  swap
  · rw [input_other d ha] at hkeep hlose ⊢
    refine ⟨fun _ hm => hm, fun r hr => ?_, fun _ => rfl, fun _ _ => rfl, hlose, fun hn => (hkeep hn).toSound⟩
    cases hr
  obtain ⟨h2, h1⟩ := input_asks d ha
  have hpair : ∀ o, d.getAssoc m.chaddr = (none, o) → d.input m = (none, o) := fun o ho => by
    rw [ho] at h1 h2
    exact Prod.ext (map_eq_none_iff.mp h1) h2
  have hs := getAssoc_spec d m
  refine ⟨?_, fun r hr => ?_, fun hnone => ?_, fun hnew hleft => ?_, hlose, fun hn => (hkeep hn).toSound⟩
  · rw [h2]
    generalize d.getAssoc m.chaddr = o at hs
    cases hs with
    | given hf h0 hperm => exact fun a hm => hperm.mem_iff.mpr (mem_cons_of_mem _ hm)
    | _ => exact fun a hm => hm
  · rw [hr] at h1
    rw [h2]
    generalize d.getAssoc m.chaddr = o at hs h1
    cases hs with
    | @known a hmem hmac =>
      have hip : r.yiaddr = a.ip := some.inj h1
      rw [hip, ← hmac]
      exact hmem
    | given hf h0 hperm =>
      have hip : r.yiaddr = d.nextAddr ||| (d.netmask &&& d.ipaddr) := some.inj h1
      rw [hip]
      exact hperm.mem_iff.mpr mem_cons_self
    | full | exhausted => cases h1
  · rw [hnone] at h1
    rw [h2]
    generalize d.getAssoc m.chaddr = o at hs h1
    cases hs with
    | known | given => cases h1
    | full | exhausted => rfl
  · refine hpair d ?_
    generalize d.getAssoc m.chaddr = o at hs
    cases hs with
    | @known a hmem hmac => exact absurd hmac (hnew a hmem)
    | given hf h0 _ =>
      rcases hleft with hfull | hnone
      · obtain ⟨a, hmem, hlen⟩ := hf.2
        exact absurd (hfull a hmem) hlen
      · exact absurd h0 hnone
    | full | exhausted => rfl

/-! ### Runs -/

/-- A server with room for two clients. -/
def server (ipaddr : UInt32) : Dhcpd where
  macsize := 6
  macsize_pos := Nat.succ_pos 5
  macsize_le := Nat.le_add_right 6 10
  ipaddr := ipaddr
  netmask := 0x00ffffff
  assoc := [⟨[], 0⟩, ⟨[], 0⟩]
  allocIdx := 1

theorem server_start {ipaddr : UInt32} (h0 : ipaddr &&& ~~~0x00ffffff ≠ 0) (h1 : ipaddr &&& ~~~0x00ffffff ≠ ~~~0x00ffffff) :
    Start (server ipaddr) :=
  ⟨⟨⟨8, by decide, (by decide : swapU32 0x00ffffff = ~~~UInt32.ofNat (2 ^ 8 - 1))⟩, h0, h1⟩, by simp [server], rfl⟩

/-- The DISCOVER of a client. -/
def discover : DhcpMsg where
  netif := true
  op := 1
  htype := 1
  hlen := 6
  magic := swapU32 dhcpMagic
  chaddr := [2, 0, 0, 0, 0, 7, 0, 0, 0, 0, 0, 0, 0, 0, 0, 0]
  chaddr_length := rfl
  getOpt := fun o => if o = 53 then [1] else []

/-- The client of 192.168.0.1 is given 192.168.0.2. -/
theorem assigned_sound_discover : ((server 0x0100a8c0).input discover).2.given = [⟨[2, 0, 0, 0, 0, 7], 0x0200a8c0⟩] ∧
    ((server 0x0100a8c0).input discover).2.Sound := by
  have h : (messages.restrict NotLast).Reach ((server 0x0100a8c0).input discover).2 :=
    (System.Reach.start (server_start (by decide) (by decide))).step (i := discover) ⟨fun _ _ => by decide, rfl⟩
  exact ⟨by decide, (assigned_sound h).1⟩

/-- **The client of 192.168.0.254 is given 192.168.0.255.** -/
theorem broadcast_given : ∃ d, messages.Reach d ∧ d.given = [⟨[2, 0, 0, 0, 0, 7], 0xff00a8c0⟩] ∧
    (d.ipaddr &&& d.netmask) ||| ~~~d.netmask = 0xff00a8c0 ∧ ¬ d.Sound := by
  have h : messages.Reach ((server 0xfe00a8c0).input discover).2 :=
    (System.Reach.start (server_start (by decide) (by decide))).step (i := discover) rfl
  have hgiven : ((server 0xfe00a8c0).input discover).2.given = [⟨[2, 0, 0, 0, 0, 7], 0xff00a8c0⟩] := by decide
  refine ⟨_, h, hgiven, by decide, fun hs => ?_⟩
  exact (hs.usable _ (by rw [hgiven]; exact mem_singleton_self _)).broadcast (by decide)

end Dhcpd
end Vsf
