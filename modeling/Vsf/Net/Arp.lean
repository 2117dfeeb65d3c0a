/-
# The ARP cache

`vsfip_netif_arp_input` answers a request for its own address in the buffer it came in, and puts a
reply into the cache, an array of entries with the time they were written, 0 for an empty one. As
long as `arp_time` does not come around to 0, it is a bounded map that forgets the oldest
(`cache_follows`).
-/
import Mathlib
import Vsf.Lib.ByteMem
import Vsf.Lib.FifoMap
import Vsf.Lib.System

namespace Vsf

open ByteMem List

/-! ### Received bytes -/

/-- The memory of a received buffer; `buf` starts at `off` and is `size` long. -/
structure RxBuf where
  mem : Mem
  off : ℕ
  size : UInt32

/-- Bytes that were read: where, and how many. -/
abbrev Access := ℕ × ℕ

namespace RxBuf

variable (b : RxBuf)

/-- The byte at `i`. -/
def byte (i : ℕ) : UInt8 := b.mem (b.off + i)

/-- The 16 bits at `i`, high byte first. -/
def be16 (i : ℕ) : UInt16 := (b.byte i).toUInt16 <<< 8 ||| (b.byte (i + 1)).toUInt16

/-- The `n` bytes at `i`. -/
def bytes (i n : ℕ) : List UInt8 := (List.range n).map fun j => b.byte (i + j)

/-- The four bytes at `i` as an `s_addr`. -/
def sAddr (i : ℕ) : UInt32 := UInt32.ofNat (load32 b.mem (b.off + i))

end RxBuf

namespace Arp

/-- `struct vsfip_arp_entry_t`; the sizes are the lengths. -/
structure Entry where
  mac : List UInt8
  ip : UInt32
  time : UInt32
deriving DecidableEq

/-- `struct vsfip_netif_t` for ARP; `ipaddr.size` is 4, the cache has an entry. -/
structure Netif where
  macaddr : List UInt8
  ipaddr : UInt32
  hwtype : UInt16
  macBroadcast : List UInt8
  arpTime : UInt32
  arpCache : List Entry
  cache_ne : arpCache ≠ []

/-- `VSFIP_NETIF_PROTO_IP`. -/
def protoIp : UInt16 := 0x0800

/-- The high byte first. -/
def be16Bytes (v : UInt16) : List UInt8 := [(v >>> 8).toUInt8, v.toUInt8]

/-- The `s_addr_buf` of an address of size 4. -/
def addrBytes (ip : UInt32) : List UInt8 :=
  [ip.toUInt8, (ip >>> 8).toUInt8, (ip >>> 16).toUInt8, (ip >>> 24).toUInt8]

/-- An ARP frame is released, answered in place, or put into the cache and released. -/
inductive Act
  | release
  | reply (dest frame : List UInt8)
  | learn (mac : List UInt8) (ip : UInt32)

/-- What was read of the frame, and what became of it. -/
structure Input where
  reads : List Access
  act : Act

/-- The loop of `vsfip_netif_arp_add_assoc` from `i`; `entry` is the choice so far, of `time`. -/
def slotLoop (i entry : ℕ) (time : UInt32) : List Entry → ℕ
  | [] => entry
  | e :: es =>
    if e.time = 0 then i
    else if e.time < time then slotLoop (i + 1) i e.time es
    else slotLoop (i + 1) entry time es

namespace Netif

variable (n : Netif)

/-- `vsfip_netif_get_mac`. -/
def getMac (ip : UInt32) : Option (List UInt8) :=
  if ip = 0xffffffff then some n.macBroadcast
  else (n.arpCache.find? fun e => e.time ≠ 0 ∧ e.ip = ip).map Entry.mac

/-- The index of the entry `vsfip_netif_arp_add_assoc` writes. -/
def slot : ℕ := slotLoop 0 0 (n.arpCache.head n.cache_ne).time n.arpCache

/-- `vsfip_netif_arp_add_assoc`. -/
def addAssoc (mac : List UInt8) (ip : UInt32) : Netif :=
  if (n.getMac ip).isSome then n
  else { n with
    arpCache := n.arpCache.set n.slot ⟨mac, ip, n.arpTime⟩
    arpTime := n.arpTime + 1
    cache_ne := fun h => n.cache_ne ((set_eq_nil_iff _ _).mp h) }

/-- An ARP request with the answer written into it. -/
def arpReply (b : RxBuf) (hwlen : UInt8) : List UInt8 :=
  be16Bytes n.hwtype ++ be16Bytes protoIp ++ [hwlen, b.byte 5] ++ be16Bytes 2 ++ n.macaddr ++ addrBytes n.ipaddr ++
    b.bytes 8 hwlen.toNat ++ b.bytes (8 + hwlen.toNat) 4

/-- `vsfip_netif_arp_input`. -/
def arpInput (b : RxBuf) : Input :=
  let hwlen := (b.byte 4).toNat
  let protolen := (b.byte 5).toNat
  let fits := hwlen = n.macaddr.length ∧ protolen = 4 ∧ 8 + 2 * (hwlen + protolen) ≤ b.size.toNat
  let head : Access := (b.off, 8)
  match b.be16 6 with
  | 1 =>
    if fits then
      let target : Access := (b.off + 8 + 2 * hwlen + protolen, protolen)
      if b.bytes (8 + 2 * hwlen + protolen) protolen = addrBytes n.ipaddr then
        ⟨[head, target, (b.off + 8, hwlen), (b.off + 8 + hwlen, protolen)],
          .reply (b.bytes 8 hwlen) (n.arpReply b (b.byte 4))⟩
      else ⟨[head, target], .release⟩
    else ⟨[head], .release⟩
  | 2 =>
    if fits then
      ⟨[head, (b.off + 8, hwlen), (b.off + 8 + n.macaddr.length, protolen)],
        .learn (b.bytes 8 hwlen) (b.sAddr (8 + n.macaddr.length))⟩
    else ⟨[head], .release⟩
  | _ => ⟨[head], .release⟩

/-- The entries in use. -/
def live : List Entry := n.arpCache.filter fun e => e.time ≠ 0

end Netif

/-! ### The entry that is written -/

/-- The loop has seen `ds`; what it has chosen so far is the oldest of them. -/
theorem slotLoop_spec (cache : List Entry) : ∀ (rest ds as bs : List Entry) (e : Entry),
    cache = ds ++ rest → cache = as ++ e :: bs → (∀ x ∈ ds, x.time ≠ 0 ∧ e.time ≤ x.time) →
    ∃ as' e' bs', cache = as' ++ e' :: bs' ∧ slotLoop ds.length as.length e.time rest = as'.length ∧
      (e'.time = 0 ∨ ∀ x ∈ cache, x.time ≠ 0 ∧ e'.time ≤ x.time)
  | [], ds, as, bs, e, hds, has, hmin => by
    rw [append_nil] at hds
    exact ⟨as, e, bs, has, rfl, .inr (hds ▸ hmin)⟩
  | x :: rest, ds, as, bs, e, hds, has, hmin => by
    have hstep : cache = (ds ++ [x]) ++ rest := by rw [hds, append_assoc]; rfl
    have hlen : (ds ++ [x]).length = ds.length + 1 := length_append
    unfold slotLoop
    by_cases h0 : x.time = 0
    · rw [if_pos h0]
      exact ⟨ds, x, rest, hds, rfl, .inl h0⟩
    · rw [if_neg h0]
      by_cases hlt : x.time < e.time
      · rw [if_pos hlt, ← hlen]
        refine slotLoop_spec cache rest (ds ++ [x]) ds rest x hstep hds fun y hy => ?_
        rcases mem_append.mp hy with hy | hy
        · exact ⟨(hmin y hy).1, UInt32.le_trans (UInt32.le_of_lt hlt) (hmin y hy).2⟩
        · obtain rfl := mem_singleton.mp hy
          exact ⟨h0, UInt32.le_refl _⟩
      · rw [if_neg hlt, ← hlen]
        refine slotLoop_spec cache rest (ds ++ [x]) as bs e hstep has fun y hy => ?_
        rcases mem_append.mp hy with hy | hy
        · exact hmin y hy
        · obtain rfl := mem_singleton.mp hy
          exact ⟨h0, UInt32.not_lt.mp hlt⟩

theorem slot_spec (n : Netif) : ∃ as e bs, n.arpCache = as ++ e :: bs ∧ n.slot = as.length ∧
    (e.time = 0 ∨ ∀ x ∈ n.arpCache, x.time ≠ 0 ∧ e.time ≤ x.time) := by
  obtain ⟨e, es, hc⟩ := exists_cons_of_ne_nil n.cache_ne
  have hhead : n.arpCache.head n.cache_ne = e := by simp only [hc, head_cons]
  unfold Netif.slot
  rw [hhead]
  exact slotLoop_spec n.arpCache n.arpCache [] [] es e rfl hc (by simp)

/-! ### The cache as a bounded map -/

/-- What an entry in use says. -/
def Entry.pair (e : Entry) : UInt32 × List UInt8 := (e.ip, e.mac)

/-- The entries in use are `ks`, in the order of their times. -/
structure Cached (n : Netif) (ks : List (UInt32 × List UInt8)) : Prop where
  sorted : ∃ es, n.live.Perm es ∧ es.map Entry.pair = ks ∧ es.Pairwise (·.time < ·.time) ∧ ∀ e ∈ es, e.time < n.arpTime
  keys : (ks.map Prod.fst).Nodup
  broadcast : 0xffffffff ∉ ks.map Prod.fst
  time : n.arpTime ≠ 0

variable {n : Netif} {ks : List (UInt32 × List UInt8)}

theorem lookup_pairs (ip : UInt32) : ∀ es : List Entry,
    (es.find? fun e => e.ip = ip).map Entry.mac = (es.map Entry.pair).lookup ip
  | [] => rfl
  | e :: es => by
    rw [map_cons, FifoMap.lookup_cons, find?_cons]
    by_cases h : e.ip = ip
    · simp [h, Entry.pair]
    · simp only [h, decide_false, Entry.pair, Ne.symm h, if_false]
      exact lookup_pairs ip es

theorem Cached.perm (h : Cached n ks) : (n.live.map Entry.pair).Perm ks := by
  obtain ⟨es, hp, rfl, -⟩ := h.sorted
  exact hp.map _

theorem Cached.length_le (h : Cached n ks) : ks.length ≤ n.arpCache.length := by
  rw [← h.perm.length_eq, length_map]
  exact length_filter_le _ _

theorem Cached.getMac (h : Cached n ks) (ip : UInt32) :
    n.getMac ip = if ip = 0xffffffff then some n.macBroadcast else ks.lookup ip := by
  unfold Netif.getMac
  split_ifs with hb
  · rfl
  · have hfilter : (n.arpCache.find? fun e => e.time ≠ 0 ∧ e.ip = ip) = n.live.find? fun e => e.ip = ip := by
      unfold Netif.live
      rw [find?_filter]
      simp only [Bool.decide_and, Bool.decide_eq_true]
    rw [hfilter, lookup_pairs]
    exact FifoMap.lookup_perm h.perm ((h.perm.map Prod.fst).nodup_iff.mpr h.keys)

theorem live_set {as bs : List Entry} {e : Entry} (hc : n.arpCache = as ++ e :: bs) (hs : n.slot = as.length)
    {new : Entry} (hnew : new.time ≠ 0) : ((n.arpCache.set n.slot new).filter fun x => x.time ≠ 0).Perm
      (((as ++ bs).filter fun x => x.time ≠ 0) ++ [new]) := by
  rw [hc, hs, set_append_right _ _ (Nat.le_refl _), Nat.sub_self, set_cons_zero, filter_append,
    filter_append, filter_cons_of_pos (by simpa using hnew), append_assoc]
  exact (@perm_append_comm _ [new] _).append_left _

theorem slot_rest {es : List Entry} (hp : n.live.Perm es) (hsort : es.Pairwise (·.time < ·.time)) :
    ∃ as e bs, n.arpCache = as ++ e :: bs ∧ n.slot = as.length ∧
      ((as ++ bs).filter fun x => x.time ≠ 0).Perm (if es.length < n.arpCache.length then es else es.tail) := by
  obtain ⟨as, e, bs, hc, hs, hmin⟩ := slot_spec n
  refine ⟨as, e, bs, hc, hs, ?_⟩
  rw [← hp.length_eq]
  by_cases h0 : e.time = 0
  · have hlive : n.live = (as ++ bs).filter fun x => x.time ≠ 0 := by
      unfold Netif.live
      rw [hc, filter_append, filter_cons_of_neg (by simpa using h0), filter_append]
    have hshort : n.live.length < n.arpCache.length := by
      have := length_filter_le (fun x : Entry => decide (x.time ≠ 0)) (as ++ bs)
      rw [hlive, hc]
      simp only [length_append, length_cons] at this ⊢
      omega
    rw [if_pos hshort, ← hlive]
    exact hp
  · have hall := hmin.resolve_left h0
    have hlive : n.live = n.arpCache := filter_eq_self.mpr fun x hx => by simpa using (hall x hx).1
    have hrest : ((as ++ bs).filter fun x => x.time ≠ 0) = as ++ bs := by
      refine filter_eq_self.mpr fun x hx => ?_
      have hx : x ∈ n.arpCache := by
        rw [hc]
        exact (List.Sublist.append_left (sublist_cons_self e bs) as).subset hx
      simpa using (hall x hx).1
    have hpe : (e :: (as ++ bs)).Perm es := by
      rw [hlive, hc] at hp
      exact perm_middle.symm.trans hp
    rw [if_neg (by rw [hlive]; exact lt_irrefl _), hrest]
    cases es with
    | nil => exact absurd hpe.length_eq (by simp)
    | cons o es =>
      -- the entry that is written is the oldest one
      obtain rfl : e = o := by
        rcases mem_cons.mp (hpe.mem_iff.mp mem_cons_self) with he | he
        · exact he
        · have hlt := (pairwise_cons.mp hsort).1 e he
          have ho : o ∈ n.arpCache := by
            rw [← hlive]
            exact hp.mem_iff.mpr mem_cons_self
          exact absurd hlt (UInt32.not_lt.mpr (hall o ho).2)
      exact hpe.cons_inv

theorem lt_succ_of_ne {t : UInt32} (h : t + 1 ≠ 0) : t < t + 1 := by
  have hadd := UInt32.toNat_add t 1
  have hlt := t.toNat_lt
  have h0 : (t + 1).toNat ≠ 0 := fun h0 => h (UInt32.toNat_inj.mp h0)
  rw [UInt32.lt_iff_toNat_lt]
  simp only [UInt32.reduceToNat] at hadd
  omega

/-- **A reply for an unknown address is inserted**, for the oldest if need be. -/
theorem Cached.addAssoc (h : Cached n ks) {mac : List UInt8} {ip : UInt32} (hnone : n.getMac ip = none)
    (htime : n.arpTime + 1 ≠ 0) : Cached (n.addAssoc mac ip) (FifoMap.insert n.arpCache.length ks ip mac) := by
  obtain ⟨es, hp, hpair, hsort, hlt⟩ := h.sorted
  have hb : ip ≠ 0xffffffff := by
    rintro rfl
    rw [h.getMac, if_pos rfl] at hnone
    cases hnone
  have hlook : ks.lookup ip = none := by rw [← hnone, h.getMac, if_neg hb]
  set new : Entry := ⟨mac, ip, n.arpTime⟩ with hnew
  have hadd : n.addAssoc mac ip = { n with
      arpCache := n.arpCache.set n.slot new
      arpTime := n.arpTime + 1
      cache_ne := fun h => n.cache_ne ((set_eq_nil_iff _ _).mp h) } := by
    unfold Netif.addAssoc
    rw [hnone]
    rfl
  obtain ⟨as, e, bs, hc, hs, hrest⟩ := slot_rest hp hsort
  have hset := @live_set _ _ _ _ hc hs new h.time
  set es' := if es.length < n.arpCache.length then es else es.tail with hes'
  have hsub : es'.Sublist es := by
    rw [hes']
    split_ifs
    · exact List.Sublist.refl _
    · exact tail_sublist _
  have hknown : es'.map Entry.pair = if ks.length < n.arpCache.length then ks else ks.tail := by
    rw [hes', ← hpair, length_map]
    split_ifs
    · rfl
    · rw [map_tail]
  have hsort' : (es' ++ [new]).Pairwise (·.time < ·.time) := by
    refine pairwise_append.mpr ⟨hsort.sublist hsub, pairwise_singleton _ _, fun x hx y hy => ?_⟩
    obtain rfl := mem_singleton.mp hy
    exact hlt x (hsub.subset hx)
  rw [hadd]
  refine ⟨⟨es' ++ [new], hset.trans (hrest.append_right _), ?_, hsort', fun x hx => ?_⟩, FifoMap.insert_keys h.keys, ?_, htime⟩
  · rw [map_append, hknown, FifoMap.insert_new hlook]
    rfl
  · rcases mem_append.mp hx with hx | hx
    · exact UInt32.lt_trans (hlt x (hsub.subset hx)) (lt_succ_of_ne htime)
    · obtain rfl := mem_singleton.mp hx
      exact lt_succ_of_ne htime
  · rw [FifoMap.insert_new hlook, ← hknown, map_append, mem_append]
    rintro (hm | hm)
    · refine h.broadcast ?_
      rw [← hpair]
      exact ((hsub.map _).map _).subset hm
    · exact hb (mem_singleton.mp hm).symm

/-! ### Traffic -/

/-- Something that happens at an interface. -/
inductive Ev
  | input (b : RxBuf)
  | lookup (ip : UInt32)

/-- An interface and the ARP replies it has taken, oldest first. -/
structure Traffic where
  netif : Netif
  replies : List (UInt32 × List UInt8)

namespace Traffic

variable (t : Traffic)

def step : Ev → Traffic
  | .input b =>
    match (t.netif.arpInput b).act with
    | .learn mac ip => ⟨t.netif.addAssoc mac ip, t.replies ++ [(ip, mac)]⟩
    | _ => t
  | .lookup _ => t

/-- After `vsfip_netif_construct`, with an empty cache. -/
structure Start : Prop where
  cache : ∀ e ∈ t.netif.arpCache, e.time = 0
  arpTime : t.netif.arpTime = 1
  replies : t.replies = []

/-- Frames and lookups, in any order, as long as `arp_time` does not come around. -/
def traffic : System Traffic Ev where
  start := Start
  step t ev t' := t' = t.step ev ∧ t'.netif.arpTime ≠ 0

/-- The addresses made known: replies for broadcast or known ones add nothing, and of more than `cap` the
first is forgotten. -/
def remember (cap : ℕ) (known : List (UInt32 × List UInt8)) (r : UInt32 × List UInt8) : List (UInt32 × List UInt8) :=
  if r.1 = 0xffffffff then known else FifoMap.insert cap known r.1 r.2

def known : List (UInt32 × List UInt8) := t.replies.foldl (remember t.netif.arpCache.length) []

variable {t}

theorem Start.cached (h : Start t) : Cached t.netif t.known := by
  have hlive : t.netif.live = [] := filter_eq_nil_iff.mpr fun e he => by simpa using h.cache e he
  have hknown : t.known = [] := by
    unfold known
    rw [h.replies]
    rfl
  rw [hknown]
  exact ⟨⟨[], by rw [hlive], rfl, List.Pairwise.nil, by simp⟩, nodup_nil, not_mem_nil, by rw [h.arpTime]; decide⟩

theorem addAssoc_length (n : Netif) (mac : List UInt8) (ip : UInt32) :
    (n.addAssoc mac ip).arpCache.length = n.arpCache.length := by
  unfold Netif.addAssoc
  split_ifs
  · rfl
  · exact length_set

theorem addAssoc_known {n : Netif} {mac : List UInt8} {ip : UInt32} (h : (n.getMac ip).isSome) : n.addAssoc mac ip = n :=
  if_pos h

theorem addAssoc_macBroadcast (n : Netif) (mac : List UInt8) (ip : UInt32) :
    (n.addAssoc mac ip).macBroadcast = n.macBroadcast := by
  unfold Netif.addAssoc
  split_ifs <;> rfl

theorem known_learn (t : Traffic) (mac : List UInt8) (ip : UInt32) :
    known ⟨t.netif.addAssoc mac ip, t.replies ++ [(ip, mac)]⟩ = remember t.netif.arpCache.length t.known (ip, mac) := by
  unfold known
  rw [addAssoc_length, foldl_append]
  rfl

theorem Cached.learn (h : Cached t.netif t.known) {mac : List UInt8} {ip : UInt32}
    (htime : (t.netif.addAssoc mac ip).arpTime ≠ 0) :
    Cached (t.netif.addAssoc mac ip) (known ⟨t.netif.addAssoc mac ip, t.replies ++ [(ip, mac)]⟩) := by
  rw [known_learn]
  cases hget : t.netif.getMac ip with
  | some w =>
    have hsame : t.netif.addAssoc mac ip = t.netif := addAssoc_known (by rw [hget]; rfl)
    rw [hsame]
    unfold remember
    split_ifs with hb
    · exact h
    · rw [h.getMac, if_neg hb] at hget
      rw [FifoMap.insert_known (by rw [hget]; rfl)]
      exact h
  | none =>
    have hb : ip ≠ 0xffffffff := by
      rintro rfl
      rw [h.getMac, if_pos rfl] at hget
      cases hget
    have hadd : (t.netif.addAssoc mac ip).arpTime = t.netif.arpTime + 1 := by
      unfold Netif.addAssoc
      rw [hget]
      rfl
    unfold remember
    rw [if_neg hb]
    exact Arp.Cached.addAssoc h hget (hadd ▸ htime)

theorem reach_cached (h : traffic.Reach t) : Cached t.netif t.known := by
  refine h.invariant (fun _ hs => hs.cached) fun t ev t' _ ih hs => ?_
  obtain ⟨rfl, htime⟩ := hs
  cases ev with
  | lookup _ => exact ih
  | input b =>
    unfold step at htime ⊢
    dsimp only at htime ⊢
    cases hact : (t.netif.arpInput b).act with
    | learn mac ip =>
      rw [hact] at htime
      exact Cached.learn ih htime
    | _ => exact ih

/-- **The cache is a bounded map of the replies**: no address is twice in it, each has its first reply's
station, and the one known longest is forgotten when it is full. -/
theorem cache_follows (h : traffic.Reach t) :
    (t.netif.live.map Entry.ip).Nodup ∧
    (∀ ip, t.netif.getMac ip = if ip = 0xffffffff then some t.netif.macBroadcast else t.known.lookup ip) ∧
    ∀ b mac ip t', (t.netif.arpInput b).act = .learn mac ip → traffic.step t (.input b) t' →
      ((t.netif.getMac ip).isSome → t'.netif = t.netif) ∧
      (t.netif.getMac ip = none → t'.netif.getMac ip = some mac ∧
        ∀ j, j ≠ ip → t'.netif.getMac j = t.netif.getMac j ∨
          t.known.length = t.netif.arpCache.length ∧ (t.known.map Prod.fst).head? = some j ∧ t'.netif.getMac j = none) := by
  have hc := reach_cached h
  refine ⟨?_, hc.getMac, fun b mac ip t' hact hs => ?_⟩
  · have hperm := hc.perm.map Prod.fst
    rw [map_map] at hperm
    exact hperm.nodup_iff.mpr hc.keys
  have hs' : t' = ⟨t.netif.addAssoc mac ip, t.replies ++ [(ip, mac)]⟩ := by
    rw [hs.1]
    unfold step
    dsimp only
    rw [hact]
  subst hs'
  refine ⟨addAssoc_known, fun hnone => ?_⟩
  have hc' := reach_cached (h.step hs)
  have hb : ip ≠ 0xffffffff := by
    rintro rfl
    rw [hc.getMac, if_pos rfl] at hnone
    cases hnone
  have hlook : t.known.lookup ip = none := by rw [← hnone, hc.getMac, if_neg hb]
  have hknown : known ⟨t.netif.addAssoc mac ip, t.replies ++ [(ip, mac)]⟩ =
      FifoMap.insert t.netif.arpCache.length t.known ip mac := by
    rw [known_learn]
    exact if_neg hb
  refine ⟨?_, fun j hj => ?_⟩
  · rw [hc'.getMac, if_neg hb, hknown]
    exact FifoMap.lookup_insert_self hlook
  · rw [hc'.getMac, hc.getMac, hknown]
    by_cases hjb : j = 0xffffffff
    · left
      rw [if_pos hjb, if_pos hjb]
      exact congrArg some (addAssoc_macBroadcast _ _ _)
    · rw [if_neg hjb, if_neg hjb]
      refine (FifoMap.lookup_insert_ne hc.keys hlook hj).imp_right fun ⟨hfull, hrest⟩ => ⟨?_, hrest⟩
      have := hc.length_le
      omega

/-! ### Runs -/

/-- An interface with room for two addresses. -/
def quiet : Traffic where
  netif := {
    macaddr := [2, 0, 0, 0, 0, 1]
    ipaddr := 0x0100a8c0
    hwtype := 1
    macBroadcast := [255, 255, 255, 255, 255, 255]
    arpTime := 1
    arpCache := [⟨[], 0, 0⟩, ⟨[], 0, 0⟩]
    cache_ne := cons_ne_nil _ _ }
  replies := []

theorem quiet_start : Start quiet := ⟨by simp [quiet], rfl, rfl⟩

/-- A reply of a station for 192.168.0.2. -/
def replyOf (last : UInt8) : RxBuf :=
  ⟨fun i => ([0, 1, 8, 0, 6, 4, 0, 2, 2, 0, 0, 0, 0, last, 192, 168, 0, 2] : List UInt8).getD i 0, 0, 28⟩

/-- The station is found after its reply. -/
theorem cache_follows_reply : ∃ t : Traffic, t.netif.getMac 0x0200a8c0 = some [2, 0, 0, 0, 0, 7] ∧
    (t.netif.live.map Entry.ip).Nodup ∧
    (∀ ip, t.netif.getMac ip = if ip = 0xffffffff then some t.netif.macBroadcast else t.known.lookup ip) := by
  have h : traffic.Reach (quiet.step (.input (replyOf 7))) :=
    (System.Reach.start quiet_start).step (i := .input (replyOf 7)) ⟨rfl, by decide⟩
  exact ⟨_, rfl, (cache_follows h).1, (cache_follows h).2.1⟩

/-- **A second reply is not taken**: the first address is still given out. -/
theorem stale_reply : ∃ t : Traffic, traffic.Reach t ∧
    t.replies = [(0x0200a8c0, [2, 0, 0, 0, 0, 7]), (0x0200a8c0, [2, 0, 0, 0, 0, 8])] ∧
    t.netif.getMac 0x0200a8c0 = some [2, 0, 0, 0, 0, 7] := by
  have h : traffic.Reach (quiet.step (.input (replyOf 7))) :=
    (System.Reach.start quiet_start).step (i := .input (replyOf 7)) ⟨rfl, by decide⟩
  have h2 : traffic.Reach ((quiet.step (.input (replyOf 7))).step (.input (replyOf 8))) :=
    h.step (i := .input (replyOf 8)) ⟨rfl, by decide⟩
  exact ⟨_, h2, rfl, rfl⟩

end Traffic
end Arp
end Vsf
