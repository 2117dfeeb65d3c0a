/-
# The timers and the wrap of the clock

Clock and deadlines have 32 bits and are compared as plain numbers. Against a time that does not
wrap, a call of the handler notifies exactly the timers whose interval has passed, once each, if and
only if no deadline is on the other side of a wrap (`notifies_iff`).
-/
import Mathlib
import Vsf.Lib.Chain
import Vsf.Buffer.Queue
import Vsf.Framework.Timer

namespace Vsf

open Linked List Function Option

namespace Timers

/-- `xs` are in the list at `now`, each since `since`, with intervals from 1 to 2^31 - 1. -/
structure Armed (w : Timers) (xs : List Addr) (since : Addr → ℕ) (now : ℕ) : Prop where
  chain : Chain w.timerlist.next w.timerlist.head xs
  sorted : xs.Pairwise w.timerlist.AddrLe
  pos : ∀ t ∈ xs, 1 ≤ (w.timer t).interval.toNat
  short : ∀ t ∈ xs, (w.timer t).interval.toNat < 2 ^ 31
  addr : ∀ t ∈ xs, (w.timerlist.addr t).toNat = (since t + (w.timer t).interval.toNat) % 2 ^ 32
  past : ∀ t ∈ xs, since t ≤ now

/-- The interval of `t` has passed. -/
def Elapsed (w : Timers) (since : Addr → ℕ) (now : ℕ) (t : Addr) : Prop :=
  since t + (w.timer t).interval.toNat ≤ now

/-- One call returns, and notifies the timers of `xs` whose interval has passed, once each. -/
def NotifiesElapsed (w : Timers) (xs : List Addr) (since : Addr → ℕ) (now : ℕ) : Prop :=
  ∃ f w' log, w.initHandler f (UInt32.ofNat now) Evt.timer = some (w', log) ∧
    (∀ t, t ∈ xs → w.Elapsed since now t → (log.map Prod.fst).count t = 1) ∧
    (∀ t, ¬ (t ∈ xs ∧ w.Elapsed since now t) → t ∉ log.map Prod.fst) ∧
    ∀ p ∈ log, p.2 = (w.timer p.1).notice

/-- Each deadline is in the clock's period, or an earlier one and passed; and one that fires and stays gets
a deadline in this period. -/
def NoWrap (w : Timers) (xs : List Addr) (since : Addr → ℕ) (now : ℕ) : Prop :=
  ∀ t ∈ xs,
    ((since t + (w.timer t).interval.toNat) / 2 ^ 32 = now / 2 ^ 32 ∨
      (since t + (w.timer t).interval.toNat) / 2 ^ 32 < now / 2 ^ 32 ∧
      (since t + (w.timer t).interval.toNat) % 2 ^ 32 ≤ now % 2 ^ 32) ∧
    (w.Elapsed since now t → (w.timer t).countDown.triggerCnt ≠ 0 →
      now % 2 ^ 32 + (w.timer t).interval.toNat < 2 ^ 32)

section
variable {w : Timers} {xs : List Addr} {t : Addr} {c ms : UInt32}

/-! ### One shot -/

/-- A shot of `t` leaves the others, and `t` with a new deadline if it stays. -/
theorem fired_facts (h : Chain w.timerlist.next w.timerlist.head (t :: xs))
    (hs : (t :: xs).Pairwise w.timerlist.AddrLe) (hx : w.timerlist.addr t ≤ c) (ms : UInt32) :
    ∃ w' ys, w.turn c ms = some (w', some (t, (w.timer t).notice)) ∧
      Chain w'.timerlist.next w'.timerlist.head ys ∧ ys.Pairwise w'.timerlist.AddrLe ∧
      (∀ u, u ≠ t → (u ∈ ys ↔ u ∈ t :: xs) ∧ w'.timerlist.addr u = w.timerlist.addr u ∧ w'.timer u = w.timer u) ∧
      (t ∈ ys ↔ (w.timer t).countDown.triggerCnt ≠ 0) ∧
      (t ∈ ys → w'.timerlist.addr t = (w.timer t).interval + ms) ∧
      ∀ u, (w'.timer u).notice = (w.timer u).notice := by
  have hnot : t ∉ xs := (nodup_cons.mp h.nodup).1
  have hxs : xs.Pairwise w.timerlist.AddrLe := (pairwise_cons.mp hs).2
  have hnotice : ∀ u, ((w.set t (w.timer t).countDown).timer u).notice = (w.timer u).notice := by
    intro u
    rw [set_timer]
    by_cases hut : u = t
    · subst hut
      rw [update_self, Timer.countDown_notice]
    · rw [update_of_ne hut]
  have hother : ∀ u, u ≠ t → (w.set t (w.timer t).countDown).timer u = w.timer u := fun u hut =>
    update_of_ne hut _ _
  have hcons : ∀ u, u ≠ t → (u ∈ t :: xs ↔ u ∈ xs) := fun u hut =>
    ⟨fun hm => (mem_cons.mp hm).resolve_left hut, mem_cons_of_mem _⟩
  obtain ⟨q, hturn⟩ := turn_fire h ms hx
  by_cases hc : (w.timer t).countDown.triggerCnt ≠ 0
  · rw [if_pos hc] at hturn
    obtain ⟨hw, hch, ha⟩ := hturn
    have hmem : ∀ u, u ∈ xs.orderedInsert q.AddrLe t ↔ u = t ∨ u ∈ xs := fun u => mem_orderedInsert _
    refine ⟨_, _, hw, hch, sorted_insert hxs hnot ha, fun u hut => ⟨?_, ?_, hother u hut⟩, ?_, fun _ => ?_, hnotice⟩
    · rw [hmem, hcons u hut]
      exact ⟨fun hu => hu.resolve_left hut, .inr⟩
    · show q.addr u = _
      rw [ha, update_of_ne hut]
    · exact ⟨fun _ => hc, fun _ => (hmem t).mpr (.inl rfl)⟩
    · show q.addr t = _
      rw [ha, update_self]
  · rw [if_neg hc] at hturn
    obtain ⟨hw, hch, ha⟩ := hturn
    have hle : q.AddrLe = w.timerlist.AddrLe := by
      unfold Queue.AddrLe
      rw [ha]
    refine ⟨_, _, hw, hch, ?_, fun u hut => ⟨(hcons u hut).symm, ?_, hother u hut⟩, ?_, fun hm => ?_, hnotice⟩
    · simp only [hle]
      exact hxs
    · show q.addr u = _
      rw [ha]
    · exact ⟨fun hm => absurd hm hnot, fun hn => absurd hn hc⟩
    · exact absurd hm hnot

theorem not_due (hs : xs.Pairwise w.timerlist.AddrLe) (hx : ∀ t ∈ xs.head?, c < w.timerlist.addr t) :
    ∀ t ∈ xs, ¬ w.timerlist.addr t ≤ c := by
  intro t ht
  cases xs with
  | nil => cases ht
  | cons y ys =>
    have hy : c < w.timerlist.addr y := hx y rfl
    rcases mem_cons.mp ht with rfl | ht
    · exact UInt32.not_le.mpr hy
    · exact UInt32.not_le.mpr (UInt32.lt_of_lt_of_le hy ((pairwise_cons.mp hs).1 t ht))

theorem head_cases (xs : List Addr) (p : Addr → Prop) :
    (∀ t ∈ xs.head?, ¬ p t) ∨ ∃ t ys, xs = t :: ys ∧ p t := by
  cases xs with
  | nil => exact .inl fun t ht => (by cases ht)
  | cons t ys =>
    by_cases hp : p t
    · exact .inr ⟨t, ys, rfl, hp⟩
    · refine .inl fun u hu => ?_
      obtain rfl := some.inj hu
      exact hp

theorem turns_stop {f : ℕ} (h : w.turn c ms = some (w, none)) : turns (f + 1) w c ms = some (w, []) := by
  rw [turns, h, bind_some]

theorem turns_fire {f : ℕ} {w' : Timers} {p : Addr × Option Notice} (h : w.turn c ms = some (w', some p)) :
    turns (f + 1) w c ms = (turns f w' c ms).map fun (v, ps) => (v, p :: ps) := by
  rw [turns, h, bind_some]

/-! ### What a call of the handler notifies -/

/-- The timers in the list that are due at `c`. -/
def dueAt (w : Timers) (xs : List Addr) (c : UInt32) : Finset Addr :=
  xs.toFinset.filter fun t => w.timerlist.addr t ≤ c

theorem mem_dueAt : t ∈ w.dueAt xs c ↔ t ∈ xs ∧ w.timerlist.addr t ≤ c := by
  rw [dueAt, Finset.mem_filter, List.mem_toFinset]

/-- **If no timer that stays is due again**, the call notifies each due timer once; by induction on how many
are due. -/
theorem turns_spec : ∀ (n : ℕ) (w : Timers) (xs : List Addr),
    Chain w.timerlist.next w.timerlist.head xs → xs.Pairwise w.timerlist.AddrLe → (w.dueAt xs c).card ≤ n →
    (∀ t ∈ w.dueAt xs c, (w.timer t).countDown.triggerCnt ≠ 0 → ¬ (w.timer t).interval + ms ≤ c) →
    ∃ w' log, turns (n + 1) w c ms = some (w', log) ∧
      (∀ t ∈ w.dueAt xs c, (log.map Prod.fst).count t = 1) ∧
      (∀ t, t ∉ w.dueAt xs c → t ∉ log.map Prod.fst) ∧ ∀ p ∈ log, p.2 = (w.timer p.1).notice := by
  intro n
  induction n with
  | zero =>
    intro w xs hch hs hcard _
    have hempty : w.dueAt xs c = ∅ := Finset.card_eq_zero.mp (Nat.le_zero.mp hcard)
    have hx : ∀ t ∈ xs.head?, c < w.timerlist.addr t := by
      intro t ht
      by_contra hle
      have hm : t ∈ w.dueAt xs c := mem_dueAt.mpr ⟨mem_of_mem_head? ht, UInt32.not_lt.mp hle⟩
      rw [hempty] at hm
      exact absurd hm (Finset.notMem_empty t)
    refine ⟨w, [], turns_stop (turn_stop hch ms hx), fun t ht => ?_, fun t _ => not_mem_nil, fun p hp => (by cases hp)⟩
    rw [hempty] at ht
    exact absurd ht (Finset.notMem_empty t)
  | succ n ih =>
    intro w xs hch hs hcard hstay
    rcases head_cases xs fun t => w.timerlist.addr t ≤ c with hx | ⟨t, ys, rfl, hle⟩
    · have hnone := not_due hs fun t ht => UInt32.not_le.mp (hx t ht)
      refine ⟨w, [], turns_stop (turn_stop hch ms fun t ht => UInt32.not_le.mp (hx t ht)), fun t ht => ?_,
        fun t _ => not_mem_nil, fun p hp => (by cases hp)⟩
      exact absurd (mem_dueAt.mp ht).2 (hnone t (mem_dueAt.mp ht).1)
    · obtain ⟨w', zs, hturn, hch', hs', hother, hmem, hnew, hnotice⟩ := fired_facts hch hs hle ms
      have htdue : t ∈ w.dueAt (t :: ys) c := mem_dueAt.mpr ⟨mem_cons_self, hle⟩
      have herase : w'.dueAt zs c = (w.dueAt (t :: ys) c).erase t := by
        ext u
        rw [Finset.mem_erase, mem_dueAt, mem_dueAt]
        by_cases hut : u = t
        · subst hut
          refine ⟨fun ⟨hz, hd⟩ => ?_, fun ⟨hne, _⟩ => absurd rfl hne⟩
          rw [hnew hz] at hd
          exact absurd hd (hstay u htdue (hmem.mp hz))
        · obtain ⟨h1, h2, -⟩ := hother u hut
          rw [h1, h2]
          exact ⟨fun hu => ⟨hut, hu⟩, fun hu => hu.2⟩
      have hcard' : (w'.dueAt zs c).card ≤ n := by
        rw [herase, Finset.card_erase_of_mem htdue]
        omega
      have hstay' : ∀ u ∈ w'.dueAt zs c, (w'.timer u).countDown.triggerCnt ≠ 0 → ¬ (w'.timer u).interval + ms ≤ c := by
        intro u hu
        rw [herase, Finset.mem_erase] at hu
        obtain ⟨-, -, h3⟩ := hother u hu.1
        rw [h3]
        exact hstay u hu.2
      obtain ⟨v, log, h1, h2, h3, h4⟩ := ih w' zs hch' hs' hcard' hstay'
      have htlog : t ∉ log.map Prod.fst := h3 t (by rw [herase]; exact Finset.notMem_erase t _)
      refine ⟨v, (t, (w.timer t).notice) :: log, ?_, fun u hu => ?_, fun u hu => ?_, fun p hp => ?_⟩
      · rw [turns_fire hturn, h1, map_some]
      · rw [map_cons, List.count_cons]
        by_cases hut : u = t
        · subst hut
          rw [count_eq_zero_of_not_mem htlog, if_pos (beq_self_eq_true u)]
        · have hne : ¬ (t == u) = true := fun he => hut (LawfulBEq.eq_of_beq he).symm
          rw [if_neg hne, h2 u (by rw [herase]; exact Finset.mem_erase.mpr ⟨hut, hu⟩)]
      · rw [map_cons, mem_cons, not_or]
        exact ⟨fun he => hu (he ▸ htdue), h3 u fun hm => hu (Finset.mem_of_mem_erase (herase ▸ hm))⟩
      · rcases mem_cons.mp hp with rfl | hp
        · rfl
        · rw [h4 p hp, hnotice]

/-- **Any call that returns** has notified the due timers, those due again more than once. -/
theorem turns_count : ∀ (f : ℕ) (w : Timers) (xs : List Addr) {w' : Timers} {log : List (Addr × Option Notice)},
    Chain w.timerlist.next w.timerlist.head xs → xs.Pairwise w.timerlist.AddrLe →
    turns f w c ms = some (w', log) →
    (∀ t, t ∈ log.map Prod.fst ↔ t ∈ w.dueAt xs c) ∧
    ∀ t ∈ w.dueAt xs c, (w.timer t).countDown.triggerCnt ≠ 0 → (w.timer t).interval + ms ≤ c →
      2 ≤ (log.map Prod.fst).count t := by
  intro f
  induction f with
  | zero =>
    intro w xs w' log _ _ hrun
    cases hrun
  | succ f ih =>
    intro w xs w' log hch hs hrun
    rcases head_cases xs fun t => w.timerlist.addr t ≤ c with hx | ⟨t, ys, rfl, hle⟩
    · have hnone := not_due hs fun t ht => UInt32.not_le.mp (hx t ht)
      rw [turns_stop (turn_stop hch ms fun t ht => UInt32.not_le.mp (hx t ht))] at hrun
      obtain ⟨rfl, rfl⟩ := Prod.mk.inj (some.inj hrun)
      have hempty : ∀ t, t ∉ w.dueAt xs c := fun t ht => hnone t (mem_dueAt.mp ht).1 (mem_dueAt.mp ht).2
      refine ⟨fun t => ⟨fun ht => (by cases ht), fun ht => absurd ht (hempty t)⟩, fun t ht => absurd ht (hempty t)⟩
    · obtain ⟨v, zs, hturn, hch', hs', hother, hmem, hnew, -⟩ := fired_facts hch hs hle ms
      rw [turns_fire hturn] at hrun
      obtain ⟨⟨v', rest⟩, hrest, heq⟩ := map_eq_some_iff.mp hrun
      obtain ⟨rfl, rfl⟩ := Prod.mk.inj heq
      obtain ⟨h1, h2⟩ := ih v zs hch' hs' hrest
      have htdue : t ∈ w.dueAt (t :: ys) c := mem_dueAt.mpr ⟨mem_cons_self, hle⟩
      have hsame : ∀ u, u ≠ t → (u ∈ v.dueAt zs c ↔ u ∈ w.dueAt (t :: ys) c) := by
        intro u hut
        obtain ⟨h3, h4, -⟩ := hother u hut
        rw [mem_dueAt, mem_dueAt, h3, h4]
      rw [map_cons]
      refine ⟨fun u => ?_, fun u hu hstay hagain => ?_⟩
      · rw [mem_cons, h1]
        by_cases hut : u = t
        · subst hut
          exact ⟨fun _ => htdue, fun _ => .inl rfl⟩
        · rw [hsame u hut]
          exact ⟨fun hu => hu.resolve_left hut, .inr⟩
      · by_cases hut : u = t
        · subst hut
          have hz := hmem.mpr hstay
          have hin : u ∈ rest.map Prod.fst := (h1 u).mpr (mem_dueAt.mpr ⟨hz, (hnew hz).symm ▸ hagain⟩)
          rw [count_cons_self]
          exact Nat.succ_le_succ (count_pos_iff.mpr hin)
        · obtain ⟨-, -, h5⟩ := hother u hut
          have h6 := h2 u ((hsame u hut).mpr hu) (h5 ▸ hstay) (h5 ▸ hagain)
          exact h6.trans (count_le_count_cons)

/-! ### The wrap -/

/-- A new deadline is due at once exactly when it passed the wrap. -/
theorem add_le_self_iff {i : UInt32} (hi : 1 ≤ i.toNat) : i + c ≤ c ↔ 2 ^ 32 ≤ c.toNat + i.toNat := by
  have := i.toNat_lt
  rw [UInt32.le_iff_toNat_le, UInt32.toNat_add]
  omega

/-- When comparing in 32 bits is comparing, for a deadline less than 2^31 ms ahead. -/
theorem mod_le_mod_iff {d now : ℕ} (hd : d < now + 2 ^ 31) :
    (d % 2 ^ 32 ≤ now % 2 ^ 32 ↔ d ≤ now) ↔
      d / 2 ^ 32 = now / 2 ^ 32 ∨ d / 2 ^ 32 < now / 2 ^ 32 ∧ d % 2 ^ 32 ≤ now % 2 ^ 32 := by
  omega

variable {since : Addr → ℕ} {now : ℕ}

theorem Armed.due_iff (h : Armed w xs since now) (ht : t ∈ xs) :
    t ∈ w.dueAt xs (UInt32.ofNat now) ↔
      (since t + (w.timer t).interval.toNat) % 2 ^ 32 ≤ now % 2 ^ 32 := by
  rw [mem_dueAt, UInt32.le_iff_toNat_le, h.addr t ht, UInt32.toNat_ofNat']
  exact ⟨fun hd => hd.2, fun hd => ⟨ht, hd⟩⟩

theorem Armed.window_right_iff (h : Armed w xs since now) (ht : t ∈ xs) :
    (t ∈ w.dueAt xs (UInt32.ofNat now) ↔ w.Elapsed since now t) ↔
      ((since t + (w.timer t).interval.toNat) / 2 ^ 32 = now / 2 ^ 32 ∨
        (since t + (w.timer t).interval.toNat) / 2 ^ 32 < now / 2 ^ 32 ∧
        (since t + (w.timer t).interval.toNat) % 2 ^ 32 ≤ now % 2 ^ 32) := by
  have hpast := h.past t ht
  have hshort := h.short t ht
  rw [h.due_iff ht]
  exact mod_le_mod_iff (by omega)

end

/-- **The handler is right exactly when no wrap is in the way**: for every clock and every list, a call with
the clock standing still notifies just the timers whose interval has passed, once each. -/
theorem notifies_iff (w : Timers) (xs : List Addr) (since : Addr → ℕ) (now : ℕ) (h : Armed w xs since now) :
    NotifiesElapsed w xs since now ↔ NoWrap w xs since now := by
  let c := UInt32.ofNat now
  have hc : c.toNat = now % 2 ^ 32 := UInt32.toNat_ofNat'
  have hrun : ∀ f, w.initHandler f c Evt.timer = turns f w c c := fun f => by
    unfold initHandler
    rw [if_pos rfl]
  constructor
  · intro ⟨f, w', log, hlog, hone, hnone, _⟩ t ht
    rw [hrun] at hlog
    obtain ⟨hdue, hagain⟩ := turns_count f w xs h.chain h.sorted hlog
    have hright : t ∈ w.dueAt xs c ↔ w.Elapsed since now t := by
      rw [← hdue t]
      constructor
      · intro hm
        by_contra he
        exact hnone t (fun hc => he hc.2) hm
      · intro he
        exact count_pos_iff.mp (by rw [hone t ht he]; exact one_pos)
    refine ⟨(h.window_right_iff ht).mp hright, fun he hstay => ?_⟩
    by_contra hwrap
    have hle := (add_le_self_iff (c := c) (h.pos t ht)).mpr (by omega)
    have htwo := hagain t (hright.mpr he) hstay hle
    rw [hone t ht he] at htwo
    omega
  · intro hno
    have hright : ∀ t ∈ xs, (t ∈ w.dueAt xs c ↔ w.Elapsed since now t) := fun t ht =>
      (h.window_right_iff ht).mpr (hno t ht).1
    have hstay : ∀ t ∈ w.dueAt xs c, (w.timer t).countDown.triggerCnt ≠ 0 → ¬ (w.timer t).interval + c ≤ c := by
      intro t hm hs hle
      have ht := (mem_dueAt.mp hm).1
      have hwrap := (add_le_self_iff (h.pos t ht)).mp hle
      have hfit := (hno t ht).2 ((hright t ht).mp hm) hs
      omega
    obtain ⟨w', log, h1, h2, h3, h4⟩ := turns_spec _ w xs h.chain h.sorted le_rfl hstay
    refine ⟨_, w', log, (hrun _).trans h1, fun t ht he => h2 t ((hright t ht).mpr he), fun t hn => ?_, h4⟩
    exact h3 t fun hm => hn ⟨(mem_dueAt.mp hm).1, (hright t (mem_dueAt.mp hm).1).mp hm⟩

/-- One timer in the list, at 0x2000, with an interval of 10 ms. -/
def exampleTimers (addr : UInt32) (cnt : ℤ) : Timers :=
  ⟨⟨some 0x2000, some 0x2000, fun _ => addr, fun _ => none⟩, fun _ => ⟨some 0x3000, 0, Evt.user, 10, cnt⟩, []⟩

/-- Put into the list at the time 0, it has fired at the time 10. -/
theorem notifies_iff_example :
    Armed (exampleTimers 10 1) [0x2000] (fun _ => 0) 10 ∧
      NotifiesElapsed (exampleTimers 10 1) [0x2000] (fun _ => 0) 10 := by
  have h : Armed (exampleTimers 10 1) [0x2000] (fun _ => 0) 10 :=
    ⟨⟨rfl, rfl⟩, pairwise_singleton _ _, fun _ _ => (by decide : 1 ≤ 10), fun _ _ => (by decide : 10 < 2 ^ 31),
      fun _ _ => rfl, fun _ _ => Nat.zero_le _⟩
  refine ⟨h, (notifies_iff _ _ _ _ h).mpr fun t _ => ⟨.inl rfl, fun _ hs => ?_⟩⟩
  have hzero : ((exampleTimers 10 1).timer t).countDown.triggerCnt = 0 := rfl
  exact absurd hzero hs

/-- Listed 6 ms before the wrap it is due at once: 4, and the clock is 2^32 - 6. -/
theorem fires_early :
    Armed (exampleTimers 4 (-1)) [0x2000] (fun _ => 2 ^ 32 - 6) (2 ^ 32 - 6) ∧
      ¬ NotifiesElapsed (exampleTimers 4 (-1)) [0x2000] (fun _ => 2 ^ 32 - 6) (2 ^ 32 - 6) := by
  have hch : Chain (exampleTimers 4 (-1)).timerlist.next (exampleTimers 4 (-1)).timerlist.head [0x2000] := ⟨rfl, rfl⟩
  refine ⟨⟨hch, pairwise_singleton _ _, fun _ _ => (by decide : 1 ≤ 10), fun _ _ => (by decide : 10 < 2 ^ 31),
    fun _ _ => (by decide : 4 = (2 ^ 32 - 6 + 10) % 2 ^ 32), fun _ _ => le_rfl⟩, fun ⟨f, w', log, hlog, _, hnone, _⟩ => ?_⟩
  obtain ⟨hdue, -⟩ := turns_count f _ _ hch (pairwise_singleton _ _) hlog
  have hfires : (0x2000 : Addr) ∈ log.map Prod.fst := (hdue 0x2000).mpr (mem_dueAt.mpr ⟨mem_singleton_self _, by decide⟩)
  refine hnone 0x2000 (fun he => ?_) hfires
  exact absurd he.2 (by unfold Elapsed; decide)

end Timers
end Vsf
