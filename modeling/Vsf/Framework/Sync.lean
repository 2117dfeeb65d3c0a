/-
# The sync objects of vsfsm.c

`struct vsfsm_sync_t`, behind semaphores and critical sections: a counter and a list of waiting
state machines, linked through `pending_next`. A token goes to the first waiter directly. The state
keeps who waits since when, who was woken, and who holds a token. The first waiter is taken off
before its event is posted, so a post that fails loses the token (`Sync.tokenKept_iff`).
-/
import Mathlib
import Vsf.Lib.Chain
import Vsf.Lib.System
import Vsf.Buffer.Queue
import Vsf.Framework.Evtq

namespace Vsf

open Linked List Option UInt32

/-- `struct vsfsm_sync_t`, with `pending_next` of the state machines. -/
structure Sync where
  curValue : UInt32
  maxValue : UInt32
  evt : Evt
  smPending : Option Addr
  pendingNext : Addr → Option Addr

namespace Sync

/-- `sm->pending_next = v`. -/
def setNext (y : Sync) (sm : Addr) (v : Option Addr) : Sync :=
  { y with pendingNext := Function.update y.pendingNext sm v }

/-- `vsfsm_sync_init`. -/
def init (y : Sync) (cur max : UInt32) (evt : Evt) : Sync :=
  { y with curValue := cur, maxValue := max, smPending := none, evt }

/-- The loop of `vsfsm_sync_append_sm`. -/
def appendLoop (sm : Addr) : ℕ → Sync → Addr → Option Sync
  | 0, _, _ => none
  | f + 1, y, p =>
    match y.pendingNext p with
    | none => some (y.setNext p (some sm))
    | some n => appendLoop sm f y n

/-- `vsfsm_sync_append_sm`. -/
def appendSm (y : Sync) (sm : Addr) : Option Sync :=
  let y := y.setNext sm none
  match y.smPending with
  | none => some { y with smPending := some sm }
  | some p => appendLoop sm walkFuel y p

/-- The loop of `vsfsm_sync_cancel`. -/
def cancelLoop (sm : Addr) : ℕ → Sync → Addr → Option Sync
  | 0, _, _ => none
  | f + 1, y, p =>
    match y.pendingNext p with
    | none => some y
    | some n => if n = sm then some (y.setNext p (y.pendingNext sm)) else cancelLoop sm f y n

/-- `vsfsm_sync_cancel`. -/
def cancel (y : Sync) (sm : Addr) : Option Sync :=
  match y.smPending with
  | none => some y
  | some p =>
    if p = sm then some { y with smPending := y.pendingNext sm }
    else cancelLoop sm walkFuel y p

/-- `vsfsm_sync_increase`: the result, the object, and whom the event was posted to by `post`. -/
def increase (y : Sync) (post : Addr → Evt → Err) : Err × Sync × Option Addr :=
  match y.smPending with
  | some sm =>
    let y := { y with smPending := y.pendingNext sm }
    if post sm y.evt ≠ .none then (.bug, y, none) else (.none, y, some sm)
  | none =>
    if y.curValue < y.maxValue then (.none, { y with curValue := y.curValue + 1 }, none)
    else (.bug, y, none)

/-- `vsfsm_sync_decrease`. -/
def decrease (y : Sync) (sm : Addr) : Option (Err × Sync) :=
  if y.curValue > 0 then some (.none, { y with curValue := y.curValue - 1 })
  else (y.appendSm sm).map fun y => (.notReady, y)

/-! ### The list of waiters -/

theorem appendLoop_spec (sm : Addr) : ∀ (f : ℕ) (y : Sync) (as : List Addr) (p : Addr) (bs : List Addr),
    Chain y.pendingNext y.smPending (as ++ p :: bs) → sm ∉ as ++ p :: bs → y.pendingNext sm = none → bs.length < f →
    ∃ q, (as ++ p :: bs).getLast? = some q ∧ appendLoop sm f y p = some (y.setNext q (some sm)) := by
  intro f
  induction f with
  | zero => intro y as p bs _ _ _ hf; omega
  | succ f ih =>
    intro y as p bs h hn hnn hf
    obtain ⟨r, -, -, hp⟩ := chain_append.mp h
    unfold appendLoop
    cases bs with
    | nil =>
      have hnone : y.pendingNext p = none := hp
      exact ⟨p, getLast?_concat, by rw [hnone]⟩
    | cons x bs =>
      obtain ⟨hx, -⟩ := chain_cons.mp hp
      have hstep : as ++ p :: x :: bs = (as ++ [p]) ++ x :: bs := by simp
      obtain ⟨q, h1, h2⟩ := ih y (as ++ [p]) x bs (hstep ▸ h) (hstep ▸ hn) hnn
        (by simp only [length_cons] at hf; omega)
      exact ⟨q, hstep ▸ h1, by rw [hx]; exact h2⟩

variable {y : Sync} {xs : List Addr}

/-- **`vsfsm_sync_append_sm` puts its state machine at the end.** -/
theorem append_spec (h : Chain y.pendingNext y.smPending xs) {sm : Addr} (hn : sm ∉ xs) :
    ∃ y', y.appendSm sm = some y' ∧ Chain y'.pendingNext y'.smPending (xs ++ [sm]) ∧
      y'.curValue = y.curValue ∧ y'.maxValue = y.maxValue := by
  have h0 : Chain (y.setNext sm none).pendingNext y.smPending xs := h.update hn
  unfold appendSm
  cases xs with
  | nil =>
    have hh : y.smPending = none := h
    refine ⟨{ y.setNext sm none with smPending := some sm }, by simp [setNext, hh], ⟨rfl, ?_⟩, rfl, rfl⟩
    exact Function.update_self ..
  | cons p bs =>
    obtain ⟨hh, -⟩ := chain_cons.mp h
    have hf : bs.length < walkFuel := by
      have := h.length_le
      simp only [length_cons] at this
      exact this
    have hnone : (y.setNext sm none).pendingNext sm = none := Function.update_self ..
    obtain ⟨q, h1, h2⟩ := appendLoop_spec sm walkFuel (y.setNext sm none) [] p bs h0 hn hnone hf
    refine ⟨(y.setNext sm none).setNext q (some sm), by simpa [setNext, hh] using h2, ?_, rfl, rfl⟩
    obtain ⟨as, has⟩ := getLast?_eq_some_iff.mp h1
    rw [nil_append] at has
    rw [has] at h hn h0 ⊢
    have hlink := Chain.link h hn
    rw [head?_nil] at hlink
    rw [append_assoc]
    exact hlink

/-- The loop is at `p`, which is not the waiter to drop. -/
theorem cancelLoop_spec (sm : Addr) : ∀ (f : ℕ) (y : Sync) (as : List Addr) (p : Addr) (bs : List Addr),
    Chain y.pendingNext y.smPending (as ++ p :: bs) → bs.length < f →
    ∃ y', cancelLoop sm f y p = some y' ∧ Chain y'.pendingNext y'.smPending (as ++ p :: bs.erase sm) ∧
      y'.curValue = y.curValue ∧ y'.maxValue = y.maxValue := by
  intro f
  induction f with
  | zero => intro y as p bs _ hf; omega
  | succ f ih =>
    intro y as p bs h hf
    obtain ⟨r, -, -, hp⟩ := chain_append.mp h
    unfold cancelLoop
    cases bs with
    | nil =>
      have hnone : y.pendingNext p = none := hp
      exact ⟨y, by rw [hnone], h, rfl, rfl⟩
    | cons x bs =>
      obtain ⟨hx, -⟩ := chain_cons.mp hp
      rw [hx]
      by_cases hxs : x = sm
      · subst hxs
        rw [erase_cons_head]
        exact ⟨y.setNext p (y.pendingNext x), by simp, h.unlink, rfl, rfl⟩
      · have hstep : as ++ p :: x :: bs = (as ++ [p]) ++ x :: bs := by simp
        obtain ⟨y', h1, h2, h3⟩ := ih y (as ++ [p]) x bs (hstep ▸ h)
          (by simp only [length_cons] at hf; omega)
        refine ⟨y', by simp [hxs, h1], ?_, h3⟩
        rw [erase_cons_tail (by simpa using hxs)]
        simpa using h2

/-- **`vsfsm_sync_cancel` drops its state machine from the waiters.** -/
theorem cancel_spec (h : Chain y.pendingNext y.smPending xs) (sm : Addr) :
    ∃ y', y.cancel sm = some y' ∧ Chain y'.pendingNext y'.smPending (xs.erase sm) ∧
      y'.curValue = y.curValue ∧ y'.maxValue = y.maxValue := by
  unfold cancel
  cases xs with
  | nil =>
    have hh : y.smPending = none := h
    exact ⟨y, by rw [hh], h, rfl, rfl⟩
  | cons p bs =>
    obtain ⟨hh, hbs⟩ := chain_cons.mp h
    rw [hh]
    by_cases hps : p = sm
    · subst hps
      rw [erase_cons_head]
      exact ⟨{ y with smPending := y.pendingNext p }, by simp, hbs, rfl, rfl⟩
    · have hf : bs.length < walkFuel := by
        have := h.length_le
        simp only [length_cons] at this
        exact this
      obtain ⟨y', h1, h2, h3⟩ := cancelLoop_spec sm walkFuel y [] p bs h hf
      refine ⟨y', by simp [hps, h1], ?_, h3⟩
      rw [erase_cons_tail (by simpa using hps)]
      exact h2

/-! ### Runs -/

/-- The object and its history: the next arrival, who waits and was woken as which arrival, accepted
increases, immediate grants, holders of tokens. -/
structure State where
  sync : Sync
  ticket : ℕ
  waiting : List (Addr × ℕ)
  woken : List (Addr × ℕ)
  accepted : ℕ
  grants : ℕ
  holders : List Addr

/-- The calls; `who` gives up its token. Others may write the `pending_next` of one that does not wait. -/
inductive Op where
  | decrease (sm : Addr)
  | increase (who : Option Addr) (post : Addr → Evt → Err)
  | cancel (sm : Addr)
  | other (sm : Addr) (v : Option Addr)

/-- One step, `none` for a walk that does not end. -/
def step (s : State) : Op → Option State
  | .decrease sm => (s.sync.decrease sm).map fun (err, sync) =>
    if err = .none then { s with sync, grants := s.grants + 1, holders := sm :: s.holders }
    else { s with sync, ticket := s.ticket + 1, waiting := s.waiting ++ [(sm, s.ticket)] }
  | .increase who post =>
    let (err, sync, woken) := s.sync.increase post
    let holders := who.elim s.holders s.holders.erase
    let accepted := if err = .none then s.accepted + 1 else s.accepted
    match woken with
    | none => some { s with sync, accepted, holders }
    | some sm => some { s with
        sync, accepted, holders := sm :: holders
        waiting := s.waiting.filter fun p => p.1 ≠ sm
        woken := s.woken ++ s.waiting.filter fun p => p.1 = sm }
  | .cancel sm => (s.sync.cancel sm).map fun sync =>
    { s with sync, waiting := s.waiting.filter fun p => p.1 ≠ sm }
  | .other sm v => some { s with sync := s.sync.setNext sm v }

/-- Who waits is not pended again, and every post succeeds. -/
def legal (s : State) : Op → Prop
  | .decrease sm => sm ∉ s.waiting.map Prod.fst
  | .increase _ post => ∀ sm evt, post sm evt = .none
  | .cancel _ => True
  | .other sm _ => sm ∉ s.waiting.map Prod.fst

/-- From `vsfsm_sync_init(cur, max)` on. -/
def system (cur max : UInt32) : System State Op where
  start s := ∃ y evt, s = ⟨Sync.init y cur max evt, 0, [], [], 0, 0, []⟩
  step s op s' := legal s op ∧ step s op = some s'

/-- What the object guarantees, from the value `cur`: the waiters are the chain, in the order of arrival. -/
structure Correct (cur : UInt32) (s : State) : Prop where
  le_max : s.sync.curValue ≤ s.sync.maxValue
  empty : 0 < s.sync.curValue → s.sync.smPending = none
  chain : Chain s.sync.pendingNext s.sync.smPending (s.waiting.map Prod.fst)
  nodup : (s.waiting.map Prod.fst).Nodup
  order : ((s.woken ++ s.waiting).map Prod.snd).Pairwise (· < ·)
  arrived : ∀ p ∈ s.woken ++ s.waiting, p.2 < s.ticket
  tokens : cur.toNat + s.accepted = s.sync.curValue.toNat + s.grants + s.woken.length

section
variable {cur max : UInt32} {s s' : State}

theorem Correct.first (h : Correct cur s) {sm : Addr} (hp : s.sync.smPending = some sm) :
    ∃ t rest, s.waiting = (sm, t) :: rest ∧ s.waiting.filter (fun p => p.1 = sm) = [(sm, t)] ∧
      s.waiting.filter (fun p => p.1 ≠ sm) = rest ∧
      Chain s.sync.pendingNext (s.sync.pendingNext sm) (rest.map Prod.fst) := by
  have hch := h.chain
  have hnd := h.nodup
  rcases hw : s.waiting with _ | ⟨⟨a, t⟩, rest⟩
  · rw [hw] at hch
    have hnone : s.sync.smPending = none := hch
    rw [hp] at hnone
    cases hnone
  · rw [hw, map_cons] at hch hnd
    obtain ⟨ha, hrest⟩ := chain_cons.mp hch
    obtain rfl : sm = a := some.inj (hp.symm.trans ha)
    have hnot : ∀ p ∈ rest, p.1 ≠ sm := fun p hpr he =>
      (nodup_cons.mp hnd).1 (List.mem_map.mpr ⟨p, hpr, he⟩)
    refine ⟨t, rest, rfl, ?_, ?_, hrest⟩
    · rw [filter_cons_of_pos (by simp), filter_eq_nil_iff.mpr fun p hpr => by simpa using hnot p hpr]
    · rw [filter_cons_of_neg (by simp), filter_eq_self.mpr fun p hpr => by simpa using hnot p hpr]

theorem map_filter_ne (l : List (Addr × ℕ)) (sm : Addr) (h : (l.map Prod.fst).Nodup) :
    (l.filter fun p => p.1 ≠ sm).map Prod.fst = (l.map Prod.fst).erase sm := by
  rw [h.erase_eq_filter, List.filter_map]
  congr 1
  refine filter_congr fun p _ => ?_
  by_cases hp : p.1 = sm <;> simp [hp]

theorem Correct.decrease (h : Correct cur s) {sm : Addr} (hl : sm ∉ s.waiting.map Prod.fst) :
    ∃ s', step s (.decrease sm) = some s' ∧ Correct cur s' ∧ s'.sync.maxValue = s.sync.maxValue ∧
      s'.holders.length + s'.sync.curValue.toNat = s.holders.length + s.sync.curValue.toNat := by
  by_cases hc : s.sync.curValue > 0
  · -- an immediate grant
    have hpos : 0 < s.sync.curValue.toNat := hc
    have hval : (s.sync.curValue - 1).toNat = s.sync.curValue.toNat - 1 := by
      rw [UInt32.toNat_sub_of_le _ _ (le_iff_toNat_le.mpr (by rw [toNat_one]; exact hpos)),
        toNat_one]
    refine ⟨{ s with
      sync := { s.sync with curValue := s.sync.curValue - 1 }
      grants := s.grants + 1
      holders := sm :: s.holders }, ?_, ⟨?_, fun _ => h.empty hc, h.chain, h.nodup, h.order, h.arrived, ?_⟩, rfl, ?_⟩
    · simp only [step, Sync.decrease, hc, ↓reduceIte, map_some]
    · rw [le_iff_toNat_le]
      simp only
      have := le_iff_toNat_le.mp h.le_max
      omega
    · have := h.tokens
      simp only
      omega
    · simp only [length_cons]
      omega
  · -- the state machine waits
    obtain ⟨y', h1, h2, h3, h4⟩ := append_spec h.chain hl
    have hzero : ¬ 0 < y'.curValue := by rw [h3]; exact hc
    refine ⟨{ s with sync := y', ticket := s.ticket + 1, waiting := s.waiting ++ [(sm, s.ticket)] }, ?_,
      ⟨?_, fun hpos => absurd hpos hzero, ?_, ?_, ?_, fun p hp => ?_, ?_⟩, h4, ?_⟩
    · simp only [step, Sync.decrease, hc, ↓reduceIte, h1, map_some, reduceCtorEq]
    · rw [h3, h4]
      exact h.le_max
    · rw [map_append]
      exact h2
    · rw [map_append]
      refine nodup_append.mpr ⟨h.nodup, nodup_singleton _, fun a ha b hb => ?_⟩
      obtain rfl : b = sm := mem_singleton.mp hb
      exact fun he => hl (he ▸ ha)
    · rw [← append_assoc, map_append, pairwise_append]
      refine ⟨h.order, pairwise_singleton _ _, fun a ha b hb => ?_⟩
      obtain ⟨p, hp, rfl⟩ := List.mem_map.mp ha
      rw [mem_singleton.mp hb]
      exact h.arrived p hp
    · rw [← append_assoc] at hp
      rcases mem_append.mp hp with hp | hp
      · exact Nat.lt_succ_of_lt (h.arrived p hp)
      · rw [mem_singleton.mp hp]
        exact Nat.lt_succ_self _
    · rw [h3]
      exact h.tokens
    · rw [h3]

theorem Correct.increase (h : Correct cur s) (who : Option Addr) {post : Addr → Evt → Err}
    (hl : ∀ sm evt, post sm evt = .none) :
    ∃ s', step s (.increase who post) = some s' ∧ Correct cur s' ∧ s'.sync.maxValue = s.sync.maxValue ∧
      (s.sync.curValue < s.sync.maxValue ∨ s.sync.smPending ≠ none →
        s'.holders.length + s'.sync.curValue.toNat =
          (who.elim s.holders s.holders.erase).length + 1 + s.sync.curValue.toNat) := by
  rcases hp : s.sync.smPending with _ | sm
  · by_cases hc : s.sync.curValue < s.sync.maxValue
    · have hlt := lt_iff_toNat_lt.mp hc
      have hval : (s.sync.curValue + 1).toNat = s.sync.curValue.toNat + 1 := by
        have := s.sync.maxValue.toNat_lt
        rw [UInt32.toNat_add, toNat_one]
        exact Nat.mod_eq_of_lt (by omega)
      refine ⟨{ s with
        sync := { s.sync with curValue := s.sync.curValue + 1 }
        accepted := s.accepted + 1
        holders := who.elim s.holders s.holders.erase }, ?_,
        ⟨?_, fun _ => hp, h.chain, h.nodup, h.order, h.arrived, ?_⟩, rfl, fun _ => ?_⟩
      · simp only [step, Sync.increase, hp, hc, ↓reduceIte]
      · rw [le_iff_toNat_le]
        simp only
        omega
      · have := h.tokens
        simp only
        omega
      · simp only
        omega
    · refine ⟨{ s with holders := who.elim s.holders s.holders.erase }, ?_,
        ⟨h.le_max, h.empty, h.chain, h.nodup, h.order, h.arrived, h.tokens⟩, rfl, fun hor => ?_⟩
      · simp only [step, Sync.increase, hp, hc, ↓reduceIte, reduceCtorEq]
      · rcases hor with hor | hor
        · exact absurd hor hc
        · exact absurd rfl hor
  · -- the token goes to the first waiter
    obtain ⟨t, rest, hw, hw1, hw2, hch⟩ := h.first hp
    have hzero : ¬ 0 < s.sync.curValue := fun hpos => by
      have := h.empty hpos
      rw [hp] at this
      cases this
    have hlist : s.woken ++ s.waiting = (s.woken ++ [(sm, t)]) ++ rest := by rw [hw]; simp
    refine ⟨{ s with
      sync := { s.sync with smPending := s.sync.pendingNext sm }
      accepted := s.accepted + 1
      holders := sm :: who.elim s.holders s.holders.erase
      waiting := s.waiting.filter fun p => p.1 ≠ sm
      woken := s.woken ++ s.waiting.filter fun p => p.1 = sm }, ?_,
      ⟨h.le_max, fun hpos => absurd hpos hzero, ?_, ?_, ?_, ?_, ?_⟩, rfl, fun _ => ?_⟩
    · simp only [step, Sync.increase, hp, hl, ne_eq, not_true_eq_false, ↓reduceIte]
    · simp only
      rw [hw2]
      exact hch
    · simp only
      rw [hw2]
      have hnd := h.nodup
      rw [hw, map_cons] at hnd
      exact (nodup_cons.mp hnd).2
    · simp only
      rw [hw1, hw2, ← hlist]
      exact h.order
    · simp only
      rw [hw1, hw2, ← hlist]
      exact h.arrived
    · have := h.tokens
      simp only [hw1, length_append, length_singleton]
      omega
    · simp only [length_cons]

theorem Correct.cancel (h : Correct cur s) (sm : Addr) :
    ∃ s', step s (.cancel sm) = some s' ∧ Correct cur s' ∧ s'.sync.maxValue = s.sync.maxValue ∧
      s'.holders = s.holders ∧ s'.sync.curValue = s.sync.curValue := by
  obtain ⟨y', h1, h2, h3, h4⟩ := cancel_spec h.chain sm
  have hsub : (s.woken ++ s.waiting.filter fun p => p.1 ≠ sm).Sublist (s.woken ++ s.waiting) :=
    List.Sublist.append_left filter_sublist _
  refine ⟨{ s with sync := y', waiting := s.waiting.filter fun p => p.1 ≠ sm }, ?_,
    ⟨?_, fun hpos => ?_, ?_, ?_, ?_, fun p hp => ?_, ?_⟩, h4, rfl, h3⟩
  · simp only [step, h1, map_some]
  · rw [h3, h4]
    exact h.le_max
  · -- nobody waited
    have hnone := h.empty (h3 ▸ hpos)
    have hch := h.chain
    rw [hnone] at hch
    have hnil : s.waiting.map Prod.fst = [] := hch.unique rfl
    rw [hnil] at h2
    exact h2
  · rw [map_filter_ne _ _ h.nodup]
    exact h2
  · rw [map_filter_ne _ _ h.nodup]
    exact h.nodup.erase _
  · exact h.order.sublist (hsub.map _)
  · exact h.arrived p (hsub.subset hp)
  · rw [h3]
    exact h.tokens

theorem Correct.other (h : Correct cur s) {sm : Addr} (hl : sm ∉ s.waiting.map Prod.fst) (v : Option Addr) :
    Correct cur { s with sync := s.sync.setNext sm v } :=
  ⟨h.le_max, h.empty, h.chain.update hl, h.nodup, h.order, h.arrived, h.tokens⟩

/-- **Every legal call returns and keeps the guarantees.** -/
theorem step_correct (h : Correct cur s) {op : Op} (hl : legal s op) :
    ∃ s', step s op = some s' ∧ Correct cur s' ∧ s'.sync.maxValue = s.sync.maxValue := by
  cases op with
  | decrease sm =>
    obtain ⟨s', h1, h2, h3, -⟩ := h.decrease hl
    exact ⟨s', h1, h2, h3⟩
  | increase who post =>
    obtain ⟨s', h1, h2, h3, -⟩ := h.increase who hl
    exact ⟨s', h1, h2, h3⟩
  | cancel sm =>
    obtain ⟨s', h1, h2, h3, -⟩ := h.cancel sm
    exact ⟨s', h1, h2, h3⟩
  | other sm v => exact ⟨_, rfl, h.other hl v, rfl⟩

theorem start_correct (hle : cur ≤ max) (h : (system cur max).start s) : Correct cur s ∧ s.sync.maxValue = max := by
  obtain ⟨y, evt, rfl⟩ := h
  exact ⟨⟨hle, fun _ => rfl, rfl, nodup_nil, List.Pairwise.nil, fun p hp => (by cases hp), rfl⟩, rfl⟩

theorem reach_correct (hle : cur ≤ max) (h : (system cur max).Reach s) : Correct cur s ∧ s.sync.maxValue = max := by
  apply h.invariant (P := fun s => Correct cur s ∧ s.sync.maxValue = max)
  · intro s hs
    exact start_correct hle hs
  · intro s op s' _ ⟨hi, hm⟩ ⟨hl, hs⟩
    obtain ⟨s'', h1, h2, h3⟩ := step_correct hi hl
    obtain rfl := some.inj (hs.symm.trans h1)
    exact ⟨h2, h3.trans hm⟩

/-! ### Holding a token -/

/-- Tokens are given up by who holds them. -/
def byHolder (s : State) : Op → Prop
  | .increase who _ => ∃ sm ∈ s.holders, who = some sm
  | _ => True

theorem holders_add (hle : cur ≤ max) (h : ((system cur max).restrict byHolder).Reach s) :
    s.holders.length + s.sync.curValue.toNat = cur.toNat := by
  apply h.invariant (P := fun s => s.holders.length + s.sync.curValue.toNat = cur.toNat)
  · intro s ⟨y, evt, hs⟩
    rw [hs]
    exact zero_add _
  · intro s op s' hr hi ⟨hby, hl, hs⟩
    obtain ⟨hc, hm⟩ := reach_correct hle hr.of_restrict
    cases op with
    | decrease sm =>
      obtain ⟨s'', h1, -, -, h2⟩ := hc.decrease hl
      obtain rfl := some.inj (hs.symm.trans h1)
      rw [h2, hi]
    | increase who post =>
      obtain ⟨sm, hsm, rfl⟩ := hby
      have hlen := length_pos_of_mem hsm
      -- a token is out, so the counter is below its maximum
      have hroom : s.sync.curValue < s.sync.maxValue := by
        have := le_iff_toNat_le.mp hle
        rw [hm, lt_iff_toNat_lt]
        omega
      obtain ⟨s'', h1, -, -, h2⟩ := hc.increase (some sm) hl
      obtain rfl := some.inj (hs.symm.trans h1)
      have h3 := h2 (.inl hroom)
      rw [elim_some, length_erase_of_mem hsm] at h3
      omega
    | cancel sm =>
      obtain ⟨s'', h1, -, -, h2, h3⟩ := hc.cancel sm
      obtain rfl := some.inj (hs.symm.trans h1)
      rw [h2, h3, hi]
    | other sm v =>
      obtain rfl := some.inj hs
      exact hi

end

/-- **The sync object is correct** in every state of every run from `cur ≤ max`: the counter is in bounds,
and positive only if nobody waits; waiters are chained and woken in order; tokens add up; calls return; and
with 1 and 1 at most one holds the section. -/
theorem sync_correct {cur max : UInt32} (hle : cur ≤ max) :
    (∀ s, (system cur max).Reach s → Correct cur s ∧ ∀ op, legal s op → ∃ s', step s op = some s') ∧
    (cur = 1 → max = 1 → ∀ s, ((system cur max).restrict byHolder).Reach s → s.holders.length ≤ 1) := by
  refine ⟨fun s h => ?_, fun h1 h2 s h => ?_⟩
  · obtain ⟨hc, -⟩ := reach_correct hle h
    refine ⟨hc, fun op hl => ?_⟩
    obtain ⟨s', hs, -⟩ := step_correct hc hl
    exact ⟨s', hs⟩
  · have := holders_add hle h
    rw [h1, toNat_one] at this
    omega

theorem sync_correct_crit :
    (1 : UInt32) ≤ 1 ∧ ∀ s, ((system 1 1).restrict byHolder).Reach s → s.holders.length ≤ 1 :=
  ⟨by decide, (sync_correct (by decide)).2 rfl rfl⟩

end Sync

/-! ### A post that fails -/

/-- An event for a state machine finds room, or is handled at once. -/
def World.Accepts {σ κ : Type*} [DecidableEq σ] [DecidableEq κ] (w : World σ κ) (cur : Option κ) (sm : σ) (evt : Evt) : Prop :=
  match (w.sms sm).evtq with
  | none => True
  | some k =>
    some k = cur ∧ (evt.instant ∨ (w.sms sm).evtCount = 0) ∨ ¬evt.instant ∧ (w.evtqs k).evtCount.toNat < (w.evtqs k).size

namespace Sync

variable {κ : Type*} [DecidableEq κ]

/-- `vsfsm_sync_increase`, called while `vsfsm_cur_evtq` is `cur`. -/
def increaseIn (y : Sync) (w : World Addr κ) (cur : Option κ) : Err × Sync × Option Addr :=
  y.increase fun sm evt => (w.postEvt cur sm evt).err

/-- The waiters are still `xs`, and the counter is as it was. -/
structure TokenKept (y y' : Sync) (xs : List Addr) : Prop where
  chain : Chain y'.pendingNext y'.smPending xs
  value : y'.curValue = y.curValue

variable {w : World Addr κ} {sm : Addr} {evt : Evt}

theorem evtqPost_err {k : κ} :
    (w.evtqPost k sm evt).err = .none ↔ (w.evtqs k).evtCount.toNat < (w.evtqs k).size := by
  unfold World.evtqPost
  by_cases hfull : (w.evtqs k).evtCount.toNat ≥ (w.evtqs k).size
  · rw [if_pos hfull]
    simp only [reduceCtorEq, false_iff, not_lt]
    exact hfull
  · rw [if_neg hfull]
    split_ifs <;> simp only [true_iff] <;> omega

/-- `vsfsm_post_evt` fails exactly if the event is not accepted. -/
theorem postEvt_err {cur : Option κ} : (w.postEvt cur sm evt).err = .none ↔ w.Accepts cur sm evt := by
  unfold World.postEvt World.Accepts
  dsimp only
  cases hq : (w.sms sm).evtq with
  | none => simp [World.dispatchEvt]
  | some k =>
    dsimp only
    by_cases hcur : some k = cur
    · rw [if_neg fun h => h.1 hcur]
      by_cases hwait : ¬evt.instant ∧ (w.sms sm).evtCount ≠ 0
      · rw [if_pos (.inr hwait), evtqPost_err]
        simp [hwait.1, hwait.2]
      · rw [if_neg fun h => h.elim (fun h => h hcur) hwait]
        simp only [World.dispatchEvt, hcur, true_and, true_iff]
        refine .inl ?_
        by_contra hno
        rw [not_or] at hno
        exact hwait hno
    · by_cases hinst : evt.instant
      · rw [if_pos ⟨hcur, hinst⟩]
        simp [hcur, hinst]
      · rw [if_neg fun h => hinst h.2, if_pos (.inl hcur), evtqPost_err]
        simp [hcur, hinst]

/-- **A failing increase loses no token** exactly if nobody waits or the first event is accepted. -/
theorem tokenKept_iff {y : Sync} {xs : List Addr} (h : Chain y.pendingNext y.smPending xs) (w : World Addr κ) (cur : Option κ) :
    ((y.increaseIn w cur).1 ≠ .none → TokenKept y (y.increaseIn w cur).2.1 xs) ↔
      ∀ sm, y.smPending = some sm → w.Accepts cur sm y.evt := by
  unfold increaseIn increase
  cases hp : y.smPending with
  | none =>
    refine iff_of_true (fun _ => ?_) fun sm hsm => (by cases hsm)
    dsimp only
    split_ifs with hlt
    · rename_i hne
      rw [if_pos hlt] at hne
      exact absurd rfl hne
    · exact ⟨h, rfl⟩
  | some sm =>
    dsimp only
    have hacc : (∀ sm', some sm = some sm' → w.Accepts cur sm' y.evt) ↔ w.Accepts cur sm y.evt :=
      ⟨fun h => h sm rfl, fun h sm' heq => some.inj heq ▸ h⟩
    rw [hacc, ← postEvt_err]
    by_cases herr : (w.postEvt cur sm y.evt).err = .none
    · rw [if_neg (not_not_intro herr)]
      exact iff_of_true (fun hne => absurd rfl hne) herr
    · rw [if_pos herr]
      refine iff_of_false (fun hkept => ?_) herr
      -- the waiter was taken off the list
      obtain ⟨hchain, -⟩ := hkept (by simp)
      rw [hp] at h
      cases xs with
      | nil => cases h
      | cons x rest =>
        obtain ⟨hx, hrest⟩ := chain_cons.mp h
        obtain rfl := some.inj hx
        have hlen := congrArg List.length (Chain.unique hchain hrest)
        simp at hlen

/-- One state machine waits, and the queue of its events is full. -/
def oneWaits : Sync := ⟨0, 1, Evt.user, some 0x1000, fun _ => none⟩

def fullQueue : World Addr Unit where
  evtqs _ := { size := 1, queue := fun _ => ⟨none, Evt.user⟩, head := 0, tail := 0, evtCount := 1, tickEvtCount := 0 }
  sms _ := ⟨some (), 1⟩

/-- **The token is lost.** -/
theorem token_lost : ¬((oneWaits.increaseIn fullQueue none).1 ≠ .none →
    TokenKept oneWaits (oneWaits.increaseIn fullQueue none).2.1 [0x1000]) := by
  intro hall
  obtain ⟨hchain, -⟩ := hall (by decide)
  cases hchain.1

theorem tokenKept_full : Chain (fun _ : Addr => none) none [] ∧
    TokenKept ⟨1, 1, Evt.user, none, fun _ => none⟩ ((⟨1, 1, Evt.user, none, fun _ => none⟩ : Sync).increaseIn fullQueue none).2.1 [] := by
  have hchain : Chain (fun _ : Addr => none) none [] := rfl
  refine ⟨hchain, (@tokenKept_iff Unit _ ⟨1, 1, Evt.user, none, fun _ => none⟩ [] hchain fullQueue none).mpr ?_ (by decide)⟩
  intro sm hsm
  cases hsm

end Sync
end Vsf
