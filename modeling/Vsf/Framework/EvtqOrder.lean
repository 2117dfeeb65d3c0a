/-
# The order in which a state machine gets its events

An accepted event was given to the handler, is about to be given by a poll iteration, or is in the
ring, in this order (`Order`). There is one window: after the counters went down and before the
handler is called. An interrupt that posts there through `vsfsm_post_evt` overtakes the event; with
`vsfsm_post_evt_pending`, which interrupts are meant to use, the order holds.
-/
import Mathlib
import Vsf.Framework.EvtqRuns

namespace Vsf
namespace Events

open RingBuf Evtq World List Function Option

variable {σ κ : Type*} [DecidableEq σ] [DecidableEq κ]

/-- An event whose order counts: neither instant nor a timer tick. -/
def plain (evt : Evt) : Bool := !evt.instant && evt ≠ Evt.timer

/-- The plain events of `sm` in a log. -/
def ordered (sm : σ) (l : List (σ × Evt)) : List Evt :=
  (l.filter fun p => p.1 = sm && plain p.2).map Prod.snd

/-- The plain events for `sm` among elements. -/
def orderedElements (sm : σ) (els : List (Element σ)) : List Evt :=
  (els.filter fun e => e.names sm && plain e.evt).map Element.evt

/-- No event is posted by `vsfsm_post_evt` in the context of its own queue while an element of the same
state machine is on its way. -/
def protocol (s : State σ κ) : Op σ κ → Prop
  | .post cur sm evt => plain evt → ∀ k e, (s.world.sms sm).evtq = some k → cur = some k →
      s.phase k = .retired e → e.sm ≠ some sm
  | _ => True

/-! ### The places of an event -/

theorem ordered_append (sm : σ) (l l' : List (σ × Evt)) : ordered sm (l ++ l') = ordered sm l ++ ordered sm l' := by
  unfold ordered
  rw [filter_append, map_append]

theorem ordered_singleton (sm sm' : σ) (evt : Evt) :
    ordered sm [(sm', evt)] = if sm' = sm ∧ plain evt then [evt] else [] := by
  unfold ordered
  by_cases h : sm' = sm ∧ plain evt
  · simp [h]
  · have hf : (decide (sm' = sm) && plain evt) = false := by simpa using h
    rw [if_neg h]
    simp [hf]

theorem orderedElements_append (sm : σ) (l l' : List (Element σ)) :
    orderedElements sm (l ++ l') = orderedElements sm l ++ orderedElements sm l' := by
  unfold orderedElements
  rw [filter_append, map_append]

theorem orderedElements_singleton (sm : σ) (e : Element σ) :
    orderedElements sm [e] = ordered sm (e.sm.map fun sm' => (sm', e.evt)).toList := by
  rcases e with ⟨_ | sm', evt⟩
  · simp [orderedElements, ordered, Element.names]
  · simp only [map_some, toList_some, ordered_singleton]
    by_cases h : sm' = sm ∧ plain evt
    · simp [orderedElements, Element.names, h]
    · have hf : (decide (sm' = sm) && plain evt) = false := by simpa using h
      rw [if_neg h]
      simp [orderedElements, Element.names, hf]

theorem orderedElements_none {sm : σ} {els : List (Element σ)} (h : ∀ e ∈ els, e.sm ≠ some sm) :
    orderedElements sm els = [] := by
  unfold orderedElements
  rw [map_eq_nil_iff, filter_eq_nil_iff]
  intro e he hc
  simp only [Element.names, Bool.and_eq_true, decide_eq_true_eq] at hc
  exact h e he hc.1

theorem orderedElements_clear {sm sm' : σ} (hne : sm' ≠ sm) (els : List (Element σ)) :
    orderedElements sm' (els.map (Element.clear sm)) = orderedElements sm' els := by
  unfold orderedElements
  rw [List.filter_map, List.map_map]
  have hp : ((fun e => e.names sm' && plain e.evt) ∘ Element.clear sm) =
      fun e : Element σ => e.names sm' && plain e.evt := by
    funext e
    simp only [Function.comp, Element.names_clear_of_ne hne, Element.clear_evt]
  rw [hp]
  exact map_congr_left fun e _ => Element.clear_evt sm e

theorem ordered_none {sm : σ} {l : List (σ × Evt)} (h : ∀ p ∈ l, p.1 ≠ sm) : ordered sm l = [] := by
  unfold ordered
  rw [map_eq_nil_iff, filter_eq_nil_iff]
  intro p hp hc
  simp only [Bool.and_eq_true, decide_eq_true_eq] at hc
  exact h p hp hc.1

/-- The counters and the order: what was accepted was handed over, is on its way, or in the ring. -/
structure Order (s : State σ κ) (xs : κ → List (Element σ)) : Prop where
  inv : Inv s.world s.phase s.status xs
  posted : ∀ p ∈ s.posted, s.status p.1 ≠ .fresh
  handled : ∀ p ∈ s.handled, s.status p.1 ≠ .fresh
  order : ∀ sm k, s.status sm = .live → (s.world.sms sm).evtq = some k →
    ordered sm s.posted = ordered sm s.handled ++ orderedElements sm ((s.phase k).flight ++ xs k)

section
variable {s s' : State σ κ} {xs : κ → List (Element σ)}

theorem start_order (h : (system σ κ).start s) : Order s fun _ => [] := by
  have hi := start_inv h
  obtain ⟨-, hp, hst, h1, h2⟩ := h
  refine ⟨hi, fun p hp' => ?_, fun p hp' => ?_, fun sm k hs => ?_⟩
  · rw [h1] at hp'; cases hp'
  · rw [h2] at hp'; cases hp'
  · rw [hst sm] at hs; cases hs

theorem Order.init (h : Order s xs) {sm : σ} (hf : s.status sm = .fresh) {cur : Option κ}
    (hs : step s (.init cur sm) = some s') : Order s' xs := by
  obtain rfl := some.inj hs
  have hlive : ∀ sm', s.status sm' ≠ .fresh → Function.update s.status sm .live sm' ≠ .fresh := fun sm' hn => by
    by_cases hc : sm' = sm
    · rw [hc, update_self]; decide
    · rw [update_of_ne hc]; exact hn
  have henter : ∀ sm', ordered sm' [(sm, Evt.enter)] = [] := fun sm' => by
    rw [ordered_singleton, if_neg fun hc => absurd hc.2 (by decide)]
  refine ⟨h.inv.init hf cur, fun p hp => hlive _ (h.posted p hp), fun p hp => ?_,
    fun sm' k hl hk => ?_⟩
  · rcases mem_append.mp hp with hp | hp
    · exact hlive _ (h.handled p hp)
    · obtain rfl := mem_singleton.mp hp
      change Function.update s.status sm .live sm ≠ .fresh
      rw [update_self]
      decide
  · change ordered sm' s.posted = ordered sm' (s.handled ++ [(sm, Evt.enter)]) ++ _
    rw [ordered_append, henter, append_nil]
    by_cases hc : sm' = sm
    · -- nothing was ever posted to a fresh state machine
      subst hc
      have hels : ∀ e ∈ (s.phase k).flight ++ xs k, e.sm ≠ some sm' := fun e he hn =>
        (h.inv.bound k e he sm' hn).2 hf
      rw [ordered_none fun p hp he => h.posted p hp (he ▸ hf), ordered_none fun p hp he => h.handled p hp (he ▸ hf),
        orderedElements_none hels]
      rfl
    · have hl' : s.status sm' = .live := by
        change Function.update s.status sm .live sm' = .live at hl
        rwa [update_of_ne hc] at hl
      have hk' : (s.world.sms sm').evtq = some k := by
        change ((s.world.setSm sm ⟨cur, 0⟩).sms sm').evtq = some k at hk
        rwa [setSm_sms, update_of_ne hc] at hk
      exact h.order sm' k hl' hk'

/-- A post in the context of `cur`, with no element of `sm` on its way if that is its queue. -/
theorem Order.post (h : Order s xs) {cur : Option κ} {sm : σ} {evt : Evt} {o : Outcome σ κ}
    (hl : s.status sm = .live) (ho : PostCase s.world cur sm evt o)
    (hp : plain evt → ∀ k e, (s.world.sms sm).evtq = some k → cur = some k → s.phase k = .retired e → e.sm ≠ some sm) :
    ∃ xs', Order (s.afterPost sm evt o) xs' := by
  have hne : ∀ p ∈ s.posted ++ [(sm, evt)], s.status p.1 ≠ .fresh := fun p hp => by
    rcases mem_append.mp hp with hp | hp
    · exact h.posted p hp
    · rw [mem_singleton.mp hp, hl]; decide
  cases ho with
  | refused err herr =>
    refine ⟨xs, h.inv, fun p hp => ?_, fun p hp => ?_, fun sm' k hs hk => ?_⟩
    · rw [State.afterPost, if_neg herr] at hp
      exact h.posted p hp
    · rw [State.afterPost, toList_none, append_nil] at hp
      exact h.handled p hp
    · rw [State.afterPost, if_neg herr, toList_none, append_nil]
      exact h.order sm' k hs hk
  | coalesced ht =>
    refine ⟨xs, h.inv, fun p hp => ?_, fun p hp => ?_, fun sm' k hs hk => ?_⟩
    · rw [State.afterPost, if_pos rfl] at hp
      exact hne p hp
    · rw [State.afterPost, toList_none, append_nil] at hp
      exact h.handled p hp
    · rw [State.afterPost, if_pos rfl, toList_none, append_nil]
      have htick : ordered sm' [(sm, evt)] = [] := by
        rw [ordered_singleton, if_neg fun hc => absurd hc.2 (by rw [ht]; decide)]
      rw [ordered_append, htick, append_nil]
      exact h.order sm' k hs hk
  | called hcall =>
    refine ⟨xs, h.inv, fun p hp => ?_, fun p hp => ?_, fun sm' k hs hk => ?_⟩
    · rw [State.afterPost, if_pos rfl] at hp
      exact hne p hp
    · rw [State.afterPost, toList_some] at hp
      rcases mem_append.mp hp with hp | hp
      · exact h.handled p hp
      · rw [mem_singleton.mp hp]
        change s.status sm ≠ .fresh
        rw [hl]; decide
    · change (s.world.sms sm').evtq = some k at hk
      rw [State.afterPost, if_pos rfl, toList_some]
      change ordered sm' (s.posted ++ [(sm, evt)]) = ordered sm' (s.handled ++ [(sm, evt)]) ++ _
      have hord := h.order sm' k hs hk
      rw [ordered_append, ordered_append, ordered_singleton]
      by_cases hc : sm = sm' ∧ plain evt
      · -- the direct path: nothing of `sm` is counted, and nothing is on its way
        obtain ⟨rfl, hpl⟩ := hc
        have hnone : orderedElements sm ((s.phase k).flight ++ xs k) = [] := by
          rcases hcall with hcall | ⟨k', hk', hcur, hcnt⟩
          · rw [hcall] at hk; cases hk
          obtain rfl : k' = k := some.inj (hk'.symm.trans hk)
          have hnin : ¬ evt.instant = true := by
            unfold plain at hpl
            simp only [Bool.and_eq_true, Bool.not_eq_true'] at hpl
            rw [hpl.1]; decide
          have h0 : ((s.phase k').held ++ xs k').countP (Element.names sm) = 0 := by
            rw [← h.inv.count sm k' hl hk, hcnt.resolve_left hnin]
            rfl
          have h1 : ∀ e ∈ (s.phase k').held ++ xs k', e.sm ≠ some sm := fun e he hn =>
            countP_eq_zero.mp h0 e he (by simpa [Element.names] using hn)
          refine orderedElements_none fun e he => ?_
          rcases mem_append.mp he with he | he
          · rcases hph : s.phase k' with _ | e' | e'
            · rw [hph] at he; cases he
            · rw [hph] at he h1; exact h1 e (mem_append_left _ he)
            · rw [hph] at he
              rw [mem_singleton.mp he]
              exact hp hpl k' e' hk hcur hph
          · exact h1 e (mem_append_right _ he)
        change _ = _ ++ orderedElements sm ((s.phase k).flight ++ xs k)
        rw [hnone] at hord ⊢
        rw [hord, append_nil, append_nil]
      · rw [if_neg hc, append_nil, append_nil]
        exact hord
  | queued k hk hroom htick =>
    have hev : ∀ sm', ((Events.enqueue s.world k sm evt).sms sm').evtq = (s.world.sms sm').evtq := fun sm' => by
      unfold Events.enqueue
      rw [setSm_sms, setEvtq_sms]
      by_cases hc : sm' = sm
      · rw [hc, update_self]
      · rw [update_of_ne hc]
    refine ⟨_, h.inv.enqueue hl hk hroom htick, fun p hp => ?_, fun p hp => ?_, fun sm' k' hs hk' => ?_⟩
    · rw [State.afterPost, if_pos rfl] at hp
      exact hne p hp
    · rw [State.afterPost, toList_none, append_nil] at hp
      exact h.handled p hp
    · rw [State.afterPost, if_pos rfl, toList_none, append_nil]
      change ((Events.enqueue s.world k sm evt).sms sm').evtq = some k' at hk'
      rw [hev sm'] at hk'
      have hord := h.order sm' k' hs hk'
      rw [ordered_append, ordered_singleton, hord]
      by_cases hc : k' = k
      · subst hc
        have hnew : orderedElements sm' [(⟨some sm, evt⟩ : Element σ)] = if sm = sm' ∧ plain evt then [evt] else [] := by
          rw [orderedElements_singleton]
          exact ordered_singleton sm' sm evt
        rw [← hnew, update_self, ← append_assoc _ (xs k'), orderedElements_append _ (_ ++ xs k')]
        exact append_assoc _ _ _
      · have hsm : ¬ (sm = sm' ∧ plain evt = true) := fun hx =>
          hc (some.inj (hk'.symm.trans (hx.1 ▸ hk)))
        rw [update_of_ne hc, if_neg hsm, append_nil]

theorem Order.fini (h : Order s xs) {sm : σ} (hs : step s (.fini sm) = some s') :
    Order s' (finiRings s.world sm xs) := by
  obtain ⟨w', hw, hsms, hi⟩ := h.inv.fini sm
  simp only [step, hw, map_some, Option.some.injEq] at hs
  subst hs
  have hgone : ∀ sm', s.status sm' ≠ .fresh → Function.update s.status sm .finalised sm' ≠ .fresh := fun sm' hn => by
    by_cases hc : sm' = sm
    · rw [hc, update_self]; decide
    · rw [update_of_ne hc]; exact hn
  refine ⟨hi, fun p hp => hgone _ (h.posted p hp), fun p hp => hgone _ (h.handled p hp),
    fun sm' k hl hk => ?_⟩
  change Function.update s.status sm .finalised sm' = .live at hl
  change (w'.sms sm').evtq = some k at hk
  rw [hsms] at hk
  have hne : sm' ≠ sm := fun hc => by
    rw [hc, update_self] at hl
    cases hl
  rw [update_of_ne hne] at hl
  have hrings : orderedElements sm' (finiRings s.world sm xs k) = orderedElements sm' (xs k) := by
    unfold finiRings
    rcases (s.world.sms sm).evtq with _ | k'
    · rfl
    · by_cases hc : k = k'
      · subst hc
        simp only [update_self]
        unfold finiRing
        split_ifs
        · rfl
        · exact orderedElements_clear hne _
      · simp only [update_of_ne hc]
  change ordered sm' s.posted = ordered sm' s.handled ++ orderedElements sm' ((s.phase k).flight ++ _)
  rw [orderedElements_append, hrings, ← orderedElements_append]
  exact h.order sm' k hl hk

theorem Order.fetch (h : Order s xs) {k : κ} (hk : s.phase k = .idle) (hne : (s.world.evtqs k).evtCount ≠ 0) :
    ∃ s' ys, step s (.fetch k) = some s' ∧ xs k = (s.world.pollFetch k).1 :: ys ∧ Order s' (Function.update xs k ys) ∧
      s'.phase k = .fetched (s.world.pollFetch k).1 ∧ s'.posted = s.posted ∧ s'.status = s.status ∧
      s'.world.sms = s.world.sms := by
  obtain ⟨ys, hys, hi⟩ := h.inv.fetch hk hne
  have hflight : ∀ k', (Function.update s.phase k (.fetched (s.world.pollFetch k).1) k').flight ++
      Function.update xs k ys k' = (s.phase k').flight ++ xs k' := fun k' => by
    by_cases hc : k' = k
    · subst hc
      rw [update_self, update_self, hk, hys]
      rfl
    · rw [update_of_ne hc, update_of_ne hc]
  refine ⟨{ s with
    world := (s.world.pollFetch k).2
    phase := Function.update s.phase k (.fetched (s.world.pollFetch k).1) }, ys, ?_, hys,
    ⟨hi, h.posted, h.handled, fun sm k' hl hk' => ?_⟩, update_self .., rfl, rfl, rfl⟩
  · unfold step
    simp only [hk, hne, ↓reduceIte]
  · rw [hflight k']
    exact h.order sm k' hl hk'

theorem Order.retire (h : Order s xs) {k : κ} {e : Element σ} (hk : s.phase k = .fetched e) :
    ∃ s', step s (.retire k) = some s' ∧ Order s' xs ∧ s'.phase k = .retired e ∧ s'.posted = s.posted ∧
      s'.status = s.status ∧ ∀ sm, (s'.world.sms sm).evtq = (s.world.sms sm).evtq := by
  have hflight : ∀ k', (Function.update s.phase k (.retired e) k').flight = (s.phase k').flight := fun k' => by
    by_cases hc : k' = k
    · subst hc
      rw [update_self, hk]
      rfl
    · rw [update_of_ne hc]
  have hsm : ∀ sm, ((s.world.pollRetire k e).sms sm).evtq = (s.world.sms sm).evtq := fun sm => by
    unfold World.pollRetire
    rw [setEvtq_sms]
    rcases e.sm with _ | sm'
    · rfl
    · simp only [setSm_sms]
      by_cases hc : sm = sm'
      · rw [hc, update_self]
      · rw [update_of_ne hc]
  refine ⟨{ s with
    world := s.world.pollRetire k e
    phase := Function.update s.phase k (.retired e) }, ?_,
    ⟨h.inv.retire hk, h.posted, h.handled, fun sm k' hl hk' => ?_⟩, update_self .., rfl, rfl, hsm⟩
  · unfold step
    simp only [hk]
  · change ((s.world.pollRetire k e).sms sm).evtq = some k' at hk'
    rw [hsm sm] at hk'
    change _ = _ ++ orderedElements sm ((Function.update s.phase k _ k').flight ++ xs k')
    rw [hflight k']
    exact h.order sm k' hl hk'

theorem Order.dispatch (h : Order s xs) {k : κ} {e : Element σ} (hk : s.phase k = .retired e) :
    ∃ s', step s (.dispatch k) = some s' ∧ Order s' xs ∧ s'.phase k = .idle ∧ s'.posted = s.posted ∧
      s'.status = s.status ∧ s'.world.sms = s.world.sms := by
  have hmem : ∀ p ∈ (e.sm.map fun sm => (sm, e.evt)).toList, s.status p.1 ≠ .fresh := fun p hp => by
    rcases he : e.sm with _ | sm
    · rw [he] at hp; cases hp
    · rw [he] at hp
      rw [mem_singleton.mp hp]
      exact (h.inv.bound k e (by rw [hk]; exact mem_cons_self) sm he).2
  refine ⟨{ s with
    phase := Function.update s.phase k .idle
    handled := s.handled ++ (e.sm.map fun sm => (sm, e.evt)).toList }, ?_,
    ⟨h.inv.dispatch hk, h.posted, fun p hp => ?_, fun sm k' hl hk' => ?_⟩,
    update_self .., rfl, rfl, rfl⟩
  · unfold step
    simp only [hk]
  · rcases mem_append.mp hp with hp | hp
    · exact h.handled p hp
    · exact hmem p hp
  · have hord := h.order sm k' hl hk'
    change ordered sm s.posted = ordered sm (s.handled ++ _) ++
      orderedElements sm ((Function.update s.phase k .idle k').flight ++ xs k')
    rw [ordered_append, ← orderedElements_singleton, hord]
    by_cases hc : k' = k
    · subst hc
      rw [update_self, hk]
      change _ ++ orderedElements sm ([e] ++ xs k') = (_ ++ _) ++ orderedElements sm ([] ++ xs k')
      rw [orderedElements_append, nil_append, append_assoc]
    · -- an element of another queue is for none of this queue's state machines
      have hno : orderedElements sm [e] = [] := orderedElements_none fun e' he' hn => by
        rw [mem_singleton.mp he'] at hn
        have hk2 := (h.inv.bound k e (by rw [hk]; exact mem_cons_self) sm hn).1
        exact hc (some.inj (hk'.symm.trans hk2))
      rw [update_of_ne hc, hno, append_nil]


/-- **Every step of the protocol keeps the order.** -/
theorem step_order (h : Order s xs) {op : Op σ κ} (hp : protocol s op) (hl : legal s op)
    (hs : step s op = some s') : ∃ xs', Order s' xs' := by
  cases op with
  | init cur sm => exact ⟨xs, h.init hl hs⟩
  | post cur sm evt =>
    obtain rfl := some.inj hs
    exact h.post hl (postEvt_cases s.world cur sm evt) hp
  | postPending sm evt =>
    obtain rfl := some.inj hs
    exact h.post hl (postEvtPending_cases s.world sm evt) fun _ _ _ _ hc => by cases hc
  | fini sm => exact ⟨_, h.fini hs⟩
  | fetch k =>
    have hs' := hs
    unfold step at hs'
    rcases hk : s.phase k with _ | e | e <;> simp only [hk, reduceCtorEq] at hs'
    split_ifs at hs' with h0
    obtain ⟨s'', ys, h1, -, h2, -⟩ := h.fetch hk h0
    obtain rfl := some.inj (hs.symm.trans h1)
    exact ⟨_, h2⟩
  | retire k =>
    have hs' := hs
    unfold step at hs'
    rcases hk : s.phase k with _ | e | e <;> simp only [hk, reduceCtorEq] at hs'
    obtain ⟨s'', h1, h2, -⟩ := h.retire hk
    obtain rfl := some.inj (hs.symm.trans h1)
    exact ⟨_, h2⟩
  | dispatch k =>
    have hs' := hs
    unfold step at hs'
    rcases hk : s.phase k with _ | e | e <;> simp only [hk, reduceCtorEq] at hs'
    obtain ⟨s'', h1, h2, -⟩ := h.dispatch hk
    obtain rfl := some.inj (hs.symm.trans h1)
    exact ⟨_, h2⟩

end

theorem reach_order {s : State σ κ} (h : ((system σ κ).restrict protocol).Reach s) : ∃ xs, Order s xs := by
  apply h.invariant (P := fun s => ∃ xs, Order s xs)
  · intro s hs
    exact ⟨_, start_order hs⟩
  · intro s op s' _ ⟨xs, hi⟩ ⟨hp, hl, hs⟩
    exact step_order hi hp hl hs

/-! ### Draining -/

/-- The steps of `vsfsm_poll` on the queue `k`. -/
def isPoll (k : κ) : Op σ κ → Prop
  | .fetch k' => k' = k
  | .retire k' => k' = k
  | .dispatch k' => k' = k
  | _ => False

/-- What is left to do for the poll loop of `k`. -/
def work (ph : Phase σ) (n : ℕ) : ℕ :=
  3 * n + match ph with
    | .idle => 0
    | .fetched _ => 2
    | .retired _ => 1

/-- **The poll loop empties its queue**, with no step in between. -/
theorem drain (k : κ) : ∀ (n : ℕ) {s : State σ κ} {xs : κ → List (Element σ)}, Order s xs →
    work (s.phase k) (xs k).length = n →
    ∃ ops s' xs', ((system σ κ).restrict protocol).Run s ops s' ∧ (∀ op ∈ ops, isPoll k op) ∧ Order s' xs' ∧
      s'.phase k = .idle ∧ xs' k = [] ∧ s'.posted = s.posted ∧ s'.status = s.status ∧
      ∀ sm, (s'.world.sms sm).evtq = (s.world.sms sm).evtq := by
  intro n
  induction n using Nat.strong_induction_on with
  | _ n ih =>
    intro s xs h hn
    -- one step of the loop, and then the rest
    have hgo : ∀ {op : Op σ κ} {s1 : State σ κ} {xs1 : κ → List (Element σ)}, isPoll k op → protocol s op →
        legal s op → step s op = some s1 → Order s1 xs1 → work (s1.phase k) (xs1 k).length < n →
        s1.posted = s.posted → s1.status = s.status → (∀ sm, (s1.world.sms sm).evtq = (s.world.sms sm).evtq) →
        ∃ ops s' xs', ((system σ κ).restrict protocol).Run s ops s' ∧ (∀ op ∈ ops, isPoll k op) ∧ Order s' xs' ∧
          s'.phase k = .idle ∧ xs' k = [] ∧ s'.posted = s.posted ∧ s'.status = s.status ∧
          ∀ sm, (s'.world.sms sm).evtq = (s.world.sms sm).evtq := by
      intro op s1 xs1 hpoll hprot hleg hst h1 hlt hpo hsta hev
      obtain ⟨ops, s', xs', r1, r2, r3, r4, r5, r6, r7, r8⟩ := ih _ hlt h1 rfl
      refine ⟨op :: ops, s', xs', .cons ⟨hprot, hleg, hst⟩ r1, fun o ho => ?_, r3, r4, r5, r6.trans hpo,
        r7.trans hsta, fun sm => (r8 sm).trans (hev sm)⟩
      rcases mem_cons.mp ho with rfl | ho
      · exact hpoll
      · exact r2 o ho
    rcases hk : s.phase k with _ | e | e
    · rcases hx : xs k with _ | ⟨y, ys⟩
      · exact ⟨[], s, xs, .nil s, fun op ho => (by cases ho), h, hk, hx, rfl, rfl, fun _ => rfl⟩
      · have hq := h.inv.queue k
        have hne : (s.world.evtqs k).evtCount ≠ 0 := fun hc => by
          have := hq.count
          rw [hc, hx, length_append, length_cons] at this
          change 0 = _ at this
          omega
        obtain ⟨s1, zs, h1, h2, h3, h4, h5, h6, h7⟩ := h.fetch hk hne
        refine hgo (show isPoll k (.fetch k) from rfl) trivial trivial h1 h3 ?_ h5 h6 fun sm => by rw [h7]
        rw [← hn, h4, hk, h2, update_self, length_cons]
        simp only [work]
        omega
    · obtain ⟨s1, h1, h2, h3, h4, h5, h6⟩ := h.retire hk
      refine hgo (show isPoll k (.retire k) from rfl) trivial trivial h1 h2 ?_ h4 h5 h6
      rw [← hn, h3, hk]
      simp only [work]
      omega
    · obtain ⟨s1, h1, h2, h3, h4, h5, h6⟩ := h.dispatch hk
      refine hgo (show isPoll k (.dispatch k) from rfl) trivial trivial h1 h2 ?_ h4 h5 fun sm => by rw [h6]
      rw [← hn, h3, hk]
      simp only [work]
      omega

/-! ### The order of the events -/

/-- A post that returns an error. -/
def Refused (s : State σ κ) : Op σ κ → Prop
  | .post cur sm evt => (s.world.postEvt cur sm evt).err ≠ .none
  | .postPending sm evt => (s.world.postEvtPending sm evt).err ≠ .none
  | _ => False

theorem PostCase.refused_eq {s : State σ κ} {cur : Option κ} {sm : σ} {evt : Evt} {o : Outcome σ κ}
    (ho : PostCase s.world cur sm evt o) (he : o.err ≠ .none) : s.afterPost sm evt o = s := by
  cases ho with
  | refused err herr =>
    unfold State.afterPost
    simp only [herr, ↓reduceIte, toList_none, append_nil]
  | coalesced _ => exact absurd rfl he
  | called _ => exact absurd rfl he
  | queued _ _ _ _ => exact absurd rfl he

/-- **Events are handed over in the order of their posts**: those accepted are those handled, then the one
on its way, then the ring. A failed post changes nothing. -/
theorem dispatch_order {s : State σ κ} (h : ((system σ κ).restrict protocol).Reach s) {sm : σ} {k : κ}
    (hs : s.status sm = .live) (hk : (s.world.sms sm).evtq = some k) :
    ordered sm s.posted = ordered sm s.handled ++ orderedElements sm ((s.phase k).flight ++ s.ring k) ∧
    (∃ ops s', ((system σ κ).restrict protocol).Run s ops s' ∧ (∀ op ∈ ops, isPoll k op) ∧
      ordered sm s'.handled = ordered sm s.posted) ∧
    ∀ op s', Refused s op → step s op = some s' → s' = s := by
  obtain ⟨xs, ho⟩ := reach_order h
  refine ⟨?_, ?_, fun op s' hr hst => ?_⟩
  · rw [ring_eq (ho.inv.queue k)]
    exact ho.order sm k hs hk
  · obtain ⟨ops, s', xs', r1, r2, r3, r4, r5, r6, r7, r8⟩ := drain k _ ho rfl
    have hord := r3.order sm k (by rw [r7]; exact hs) ((r8 sm).trans hk)
    rw [r4, r5, r6] at hord
    refine ⟨ops, s', r1, r2, ?_⟩
    rw [hord]
    exact (append_nil _).symm
  · cases op with
    | post cur sm evt =>
      obtain rfl := some.inj hst
      exact (postEvt_cases s.world cur sm evt).refused_eq hr
    | postPending sm evt =>
      obtain rfl := some.inj hst
      exact (postEvtPending_cases s.world sm evt).refused_eq hr
    | _ => exact absurd hr id

/-- An event from elsewhere is queued, and the state machine posts itself another one. -/
def exampleOrdered : State Bool Unit :=
  (runOps exampleStart [.init (some ()) true, .post none true 0x10, .post (some ()) true 0x11]).getD exampleStart

theorem exampleOrdered_reach : ((system Bool Unit).restrict protocol).Reach exampleOrdered :=
  .step (i := .post (some ()) true 0x11) (.step (i := .post none true 0x10)
    (.step (i := .init (some ()) true) (.start exampleStart_start) ⟨trivial, rfl, rfl⟩)
    ⟨fun _ _ _ _ hc => (by cases hc), rfl, rfl⟩) ⟨fun _ _ _ _ _ hc => (by cases hc), rfl, rfl⟩

theorem dispatch_order_example :
    ordered true exampleOrdered.posted = [0x10, 0x11] ∧ ∃ ops s',
      ((system Bool Unit).restrict protocol).Run exampleOrdered ops s' ∧ ordered true s'.handled = [0x10, 0x11] := by
  have hp : ordered true exampleOrdered.posted = [0x10, 0x11] := by decide +kernel
  obtain ⟨-, ⟨ops, s', hr, -, ho⟩, -⟩ :=
    @dispatch_order _ _ _ _ _ exampleOrdered_reach true () (by decide +kernel) (by decide +kernel)
  exact ⟨hp, ops, s', hr, ho.trans hp⟩

/-- After an interrupt between counters and handler, which posts in the interrupted context. -/
def exampleOvertaken : State Bool Unit :=
  (runOps exampleStart [.init (some ()) true, .post none true 0x10, .fetch (), .retire (),
    .post (some ()) true 0x11, .dispatch ()]).getD exampleStart

/-- The event posted second is handed over first. -/
theorem overtaking :
    ∃ s : State Bool Unit, (system Bool Unit).Reach s ∧ s.status true = .live ∧
      (s.world.sms true).evtq = some () ∧ ordered true s.posted = [0x10, 0x11] ∧
      ordered true s.handled = [0x11, 0x10] := by
  refine ⟨exampleOvertaken, ?_, by decide +kernel, by decide +kernel, by decide +kernel, by decide +kernel⟩
  exact .step (i := .dispatch ()) (.step (i := .post (some ()) true 0x11) (.step (i := .retire ())
    (.step (i := .fetch ()) (.step (i := .post none true 0x10) (.step (i := .init (some ()) true)
    (.start exampleStart_start) ⟨rfl, rfl⟩) ⟨rfl, rfl⟩) ⟨trivial, rfl⟩) ⟨trivial, rfl⟩) ⟨rfl, rfl⟩) ⟨trivial, rfl⟩

end Events
end Vsf
