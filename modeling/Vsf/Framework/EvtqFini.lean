/-
# No event after vsfsm_fini

`vsfsm_fini` clears the elements of its state machine between `head` and `tail`. In a full ring both
are the same slot, so the walk ends before the first element, and the next poll calls a handler
through one that stayed (`fini_silences_iff`).
-/
import Mathlib
import Vsf.Framework.EvtqRuns

namespace Vsf
namespace Events

open RingBuf Evtq World List Function Option

variable {σ κ : Type*} [DecidableEq σ] [DecidableEq κ]

/-- The calls of the handler of `sm`. -/
def calls (s : State σ κ) (sm : σ) : List (σ × Evt) := s.handled.filter fun p => p.1 = sm

/-- What `vsfsm_fini(sm)` is for, at the queue `k`: no element names `sm`, its handler and counter are left
alone later, and other elements stay. -/
def Silenced (s : State σ κ) (sm : σ) (k : κ) : Prop :=
  ∃ s', step s (.fini sm) = some s' ∧ (∀ e ∈ s'.ring k, e.sm ≠ some sm) ∧
    (∀ ops s'', (system σ κ).Run s' ops s'' →
      calls s'' sm = calls s' sm ∧ (s''.world.sms sm).evtCount = (s'.world.sms sm).evtCount) ∧
    (s'.ring k).length = (s.ring k).length ∧
    (∀ (i : ℕ) (e : Element σ), (s.ring k)[i]? = some e → e.sm ≠ some sm → (s'.ring k)[i]? = some e) ∧
    ∀ k', k' ≠ k → s'.ring k' = s.ring k'

/-! ### A silent state machine stays silent -/

/-- A state machine finalised, named by no element in a ring or on its way. -/
structure Silent (s : State σ κ) (sm : σ) (xs : κ → List (Element σ)) : Prop where
  inv : Inv s.world s.phase s.status xs
  gone : s.status sm = .finalised
  unnamed : ∀ k, ∀ e ∈ (s.phase k).flight ++ xs k, e.sm ≠ some sm

section
variable {s s' : State σ κ} {sm : σ} {xs : κ → List (Element σ)}

theorem calls_concat_of_ne {l : List (σ × Evt)} {p : σ × Evt} (h : p.1 ≠ sm) :
    (l ++ [p]).filter (fun p => decide (p.1 = sm)) = l.filter fun p => decide (p.1 = sm) := by
  rw [filter_append]
  simp [h]

theorem Silent.post (h : Silent s sm xs) {cur : Option κ} {sm' : σ} {evt : Evt} {o : Outcome σ κ}
    (hl : s.status sm' = .live) (ho : PostCase s.world cur sm' evt o) :
    ∃ xs', Silent (s.afterPost sm' evt o) sm xs' ∧ calls (s.afterPost sm' evt o) sm = calls s sm ∧
      ((s.afterPost sm' evt o).world.sms sm).evtCount = (s.world.sms sm).evtCount := by
  have hne : sm' ≠ sm := fun hc => by
    rw [hc, h.gone] at hl
    cases hl
  have hstay : ∀ (c : Option (σ × Evt)), (∀ p ∈ c, p.1 = sm') →
      (s.handled ++ c.toList).filter (fun p => decide (p.1 = sm)) = calls s sm := fun c hc => by
    rcases c with _ | p
    · rw [toList_none, append_nil]
      rfl
    · rw [toList_some, calls_concat_of_ne (by rw [hc p rfl]; exact hne)]
      rfl
  cases ho with
  | refused err herr => exact ⟨xs, ⟨h.inv, h.gone, h.unnamed⟩, hstay none (fun p hp => by cases hp), rfl⟩
  | coalesced ht => exact ⟨xs, ⟨h.inv, h.gone, h.unnamed⟩, hstay none (fun p hp => by cases hp), rfl⟩
  | called hcall => exact ⟨xs, ⟨h.inv, h.gone, h.unnamed⟩, hstay _ (fun p hp => by cases hp; rfl), rfl⟩
  | queued k hk hroom htick =>
    refine ⟨_, ⟨h.inv.enqueue hl hk hroom htick, h.gone, fun k' e he => ?_⟩, hstay none (fun p hp => by cases hp), ?_⟩
    · by_cases hc : k' = k
      · subst hc
        rw [update_self, ← append_assoc] at he
        rcases mem_append.mp he with he | he
        · exact h.unnamed k' e he
        · rw [mem_singleton.mp he]
          exact fun hn => hne (some.inj hn)
      · rw [update_of_ne hc] at he
        exact h.unnamed k' e he
    · change ((Events.enqueue s.world k sm' evt).sms sm).evtCount = _
      unfold Events.enqueue
      rw [setSm_sms, update_of_ne (Ne.symm hne)]
      rfl

/-- **No step wakes a silent state machine.** -/
theorem step_silent (h : Silent s sm xs) {op : Op σ κ} (hl : legal s op) (hs : step s op = some s') :
    ∃ xs', Silent s' sm xs' ∧ calls s' sm = calls s sm ∧
      (s'.world.sms sm).evtCount = (s.world.sms sm).evtCount := by
  cases op with
  | init cur sm' =>
    obtain rfl := some.inj hs
    have hne : sm' ≠ sm := fun hc => by
      have hf : s.status sm' = .fresh := hl
      rw [hc, h.gone] at hf
      cases hf
    refine ⟨xs, ⟨h.inv.init hl cur, ?_, h.unnamed⟩, calls_concat_of_ne hne, ?_⟩
    · change Function.update s.status sm' .live sm = .finalised
      rw [update_of_ne (Ne.symm hne)]
      exact h.gone
    · change ((s.world.setSm sm' ⟨cur, 0⟩).sms sm).evtCount = _
      rw [setSm_sms, update_of_ne (Ne.symm hne)]
  | post cur sm' evt =>
    obtain rfl := some.inj hs
    exact h.post hl (postEvt_cases s.world cur sm' evt)
  | postPending sm' evt =>
    obtain rfl := some.inj hs
    exact h.post hl (postEvtPending_cases s.world sm' evt)
  | fini sm' =>
    obtain ⟨w', hw, hsms, hi⟩ := h.inv.fini sm'
    simp only [step, hw, map_some, Option.some.injEq] at hs
    subst hs
    refine ⟨_, ⟨hi, ?_, fun k e he hn => ?_⟩, rfl, by rw [hsms]⟩
    · change Function.update s.status sm' .finalised sm = .finalised
      by_cases hc : sm = sm'
      · rw [hc, update_self]
      · rw [update_of_ne hc]
        exact h.gone
    · rcases mem_append.mp he with he | he
      · exact h.unnamed k e (mem_append_left _ he) hn
      · obtain ⟨e', he', hn'⟩ := mem_finiRings he hn
        exact h.unnamed k e' (mem_append_right _ he') hn'
  | fetch k =>
    unfold step at hs
    rcases hk : s.phase k with _ | e | e <;> simp only [hk, reduceCtorEq] at hs
    split_ifs at hs with h0
    obtain rfl := some.inj hs
    obtain ⟨ys, hys, hi⟩ := h.inv.fetch hk h0
    refine ⟨_, ⟨hi, h.gone, fun k' e he => ?_⟩, rfl, rfl⟩
    by_cases hc : k' = k
    · subst hc
      change e ∈ (Function.update s.phase k' _ k').flight ++ Function.update xs k' ys k' at he
      rw [update_self, update_self] at he
      refine h.unnamed k' e (mem_append_right _ ?_)
      rw [hys]
      exact he
    · change e ∈ (Function.update s.phase k _ k').flight ++ Function.update xs k ys k' at he
      rw [update_of_ne hc, update_of_ne hc] at he
      exact h.unnamed k' e he
  | retire k =>
    unfold step at hs
    rcases hk : s.phase k with _ | e | e <;> simp only [hk, reduceCtorEq] at hs
    obtain rfl := some.inj hs
    have hsm : e.sm ≠ some sm := h.unnamed k e (by rw [hk]; exact mem_cons_self)
    refine ⟨xs, ⟨h.inv.retire hk, h.gone, fun k' e' he => ?_⟩, rfl, ?_⟩
    · by_cases hc : k' = k
      · subst hc
        change e' ∈ (Function.update s.phase k' _ k').flight ++ xs k' at he
        rw [update_self] at he
        refine h.unnamed k' e' ?_
        rw [hk]
        exact he
      · change e' ∈ (Function.update s.phase k _ k').flight ++ xs k' at he
        rw [update_of_ne hc] at he
        exact h.unnamed k' e' he
    · change ((s.world.pollRetire k e).sms sm).evtCount = _
      unfold World.pollRetire
      rw [setEvtq_sms]
      rcases he : e.sm with _ | sm'
      · rfl
      · simp only [setSm_sms]
        rw [update_of_ne fun hc => hsm (by rw [he, hc])]
  | dispatch k =>
    unfold step at hs
    rcases hk : s.phase k with _ | e | e <;> simp only [hk, reduceCtorEq] at hs
    obtain rfl := some.inj hs
    have hsm : e.sm ≠ some sm := h.unnamed k e (by rw [hk]; exact mem_cons_self)
    refine ⟨xs, ⟨h.inv.dispatch hk, h.gone, fun k' e' he => ?_⟩, ?_, rfl⟩
    · by_cases hc : k' = k
      · subst hc
        change e' ∈ (Function.update s.phase k' _ k').flight ++ xs k' at he
        rw [update_self] at he
        exact h.unnamed k' e' (mem_append_right _ he)
      · change e' ∈ (Function.update s.phase k _ k').flight ++ xs k' at he
        rw [update_of_ne hc] at he
        exact h.unnamed k' e' he
    · rcases he : e.sm with _ | sm'
      · unfold calls
        simp
      · exact calls_concat_of_ne fun hc => hsm (by rw [he]; exact congrArg some hc)

theorem run_silent {ops : List (Op σ κ)} (hr : (system σ κ).Run s ops s') (h : Silent s sm xs) :
    calls s' sm = calls s sm ∧ (s'.world.sms sm).evtCount = (s.world.sms sm).evtCount := by
  have hinv := hr.invariant (P := fun t => (∃ ys, Silent t sm ys) ∧ calls t sm = calls s sm ∧
    (t.world.sms sm).evtCount = (s.world.sms sm).evtCount) (fun t op t' ⟨⟨ys, ht⟩, h1, h2⟩ ⟨hl, hst⟩ => ?_)
    ⟨⟨xs, h⟩, rfl, rfl⟩
  · exact hinv.2
  · obtain ⟨zs, h3, h4, h5⟩ := step_silent ht hl hst
    exact ⟨⟨zs, h3⟩, h4.trans h1, h5.trans h2⟩


/-! ### When vsfsm_fini silences -/

theorem fini_spec (h : Inv s.world s.phase s.status xs) {k : κ} (hk : (s.world.sms sm).evtq = some k) :
    ∃ s', step s (.fini sm) = some s' ∧ Inv s'.world s'.phase s'.status (finiRings s.world sm xs) ∧
      s'.ring k = (s.world.evtqs k).finiRing sm (s.ring k) ∧ (∀ k', k' ≠ k → s'.ring k' = s.ring k') ∧
      s'.phase = s.phase ∧ s'.status = Function.update s.status sm .finalised ∧ s'.handled = s.handled := by
  obtain ⟨w', hw, -, hi⟩ := h.fini sm
  have hrings : finiRings s.world sm xs = Function.update xs k ((s.world.evtqs k).finiRing sm (xs k)) := by
    unfold finiRings
    rw [hk]
  refine ⟨{ s with world := w', status := Function.update s.status sm .finalised }, ?_, hi, ?_, fun k' hne => ?_,
    rfl, rfl, rfl⟩
  · simp only [step, hw, map_some]
  · rw [ring_eq (hi.queue k), ring_eq (h.queue k), hrings, update_self]
  · rw [ring_eq (hi.queue k'), ring_eq (h.queue k'), hrings, update_of_ne hne]

variable {k : κ} {e : Element σ}

theorem retire_eq (hk : s.phase k = .fetched e) :
    ∃ s', step s (.retire k) = some s' ∧ s'.phase k = .retired e ∧ s'.handled = s.handled := by
  refine ⟨{ s with
    world := s.world.pollRetire k e
    phase := Function.update s.phase k (.retired e) }, ?_, update_self .., rfl⟩
  unfold step
  simp only [hk]

theorem dispatch_eq (hk : s.phase k = .retired e) (hn : e.sm = some sm) :
    ∃ s', step s (.dispatch k) = some s' ∧ s'.handled = s.handled ++ [(sm, e.evt)] := by
  refine ⟨{ s with
    phase := Function.update s.phase k .idle
    handled := s.handled ++ [(sm, e.evt)] }, ?_, rfl⟩
  unfold step
  simp only [hk, hn, map_some, toList_some]

theorem flight_handled (he : e ∈ (s.phase k).flight) (hn : e.sm = some sm) :
    ∃ ops s', (system σ κ).Run s ops s' ∧ s'.handled = s.handled ++ [(sm, e.evt)] := by
  rcases hk : s.phase k with _ | e' | e' <;> rw [hk] at he
  · cases he
  · obtain rfl := mem_singleton.mp he
    obtain ⟨s1, h1, hk1, hh1⟩ := retire_eq hk
    obtain ⟨s2, h2, hh2⟩ := dispatch_eq hk1 hn
    exact ⟨[.retire k, .dispatch k], s2, .cons ⟨trivial, h1⟩ (.cons ⟨trivial, h2⟩ (.nil s2)), by rw [hh2, hh1]⟩
  · obtain rfl := mem_singleton.mp he
    obtain ⟨s1, h1, hh1⟩ := dispatch_eq hk hn
    exact ⟨[.dispatch k], s1, .cons ⟨trivial, h1⟩ (.nil s1), hh1⟩

end

/-- **`vsfsm_fini` silences its state machine** exactly when the ring is not full or holds none of its
elements, and no interrupted iteration is about to hand it one. -/
theorem fini_silences_iff {s : State σ κ} (h : (system σ κ).Reach s) {sm : σ} {k : κ}
    (hk : (s.world.sms sm).evtq = some k) :
    Silenced s sm k ↔
      ((s.world.evtqs k).head ≠ (s.world.evtqs k).tail ∨ ∀ e ∈ s.ring k, e.sm ≠ some sm) ∧
        ∀ e ∈ (s.phase k).flight, e.sm ≠ some sm := by
  obtain ⟨xs, hi⟩ := reach_inv h
  obtain ⟨s', hst, hi', hring, hothers, hphase, hstatus, hhandled⟩ := fini_spec hi hk
  constructor
  · rintro ⟨s1, hst1, hclear, hrun, -⟩
    obtain rfl : s' = s1 := some.inj (hst.symm.trans hst1)
    refine ⟨?_, fun e he hn => ?_⟩
    · by_contra hc
      obtain ⟨hfull, hel⟩ := not_or.mp hc
      refine hel fun e he => hclear e ?_
      rw [hring, finiRing, if_pos (not_not.mp hfull)]
      exact he
    · have he' : e ∈ (s'.phase k).flight := by rw [hphase]; exact he
      obtain ⟨ops, s2, hr, hh⟩ := flight_handled he' hn
      have hcalls := (hrun ops s2 hr).1
      unfold calls at hcalls
      rw [hh, filter_append] at hcalls
      simp at hcalls
  · rintro ⟨hring', hflight⟩
    have hnone : ∀ e ∈ s'.ring k, e.sm ≠ some sm := fun e he hn => by
      rw [hring] at he
      rcases hring' with hne | hno
      · rw [finiRing, if_neg hne] at he
        obtain ⟨e', -, rfl⟩ := List.mem_map.mp he
        have := Element.names_clear_self sm e'
        simp [Element.names, hn] at this
      · obtain ⟨e', he', hn'⟩ := mem_finiRing he hn
        exact hno e' he' hn'
    have hsilent : Silent s' sm (finiRings s.world sm xs) := by
      refine ⟨hi', by rw [hstatus, update_self], fun k' e he hn => ?_⟩
      have hsms : (s'.world.sms sm).evtq = some k' := (hi'.bound k' e he sm hn).1
      have hk'' : (s'.world.sms sm).evtq = some k := by
        obtain ⟨w', hw, hsm, -⟩ := hi.fini sm
        simp only [step, hw, map_some, Option.some.injEq] at hst
        rw [← hst, hsm]
        exact hk
      obtain rfl : k' = k := some.inj (hsms.symm.trans hk'')
      rcases mem_append.mp he with he | he
      · rw [hphase] at he
        exact hflight e he hn
      · rw [← ring_eq (hi'.queue k')] at he
        exact hnone e he hn
    refine ⟨s', hst, hnone, fun ops s2 hr => run_silent hr hsilent, by rw [hring, finiRing_length],
      fun i e hie hn => ?_, hothers⟩
    rw [hring]
    unfold finiRing
    split_ifs
    · exact hie
    · rw [getElem?_map, hie, map_some, Element.clear_of_ne hn]

theorem fini_silences_iff_example : Silenced exampleState true () ∧ exampleState.ring () ≠ [] :=
  ⟨(fini_silences_iff exampleState_reach (by decide +kernel)).mpr
    ⟨.inl (by decide +kernel), fun e he => by cases he⟩, by decide +kernel⟩

/-- Both slots of the queue hold an event for the state machine. -/
def exampleFull : State Bool Unit :=
  (runOps exampleStart [.init (some ()) true, .post none true 0x10, .post none true 0x11]).getD exampleStart

/-- In a full ring nothing is cleared. -/
theorem fini_keeps_full_ring : ∃ s : State Bool Unit, (system Bool Unit).Reach s ∧ s.status true = .live ∧
      (s.world.sms true).evtq = some () ∧ ¬ Silenced s true () := by
  refine ⟨exampleFull, ?_, by decide +kernel, by decide +kernel, ?_⟩
  · exact .step (i := .post none true 0x11) (.step (i := .post none true 0x10) (.step (i := .init (some ()) true)
      (.start exampleStart_start) ⟨rfl, rfl⟩) ⟨rfl, rfl⟩) ⟨rfl, rfl⟩
  · rintro ⟨s', hst, hclear, -⟩
    have hel : (⟨some true, 0x10⟩ : Element Bool) ∈ s'.ring () := by
      have he : s' = ((step exampleFull (.fini true)).getD exampleFull) := by rw [hst, getD_some]
      rw [he]
      decide +kernel
    exact hclear _ hel rfl

end Events
end Vsf
