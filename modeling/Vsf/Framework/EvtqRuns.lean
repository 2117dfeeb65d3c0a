/-
# Runs of the event queues

Any number of queues and state machines: contexts post, initialise and finalise, and every queue is
polled; steps interleave freely, also between the parts of a poll iteration. The state keeps two
logs: the posts that returned `VSFERR_NONE`, and the calls of handlers. `Inv` is what the counters
count.
-/
import Mathlib
import Vsf.Lib.System
import Vsf.Framework.EvtqRing

namespace Vsf
namespace Events

open RingBuf Evtq World List Function Option

/-! ### The system -/

/-- Where a state machine is in its life. -/
inductive Status where
  | fresh
  | live
  | finalised
deriving DecidableEq

/-- The world, where each poll loop stands, and the logs. -/
structure State (σ κ : Type*) where
  world : World σ κ
  phase : κ → Phase σ
  status : σ → Status
  posted : List (σ × Evt)
  handled : List (σ × Evt)

/-- The steps. `cur` is `vsfsm_cur_evtq` in the context that takes the step. -/
inductive Op (σ κ : Type*) where
  | init (cur : Option κ) (sm : σ)
  | post (cur : Option κ) (sm : σ) (evt : Evt)
  | postPending (sm : σ) (evt : Evt)
  | fini (sm : σ)
  | fetch (k : κ)
  | retire (k : κ)
  | dispatch (k : κ)

variable {σ κ : Type*} [DecidableEq σ] [DecidableEq κ]

/-- The logs after a post. -/
def State.afterPost (s : State σ κ) (sm : σ) (evt : Evt) (o : Outcome σ κ) : State σ κ :=
  { s with
    world := o.world
    posted := if o.err = .none then s.posted ++ [(sm, evt)] else s.posted
    handled := s.handled ++ o.call.toList }

/-- One step, `none` where the poll loop does not stand at this part. -/
def step (s : State σ κ) : Op σ κ → Option (State σ κ)
  | .init cur sm =>
    let o := s.world.init cur sm
    some { s with
      world := o.world
      status := Function.update s.status sm .live
      handled := s.handled ++ o.call.toList }
  | .post cur sm evt => some (s.afterPost sm evt (s.world.postEvt cur sm evt))
  | .postPending sm evt => some (s.afterPost sm evt (s.world.postEvtPending sm evt))
  | .fini sm => (s.world.fini sm).map fun world =>
    { s with world, status := Function.update s.status sm .finalised }
  | .fetch k =>
    match s.phase k with
    | .idle =>
      if (s.world.evtqs k).evtCount = 0 then none
      else
        let (tmp, world) := s.world.pollFetch k
        some { s with world, phase := Function.update s.phase k (.fetched tmp) }
    | _ => none
  | .retire k =>
    match s.phase k with
    | .fetched tmp =>
      some { s with
        world := s.world.pollRetire k tmp
        phase := Function.update s.phase k (.retired tmp) }
    | _ => none
  | .dispatch k =>
    match s.phase k with
    | .retired tmp =>
      some { s with
        phase := Function.update s.phase k .idle
        handled := s.handled ++ (tmp.sm.map fun sm => (sm, tmp.evt)).toList }
    | _ => none

/-- Fresh state machines are initialised, live ones posted to and finalised. -/
def legal (s : State σ κ) : Op σ κ → Prop
  | .init _ sm => s.status sm = .fresh
  | .post _ sm _ => s.status sm = .live
  | .postPending sm _ => s.status sm = .live
  | .fini sm => s.status sm = .live
  | _ => True

/-- A queue after `vsfsm_evtq_init`, with a `tick_evt_count` of 0. -/
structure Initial (q : Evtq σ) : Prop where
  size_pos : 1 ≤ q.size
  size_le : q.size ≤ 65535
  head : q.head = 0
  tail : q.tail = 0
  evtCount : q.evtCount = 0
  tickEvtCount : q.tickEvtCount = 0

/-- The queues and state machines from the start on. -/
def system (σ κ : Type*) [DecidableEq σ] [DecidableEq κ] : System (State σ κ) (Op σ κ) where
  start s := (∀ k, Initial (s.world.evtqs k)) ∧ (∀ k, s.phase k = .idle) ∧ (∀ sm, s.status sm = .fresh) ∧
    s.posted = [] ∧ s.handled = []
  step s op s' := legal s op ∧ step s op = some s'

/-! ### What a post can do -/

/-- The element of a post goes into the ring of `k`. -/
def enqueue (w : World σ κ) (k : κ) (sm : σ) (evt : Evt) : World σ κ :=
  let q := w.evtqs k
  (w.setEvtq k (Evtq.put (if evt = Evt.timer then { q with tickEvtCount := q.tickEvtCount + 1 } else q) sm evt)).setSm
    sm { w.sms sm with evtCount := (w.sms sm).evtCount + 1 }

/-- The outcomes of a post: refused, a tick already queued, a call, or one more element. -/
inductive PostCase (w : World σ κ) (cur : Option κ) (sm : σ) (evt : Evt) : Outcome σ κ → Prop
  | refused (err : Err) : err ≠ .none → PostCase w cur sm evt ⟨err, w, none⟩
  | coalesced : evt = Evt.timer → PostCase w cur sm evt ⟨.none, w, none⟩
  | called : ((w.sms sm).evtq = none ∨
        ∃ k, (w.sms sm).evtq = some k ∧ cur = some k ∧ (evt.instant ∨ (w.sms sm).evtCount = 0)) →
      PostCase w cur sm evt ⟨.none, w, some (sm, evt)⟩
  | queued (k : κ) : (w.sms sm).evtq = some k → (w.evtqs k).evtCount.toNat < (w.evtqs k).size →
      (evt = Evt.timer → (w.evtqs k).tickEvtCount = 0) → PostCase w cur sm evt ⟨.none, enqueue w k sm evt, none⟩

theorem evtqPost_cases (w : World σ κ) (cur : Option κ) {k : κ} {sm : σ} (evt : Evt)
    (hk : (w.sms sm).evtq = some k) : PostCase w cur sm evt (w.evtqPost k sm evt) := by
  unfold World.evtqPost
  by_cases h1 : (w.evtqs k).evtCount.toNat ≥ (w.evtqs k).size
  · rw [if_pos h1]
    exact .refused _ (by decide)
  by_cases h2 : evt = Evt.timer ∧ (w.evtqs k).tickEvtCount ≠ 0
  · rw [if_neg h1, if_pos h2]
    exact .coalesced h2.1
  · rw [if_neg h1, if_neg h2]
    exact .queued k hk (not_le.mp h1) fun ht => not_not.mp fun hc => h2 ⟨ht, hc⟩

theorem postEvt_cases (w : World σ κ) (cur : Option κ) (sm : σ) (evt : Evt) :
    PostCase w cur sm evt (w.postEvt cur sm evt) := by
  unfold World.postEvt
  rcases hk : (w.sms sm).evtq with _ | k
  · simp only [hk]
    exact .called (.inl hk)
  · simp only [hk]
    split_ifs with h1 h2
    · exact .refused _ (by decide)
    · exact evtqPost_cases w cur evt hk
    · obtain ⟨h3, h4⟩ := not_or.mp h2
      refine .called (.inr ⟨k, hk, (not_not.mp h3).symm, ?_⟩)
      by_contra hc
      obtain ⟨h5, h6⟩ := not_or.mp hc
      exact h4 ⟨h5, h6⟩

theorem postEvtPending_cases (w : World σ κ) (sm : σ) (evt : Evt) :
    PostCase w none sm evt (w.postEvtPending sm evt) := by
  unfold World.postEvtPending
  split_ifs with h1
  · exact .refused _ (by decide)
  · rcases hk : (w.sms sm).evtq with _ | k
    · simp only
      exact .called (.inl hk)
    · simp only
      exact evtqPost_cases w none evt hk

/-! ### The invariant -/

/-- The queues hold `xs`; elements name state machines of their queue, counted if live. Those cleared of a
finalised one stay on its counter. -/
structure Inv (w : World σ κ) (ph : κ → Phase σ) (st : σ → Status) (xs : κ → List (Element σ)) : Prop where
  queue : ∀ k, QInv (w.evtqs k) (ph k) (xs k)
  bound : ∀ k, ∀ e ∈ (ph k).flight ++ xs k, ∀ sm, e.sm = some sm → (w.sms sm).evtq = some k ∧ st sm ≠ .fresh
  count_le : ∀ sm k, st sm ≠ .fresh → (w.sms sm).evtq = some k →
    ((ph k).held ++ xs k).countP (Element.names sm) ≤ (w.sms sm).evtCount.toNat
  count : ∀ sm k, st sm = .live → (w.sms sm).evtq = some k →
    (w.sms sm).evtCount.toNat = ((ph k).held ++ xs k).countP (Element.names sm)

variable {q : Evtq σ} {ys : List (Element σ)} {k : κ} {s : State σ κ}

section
variable {w : World σ κ} {ph : κ → Phase σ} {st : σ → Status} {xs : κ → List (Element σ)}

omit [DecidableEq κ] in
theorem Inv.fresh_count (h : Inv w ph st xs) {sm : σ} (hs : st sm = .fresh) (k : κ) :
    ((ph k).held ++ xs k).countP (Element.names sm) = 0 := by
  refine countP_eq_zero.mpr fun e he hn => ?_
  exact (h.bound k e (Phase.mem_flight he) sm (by simpa [Element.names] using hn)).2 hs

omit [DecidableEq κ] in
theorem Inv.init (h : Inv w ph st xs) {sm : σ} (hs : st sm = .fresh) (cur : Option κ) :
    Inv (w.setSm sm ⟨cur, 0⟩) ph (Function.update st sm .live) xs := by
  have hne : ∀ k, ∀ e ∈ (ph k).flight ++ xs k, ∀ sm', e.sm = some sm' → sm' ≠ sm := fun k e he sm' hn hc =>
    (h.bound k e he sm' hn).2 (hc ▸ hs)
  refine ⟨h.queue, fun k e he sm' hn => ?_, fun sm' k hst hk => ?_, fun sm' k hst hk => ?_⟩
  · rw [setSm_sms, update_of_ne (hne k e he sm' hn), update_of_ne (hne k e he sm' hn)]
    exact h.bound k e he sm' hn
  · by_cases hc : sm' = sm
    · rw [hc, h.fresh_count hs k]
      exact Nat.zero_le _
    · rw [setSm_sms, update_of_ne hc] at hk ⊢
      rw [update_of_ne hc] at hst
      exact h.count_le sm' k hst hk
  · by_cases hc : sm' = sm
    · rw [hc, h.fresh_count hs k, setSm_sms, update_self]
      rfl
    · rw [setSm_sms, update_of_ne hc] at hk ⊢
      rw [update_of_ne hc] at hst
      exact h.count sm' k hst hk

theorem countP_concat (ys : List (Element σ)) (sm sm' : σ) (evt : Evt) :
    (ys ++ [(⟨some sm, evt⟩ : Element σ)]).countP (Element.names sm') = ys.countP (Element.names sm') + if sm = sm' then 1 else 0 := by
  rw [countP_append, countP_singleton]
  simp [Element.names]

theorem Inv.enqueue (h : Inv w ph st xs) {sm : σ} {k : κ} {evt : Evt} (hs : st sm = .live)
    (hk : (w.sms sm).evtq = some k) (hroom : (w.evtqs k).evtCount.toNat < (w.evtqs k).size)
    (htick : evt = Evt.timer → (w.evtqs k).tickEvtCount = 0) :
    Inv (Events.enqueue w k sm evt) ph st (Function.update xs k (xs k ++ [⟨some sm, evt⟩])) := by
  have hq := h.queue k
  have hcount : ((w.sms sm).evtCount + 1).toNat = (w.sms sm).evtCount.toNat + 1 := by
    have h1 := h.count sm k hs hk
    have h2 : ((ph k).held ++ xs k).countP (Element.names sm) ≤ _ := countP_le_length
    have h3 := hq.fits
    have h4 := hq.size_le
    rw [UInt32.toNat_add, show (1 : UInt32).toNat = 1 from rfl]
    exact Nat.mod_eq_of_lt (by omega)
  have hsm : ∀ sm', ((Events.enqueue w k sm evt).sms sm').evtq = (w.sms sm').evtq ∧
      ((Events.enqueue w k sm evt).sms sm').evtCount.toNat =
        (w.sms sm').evtCount.toNat + if sm = sm' then 1 else 0 := fun sm' => by
    unfold Events.enqueue
    rw [setSm_sms, setEvtq_sms]
    by_cases hc : sm' = sm
    · subst hc
      rw [update_self, if_pos rfl]
      exact ⟨rfl, hcount⟩
    · rw [update_of_ne hc, if_neg (Ne.symm hc)]
      exact ⟨rfl, rfl⟩
  have hxs : ∀ k' sm', (w.sms sm').evtq = some k' →
      ((ph k').held ++ Function.update xs k (xs k ++ [(⟨some sm, evt⟩ : Element σ)]) k').countP (Element.names sm') =
        ((ph k').held ++ xs k').countP (Element.names sm') + if sm = sm' then 1 else 0 := fun k' sm' hk' => by
    by_cases hc : k' = k
    · subst hc
      rw [update_self, ← append_assoc, countP_concat]
    · have hne : sm ≠ sm' := fun he => hc (some.inj (hk'.symm.trans (he ▸ hk)))
      rw [update_of_ne hc, if_neg hne, add_zero]
  refine ⟨fun k' => ?_, fun k' e he sm' hn => ?_, fun sm' k' hst hk' => ?_, fun sm' k' hst hk' => ?_⟩
  · unfold Events.enqueue
    rw [setSm_evtqs, setEvtq_evtqs]
    by_cases hc : k' = k
    · subst hc
      rw [update_self, update_self]
      exact hq.put hroom sm evt htick
    · rw [update_of_ne hc, update_of_ne hc]
      exact h.queue k'
  · rw [(hsm sm').1]
    by_cases hc : k' = k
    · subst hc
      rw [update_self, ← append_assoc] at he
      rcases mem_append.mp he with he | he
      · exact h.bound k' e he sm' hn
      · rw [mem_singleton.mp he] at hn
        obtain rfl : sm = sm' := some.inj hn
        exact ⟨hk, by rw [hs]; decide⟩
    · rw [update_of_ne hc] at he
      exact h.bound k' e he sm' hn
  · rw [(hsm sm').1] at hk'
    rw [hxs k' sm' hk', (hsm sm').2]
    have := h.count_le sm' k' hst hk'
    omega
  · rw [(hsm sm').1] at hk'
    rw [hxs k' sm' hk', (hsm sm').2]
    have := h.count sm' k' hst hk'
    omega

theorem Inv.post (h : Inv w ph st xs) {cur : Option κ} {sm : σ} {evt : Evt} {o : Outcome σ κ}
    (hs : st sm = .live) (ho : PostCase w cur sm evt o) : ∃ xs', Inv o.world ph st xs' := by
  cases ho with
  | refused err _ => exact ⟨xs, h⟩
  | coalesced _ => exact ⟨xs, h⟩
  | called _ => exact ⟨xs, h⟩
  | queued k hk hroom htick => exact ⟨_, h.enqueue hs hk hroom htick⟩

/-- The rings after `vsfsm_fini(sm)`. -/
def finiRings (w : World σ κ) (sm : σ) (xs : κ → List (Element σ)) : κ → List (Element σ) :=
  match (w.sms sm).evtq with
  | none => xs
  | some k => Function.update xs k ((w.evtqs k).finiRing sm (xs k))

theorem countP_finiRing (q : Evtq σ) {sm sm' : σ} (hne : sm' ≠ sm) (ys : List (Element σ)) :
    (q.finiRing sm ys).countP (Element.names sm') = ys.countP (Element.names sm') := by
  unfold finiRing
  split_ifs
  · rfl
  · rw [Element.countP_clear, if_neg hne]

theorem countP_finiRing_le (q : Evtq σ) (sm : σ) (ys : List (Element σ)) :
    (q.finiRing sm ys).countP (Element.names sm) ≤ ys.countP (Element.names sm) := by
  unfold finiRing
  split_ifs
  · exact le_rfl
  · rw [Element.countP_clear, if_pos rfl]
    exact Nat.zero_le _

variable {sm sm' : σ} {e : Element σ}

theorem mem_finiRing (he : e ∈ q.finiRing sm ys) (hn : e.sm = some sm') : ∃ e' ∈ ys, e'.sm = some sm' := by
  unfold finiRing at he
  split_ifs at he
  · exact ⟨e, he, hn⟩
  · obtain ⟨e', he', rfl⟩ := List.mem_map.mp he
    refine ⟨e', he', ?_⟩
    unfold Element.clear at hn
    split_ifs at hn
    exact hn

theorem mem_finiRings (he : e ∈ finiRings w sm xs k) (hn : e.sm = some sm') :
    ∃ e' ∈ xs k, e'.sm = some sm' := by
  unfold finiRings at he
  rcases hk : (w.sms sm).evtq with _ | k' <;> rw [hk] at he
  · exact ⟨e, he, hn⟩
  · dsimp only at he
    by_cases hc : k = k'
    · subst hc
      rw [update_self] at he
      exact mem_finiRing he hn
    · rw [update_of_ne hc] at he
      exact ⟨e, he, hn⟩

theorem Inv.fini (h : Inv w ph st xs) (sm : σ) : ∃ w', w.fini sm = some w' ∧ w'.sms = w.sms ∧
      Inv w' ph (Function.update st sm .finalised) (finiRings w sm xs) := by
  have hst : ∀ sm', Function.update st sm .finalised sm' ≠ .fresh → sm' ≠ sm → st sm' ≠ .fresh := fun sm' h1 h2 => by
    rwa [update_of_ne h2] at h1
  unfold World.fini finiRings
  rcases hk : (w.sms sm).evtq with _ | k
  · -- nothing is bound to the null queue
    refine ⟨w, rfl, rfl, h.queue, fun k e he sm' hn => ?_, fun sm' k hs hk' => ?_, fun sm' k hs hk' => ?_⟩
    · obtain ⟨h1, h2⟩ := h.bound k e he sm' hn
      have hne : sm' ≠ sm := fun hc => by rw [hc, hk] at h1; cases h1
      exact ⟨h1, by rw [update_of_ne hne]; exact h2⟩
    · have hne : sm' ≠ sm := fun hc => by rw [hc, hk] at hk'; cases hk'
      exact h.count_le sm' k (hst sm' hs hne) hk'
    · have hne : sm' ≠ sm := fun hc => by rw [hc, hk] at hk'; cases hk'
      rw [update_of_ne hne] at hs
      exact h.count sm' k hs hk'
  · dsimp only
    obtain ⟨queue', hq1, hq2⟩ := (h.queue k).fini sm
    have hcount : ∀ k' sm', sm' ≠ sm →
        ((ph k').held ++ Function.update xs k ((w.evtqs k).finiRing sm (xs k)) k').countP (Element.names sm') =
          ((ph k').held ++ xs k').countP (Element.names sm') := fun k' sm' hne => by
      by_cases hc : k' = k
      · subst hc
        rw [update_self, countP_append, countP_append, countP_finiRing _ hne]
      · rw [update_of_ne hc]
    refine ⟨w.setEvtq k { w.evtqs k with queue := queue' }, ?_, rfl, fun k' => ?_, fun k' e he sm' hn => ?_,
      fun sm' k' hs hk' => ?_, fun sm' k' hs hk' => ?_⟩
    · simp only [hq1, map_some]
    · by_cases hc : k' = k
      · subst hc
        rw [setEvtq_evtqs, update_self, update_self]
        exact hq2
      · rw [setEvtq_evtqs, update_of_ne hc, update_of_ne hc]
        exact h.queue k'
    · have hold : ∃ e' ∈ (ph k').flight ++ xs k', e'.sm = some sm' := by
        by_cases hc : k' = k
        · subst hc
          rw [update_self] at he
          rcases mem_append.mp he with he | he
          · exact ⟨e, mem_append_left _ he, hn⟩
          · obtain ⟨e', he', hn'⟩ := mem_finiRing he hn
            exact ⟨e', mem_append_right _ he', hn'⟩
        · rw [update_of_ne hc] at he
          exact ⟨e, he, hn⟩
      obtain ⟨e', he', hn'⟩ := hold
      obtain ⟨h1, h2⟩ := h.bound k' e' he' sm' hn'
      refine ⟨h1, fun hc => ?_⟩
      by_cases hne : sm' = sm
      · rw [hne, update_self] at hc
        cases hc
      · rw [update_of_ne hne] at hc
        exact h2 hc
    · by_cases hne : sm' = sm
      · subst hne
        obtain rfl : k' = k := some.inj (hk'.symm.trans hk)
        by_cases hf : st sm' = .fresh
        · have h0 := h.fresh_count hf k'
          rw [countP_append] at h0
          rw [update_self, countP_append]
          have := countP_finiRing_le (w.evtqs k') sm' (xs k')
          omega
        · have h1 := h.count_le sm' k' hf hk'
          rw [countP_append] at h1
          rw [update_self, countP_append]
          have := countP_finiRing_le (w.evtqs k') sm' (xs k')
          simp only [setEvtq_sms]
          omega
      · rw [hcount k' sm' hne]
        exact h.count_le sm' k' (hst sm' hs hne) hk'
    · have hne : sm' ≠ sm := fun hc => by
        rw [hc, update_self] at hs
        cases hs
      rw [update_of_ne hne] at hs
      rw [hcount k' sm' hne]
      exact h.count sm' k' hs hk'

omit [DecidableEq κ] in
/-- A part of a poll iteration that takes nothing off the counters. -/
theorem Inv.poll (h : Inv w ph st xs) {w' : World σ κ} {ph' : κ → Phase σ} {xs' : κ → List (Element σ)}
    (hq : ∀ k, QInv (w'.evtqs k) (ph' k) (xs' k)) (hsm : w'.sms = w.sms)
    (hp : ∀ k, (ph' k).held ++ xs' k = (ph k).held ++ xs k)
    (hf : ∀ k, ∀ e ∈ (ph' k).flight ++ xs' k, e ∈ (ph k).flight ++ xs k) : Inv w' ph' st xs' where
  queue := hq
  bound k e he sm hn := by
    rw [hsm]
    exact h.bound k e (hf k e he) sm hn
  count_le sm k hs hk := by
    rw [hsm] at hk ⊢
    rw [hp]
    exact h.count_le sm k hs hk
  count sm k hs hk := by
    rw [hsm] at hk ⊢
    rw [hp]
    exact h.count sm k hs hk

theorem Inv.fetch (h : Inv w ph st xs) {k : κ} (hk : ph k = .idle) (hne : (w.evtqs k).evtCount ≠ 0) :
    ∃ ys, xs k = (w.pollFetch k).1 :: ys ∧
      Inv (w.pollFetch k).2 (Function.update ph k (.fetched (w.pollFetch k).1)) st (Function.update xs k ys) := by
  have hq := h.queue k
  rw [hk] at hq
  obtain ⟨ys, hys, hq'⟩ := hq.fetch hne
  refine ⟨ys, hys, h.poll (fun k' => ?_) rfl (fun k' => ?_) fun k' e he => ?_⟩
  · unfold World.pollFetch
    rw [setEvtq_evtqs]
    by_cases hc : k' = k
    · subst hc
      rw [update_self, update_self, update_self]
      exact hq'
    · rw [update_of_ne hc, update_of_ne hc, update_of_ne hc]
      exact h.queue k'
  · by_cases hc : k' = k
    · subst hc
      rw [update_self, update_self, hk, hys]
      rfl
    · rw [update_of_ne hc, update_of_ne hc]
  · by_cases hc : k' = k
    · subst hc
      rw [update_self, update_self] at he
      rw [hk, hys]
      exact he
    · rwa [update_of_ne hc, update_of_ne hc] at he

omit [DecidableEq κ] in
/-- The element about to be counted off is on all the counters. -/
theorem Inv.counted (h : Inv w ph st xs) {k : κ} {e : Element σ} (hk : ph k = .fetched e) :
    0 < (w.evtqs k).evtCount.toNat ∧ (e.evt = Evt.timer → 0 < (w.evtqs k).tickEvtCount.toNat) ∧
      ∀ sm, e.sm = some sm → 0 < (w.sms sm).evtCount.toNat := by
  have hq := h.queue k
  have hmem : e ∈ (ph k).held ++ xs k := by rw [hk]; exact mem_cons_self
  refine ⟨?_, fun ht => ?_, fun sm hn => ?_⟩
  · rw [hq.count]
    exact length_pos_of_mem hmem
  · rw [hq.tick]
    exact countP_pos_iff.mpr ⟨e, hmem, by simpa [Element.isTimer] using ht⟩
  · obtain ⟨h1, h2⟩ := h.bound k e (Phase.mem_flight hmem) sm hn
    have h3 := h.count_le sm k h2 h1
    have h4 : 0 < ((ph k).held ++ xs k).countP (Element.names sm) :=
      countP_pos_iff.mpr ⟨e, hmem, by simpa [Element.names] using hn⟩
    omega

theorem Inv.retire (h : Inv w ph st xs) {k : κ} {e : Element σ} (hk : ph k = .fetched e) :
    Inv (w.pollRetire k e) (Function.update ph k (.retired e)) st xs := by
  have hq := h.queue k
  rw [hk] at hq
  have hq' := hq.retire
  -- the counters of the state machines
  have hsm : ∀ sm, ((w.pollRetire k e).sms sm).evtq = (w.sms sm).evtq ∧
      (w.sms sm).evtCount.toNat =
        ((w.pollRetire k e).sms sm).evtCount.toNat + if e.sm = some sm then 1 else 0 := fun sm => by
    unfold World.pollRetire
    rw [setEvtq_sms]
    rcases he : e.sm with _ | sm'
    · simp
    · have hpos := (h.counted hk).2.2 sm' he
      simp only [setSm_sms]
      by_cases hc : sm = sm'
      · subst hc
        rw [update_self, if_pos rfl]
        refine ⟨rfl, ?_⟩
        rw [UInt32.toNat_sub_of_le _ _ (UInt32.le_iff_toNat_le.mpr (by rw [UInt32.toNat_one]; exact hpos))]
        simp only [UInt32.toNat_one]
        omega
      · rw [update_of_ne hc, if_neg fun hs => hc (some.inj hs).symm]
        exact ⟨rfl, rfl⟩
  have hev : ∀ k', (w.pollRetire k e).evtqs k' = if k' = k then
      (if e.evt = Evt.timer then { w.evtqs k with
          evtCount := (w.evtqs k).evtCount - 1, tickEvtCount := (w.evtqs k).tickEvtCount - 1 }
        else { w.evtqs k with evtCount := (w.evtqs k).evtCount - 1 }) else w.evtqs k' := fun k' => by
    unfold World.pollRetire
    rw [setEvtq_evtqs]
    by_cases hc : k' = k
    · subst hc
      rw [update_self, if_pos rfl]
      rcases e.sm with _ | sm' <;> rfl
    · rw [update_of_ne hc, if_neg hc]
      rcases e.sm with _ | sm' <;> rfl
  have hheld : ∀ k' sm, ((ph k').held ++ xs k').countP (Element.names sm) =
      ((Function.update ph k (.retired e) k').held ++ xs k').countP (Element.names sm) +
        if k' = k ∧ e.sm = some sm then 1 else 0 := fun k' sm => by
    by_cases hc : k' = k
    · subst hc
      rw [update_self, hk]
      simp [Phase.held, countP_cons, Element.names]
    · rw [update_of_ne hc, if_neg fun hs => hc hs.1, add_zero]
  have hsub : ∀ k', ∀ e' ∈ (Function.update ph k (.retired e) k').flight ++ xs k', e' ∈ (ph k').flight ++ xs k' :=
    fun k' e' he' => by
      by_cases hc : k' = k
      · subst hc
        rw [update_self] at he'
        rw [hk]
        exact he'
      · rwa [update_of_ne hc] at he'
  have hbound : ∀ {sm k'}, (w.sms sm).evtq = some k' → e.sm = some sm → k' = k := fun {sm k'} h1 h2 => by
    have := (h.bound k e (by rw [hk]; exact mem_cons_self) sm h2).1
    exact some.inj (h1.symm.trans this)
  refine ⟨fun k' => ?_, fun k' e' he' sm hn => ?_, fun sm k' hs hk' => ?_, fun sm k' hs hk' => ?_⟩
  · rw [hev k']
    by_cases hc : k' = k
    · subst hc
      rw [if_pos rfl, update_self]
      exact hq'
    · rw [if_neg hc, update_of_ne hc]
      exact h.queue k'
  · rw [(hsm sm).1]
    exact h.bound k' e' (hsub k' e' he') sm hn
  · rw [(hsm sm).1] at hk'
    have h1 := h.count_le sm k' hs hk'
    rw [hheld k' sm, (hsm sm).2] at h1
    by_cases he : e.sm = some sm
    · rw [if_pos ⟨hbound hk' he, he⟩, if_pos he] at h1
      omega
    · rw [if_neg fun hc => he hc.2, if_neg he] at h1
      exact h1
  · rw [(hsm sm).1] at hk'
    have h1 := h.count sm k' hs hk'
    rw [hheld k' sm, (hsm sm).2] at h1
    by_cases he : e.sm = some sm
    · rw [if_pos he, if_pos ⟨hbound hk' he, he⟩] at h1
      omega
    · rw [if_neg he, if_neg fun hc => he hc.2] at h1
      exact h1

theorem Inv.dispatch (h : Inv w ph st xs) {k : κ} {e : Element σ} (hk : ph k = .retired e) :
    Inv w (Function.update ph k .idle) st xs := by
  refine h.poll (fun k' => ?_) rfl (fun k' => ?_) fun k' e' he' => ?_
  · by_cases hc : k' = k
    · subst hc
      have hq := h.queue k'
      rw [hk] at hq
      rw [update_self]
      exact hq.dispatch
    · rw [update_of_ne hc]
      exact h.queue k'
  · by_cases hc : k' = k
    · subst hc
      rw [update_self, hk]
      rfl
    · rw [update_of_ne hc]
  · by_cases hc : k' = k
    · subst hc
      rw [update_self] at he'
      exact mem_append_right _ he'
    · rwa [update_of_ne hc] at he'

end

/-! ### Runs -/

theorem start_inv (h : (system σ κ).start s) : Inv s.world s.phase s.status fun _ => [] := by
  obtain ⟨hq, hp, hs, -, -⟩ := h
  refine ⟨fun k => ?_, fun k e he => ?_, fun sm k hst => absurd (hs sm) hst, fun sm k hst => ?_⟩
  · obtain ⟨h1, h2, h3, h4, h5, h6⟩ := hq k
    rw [hp k]
    exact ⟨h1, h2, by omega, Nat.zero_le _, by rw [h3, h4]; exact (Nat.zero_mod _).symm, rfl, by rw [h5]; rfl,
      by rw [h6]; rfl, Nat.zero_le _⟩
  · rw [hp k] at he
    cases he
  · rw [hs sm] at hst
    cases hst

/-- **Every step keeps the counters.** -/
theorem step_inv {s' : State σ κ} {op : Op σ κ} {xs : κ → List (Element σ)} (h : Inv s.world s.phase s.status xs)
    (hl : legal s op) (hs : step s op = some s') : ∃ xs', Inv s'.world s'.phase s'.status xs' := by
  cases op with
  | init cur sm =>
    obtain rfl := some.inj hs
    exact ⟨xs, h.init hl cur⟩
  | post cur sm evt =>
    obtain rfl := some.inj hs
    exact h.post hl (postEvt_cases s.world cur sm evt)
  | postPending sm evt =>
    obtain rfl := some.inj hs
    exact h.post hl (postEvtPending_cases s.world sm evt)
  | fini sm =>
    obtain ⟨w', hw, -, hi⟩ := h.fini sm
    simp only [step, hw, map_some, Option.some.injEq] at hs
    subst hs
    exact ⟨_, hi⟩
  | fetch k =>
    unfold step at hs
    rcases hk : s.phase k with _ | e | e <;> simp only [hk, reduceCtorEq] at hs
    split_ifs at hs with h0
    obtain rfl := some.inj hs
    obtain ⟨ys, -, hi⟩ := h.fetch hk h0
    exact ⟨_, hi⟩
  | retire k =>
    unfold step at hs
    rcases hk : s.phase k with _ | e | e <;> simp only [hk, reduceCtorEq] at hs
    obtain rfl := some.inj hs
    exact ⟨xs, h.retire hk⟩
  | dispatch k =>
    unfold step at hs
    rcases hk : s.phase k with _ | e | e <;> simp only [hk, reduceCtorEq] at hs
    obtain rfl := some.inj hs
    exact ⟨xs, h.dispatch hk⟩

theorem reach_inv (h : (system σ κ).Reach s) : ∃ xs, Inv s.world s.phase s.status xs := by
  apply h.invariant (P := fun s => ∃ xs, Inv s.world s.phase s.status xs)
  · intro s hs
    exact ⟨_, start_inv hs⟩
  · intro s op s' _ ⟨xs, hi⟩ ⟨hl, hs⟩
    exact step_inv hi hl hs

/-! ### The ring between the pointers -/

/-- The slots from `head` to `tail`; twice the same is empty or full. -/
def span (q : Evtq σ) (empty : Bool) : ℕ :=
  if q.head < q.tail then q.tail - q.head
  else if q.head = q.tail ∧ empty then 0
  else q.size - (q.head - q.tail)

/-- The elements of the queue `k` from `head` to `tail`. -/
def State.ring (s : State σ κ) (k : κ) : List (Element σ) :=
  let q := s.world.evtqs k
  contents q.queue q.size q.head (span q (q.evtCount.toNat = (s.phase k).held.length))

omit [DecidableEq σ] in
theorem span_eq {ph : Phase σ} (h : QInv q ph ys) : span q (q.evtCount.toNat = ph.held.length) = ys.length := by
  have h1 := h.head_lt
  have h2 := h.fits
  have h3 := h.tail
  have h4 := h.count
  rw [length_append] at h2 h4
  rw [mod_wrap (by omega)] at h3
  unfold span
  simp only [h4, decide_eq_true_eq]
  split_ifs at h3 ⊢ <;> omega

omit [DecidableEq σ] [DecidableEq κ] in
theorem ring_eq (h : QInv (s.world.evtqs k) (s.phase k) ys) : s.ring k = ys := by
  unfold State.ring
  dsimp only
  rw [span_eq h, h.ring]

/-- What the counters say about the ring. An element read and not yet taken off (`held`) is still counted. -/
structure Accounted (s : State σ κ) (k : κ) : Prop where
  evtCount : (s.world.evtqs k).evtCount.toNat = ((s.phase k).held ++ s.ring k).length
  le_size : ((s.phase k).held ++ s.ring k).length ≤ (s.world.evtqs k).size
  smCount : ∀ sm, s.status sm = .live → (s.world.sms sm).evtq = some k →
    (s.world.sms sm).evtCount.toNat = ((s.phase k).held ++ s.ring k).countP (Element.names sm)
  tick : (s.world.evtqs k).tickEvtCount.toNat = ((s.phase k).held ++ s.ring k).countP Element.isTimer
  tick_le : (s.world.evtqs k).tickEvtCount.toNat ≤ 1
  noUnderflow : ∀ e, s.phase k = .fetched e → 0 < (s.world.evtqs k).evtCount.toNat ∧
    (e.evt = Evt.timer → 0 < (s.world.evtqs k).tickEvtCount.toNat) ∧
    ∀ sm, e.sm = some sm → 0 < (s.world.sms sm).evtCount.toNat

/-- **The counters are exact** in every state of every run: the events, those of each live state machine,
and the ticks, at most 1; none is 0 when decremented. -/
theorem accounting {s : State σ κ} (h : (system σ κ).Reach s) (k : κ) : Accounted s k := by
  obtain ⟨xs, hi⟩ := reach_inv h
  have hq := hi.queue k
  have hr := ring_eq hq
  refine ⟨?_, ?_, fun sm hs hk => ?_, ?_, ?_, fun e he => hi.counted he⟩
  · rw [hr]; exact hq.count
  · rw [hr]; exact hq.fits
  · rw [hr]; exact hi.count sm k hs hk
  · rw [hr]; exact hq.tick
  · rw [hq.tick]; exact hq.tick_le

/-- One queue of two slots and two state machines. -/
def exampleStart : State Bool Unit where
  world := ⟨fun _ => ⟨2, fun _ => ⟨none, 0⟩, 0, 0, 0, 0⟩, fun _ => ⟨none, 0⟩⟩
  phase := fun _ => .idle
  status := fun _ => .fresh
  posted := []
  handled := []

theorem exampleStart_start : (system Bool Unit).start exampleStart :=
  ⟨fun _ => ⟨one_le_two, by simp [exampleStart], rfl, rfl, rfl, rfl⟩, fun _ => rfl, fun _ => rfl, rfl, rfl⟩

/-- Runs of `ops`, `none` when one is not possible. -/
def runOps (s : State σ κ) : List (Op σ κ) → Option (State σ κ)
  | [] => some s
  | op :: ops => (step s op).bind fun s' => runOps s' ops

/-- A state machine of the queue, and a tick posted to it from elsewhere. -/
def exampleState : State Bool Unit :=
  (runOps exampleStart [.init (some ()) true, .post none true Evt.timer]).getD exampleStart

theorem exampleState_reach : (system Bool Unit).Reach exampleState :=
  .step (i := .post none true Evt.timer) (.step (i := .init (some ()) true) (.start exampleStart_start) ⟨rfl, rfl⟩)
    ⟨rfl, rfl⟩

theorem accounting_example : Accounted exampleState () ∧ exampleState.ring () = [⟨some true, Evt.timer⟩] :=
  ⟨accounting exampleState_reach (), by decide +kernel⟩

end Events
end Vsf
