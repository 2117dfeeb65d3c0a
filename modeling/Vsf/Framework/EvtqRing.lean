/-
# An event queue as a list of elements

The ring of a queue is a list of elements. A poll iteration that has not yet taken its element off
the counters holds one more (`Phase.held`), and the counters count both (`QInv`). A post adds at the
end, a fetch takes the first, and `vsfsm_fini` clears those of its state machine, unless the ring is
full.
-/
import Mathlib
import Vsf.Lib.RingBuf
import Vsf.Framework.Evtq

namespace Vsf

open RingBuf List Function

variable {σ : Type*}

/-- Where the poll loop stands: between iterations, with an element still counted, or with one counted off
and not yet handled. -/
inductive Phase (σ : Type*) where
  | idle
  | fetched (tmp : Element σ)
  | retired (tmp : Element σ)

variable {e : Element σ}

namespace Phase

/-- What is on the counters and not in the ring. -/
def held : Phase σ → List (Element σ)
  | .fetched e => [e]
  | _ => []

/-- What is off the ring and not yet given to its handler. -/
def flight : Phase σ → List (Element σ)
  | .idle => []
  | .fetched e => [e]
  | .retired e => [e]

theorem mem_flight {ph : Phase σ} {ys : List (Element σ)} (h : e ∈ ph.held ++ ys) : e ∈ ph.flight ++ ys := by
  cases ph with
  | idle => exact h
  | fetched e' => exact h
  | retired e' => exact mem_append_right _ h

end Phase

namespace Element

/-- The element is a timer tick. -/
def isTimer (e : Element σ) : Bool := e.evt = Evt.timer

variable [DecidableEq σ]

/-- The element is for `sm`. -/
def names (sm : σ) (e : Element σ) : Bool := e.sm = some sm

/-- What `vsfsm_fini` writes. -/
def clear (sm : σ) (e : Element σ) : Element σ := if e.sm = some sm then { e with sm := none } else e

theorem clear_evt (sm : σ) (e : Element σ) : (e.clear sm).evt = e.evt := by
  unfold clear; split_ifs <;> rfl

theorem clear_of_ne {sm : σ} (h : e.sm ≠ some sm) : e.clear sm = e := if_neg h

theorem names_clear_self (sm : σ) (e : Element σ) : (e.clear sm).names sm = false := by
  unfold clear names
  split_ifs with h <;> simp [h]

theorem names_clear_of_ne {sm sm' : σ} (hne : sm' ≠ sm) (e : Element σ) :
    (e.clear sm).names sm' = e.names sm' := by
  unfold clear names
  split_ifs with h
  · simp [h, hne.symm]
  · rfl

/-- A cleared list names the others as often as before, and `sm` never. -/
theorem countP_clear (sm sm' : σ) (xs : List (Element σ)) :
    (xs.map (clear sm)).countP (names sm') = if sm' = sm then 0 else xs.countP (names sm') := by
  rw [countP_map]
  split_ifs with h
  · subst h
    exact countP_eq_zero.mpr fun e _ => by simp [names_clear_self]
  · exact countP_congr fun e _ => by simp [names_clear_of_ne h]

theorem countP_timer_clear (sm : σ) (xs : List (Element σ)) :
    (xs.map (clear sm)).countP isTimer = xs.countP isTimer := by
  rw [countP_map]
  exact countP_congr fun e _ => by simp [isTimer, clear_evt]

end Element

namespace Evtq

/-- The queue holds `xs` in its ring, and `ph.held ++ xs` on its counters. -/
structure QInv (q : Evtq σ) (ph : Phase σ) (xs : List (Element σ)) : Prop where
  size_pos : 0 < q.size
  size_le : q.size ≤ 65535
  head_lt : q.head < q.size
  fits : (ph.held ++ xs).length ≤ q.size
  tail : q.tail = (q.head + xs.length) % q.size
  ring : contents q.queue q.size q.head xs.length = xs
  count : q.evtCount.toNat = (ph.held ++ xs).length
  tick : q.tickEvtCount.toNat = (ph.held ++ xs).countP Element.isTimer
  tick_le : (ph.held ++ xs).countP Element.isTimer ≤ 1

section
variable {q : Evtq σ} {ph : Phase σ} {xs : List (Element σ)}

theorem next_eq {i : ℕ} (h : i < q.size) : q.next i = (i + 1) % q.size := by
  unfold next
  split_ifs with h1
  · rw [h1, Nat.sub_add_cancel (by omega), Nat.mod_self]
  · rw [Nat.mod_eq_of_lt (by omega)]

theorem QInv.tail_lt (h : QInv q ph xs) : q.tail < q.size := by
  rw [h.tail]
  exact Nat.mod_lt _ h.size_pos

/-- **A post adds its element at the end of the ring.** -/
theorem QInv.put (h : QInv q ph xs) (hroom : q.evtCount.toNat < q.size) (sm : σ) (evt : Evt)
    (htick : evt = Evt.timer → q.tickEvtCount = 0) :
    QInv (Evtq.put (if evt = Evt.timer then { q with tickEvtCount := q.tickEvtCount + 1 } else q) sm evt) ph
      (xs ++ [⟨some sm, evt⟩]) := by
  have hlen := h.count
  have hle := h.size_le
  have hxs : xs.length < q.size := by rw [length_append] at hlen; omega
  have hcount : (q.evtCount + 1).toNat = (ph.held ++ (xs ++ [(⟨some sm, evt⟩ : Element σ)])).length := by
    have h1 : (1 : UInt16).toNat = 1 := rfl
    have h2 : (ph.held ++ (xs ++ [(⟨some sm, evt⟩ : Element σ)])).length = (ph.held ++ xs).length + 1 := by
      rw [← append_assoc, length_append, length_singleton]
    rw [UInt16.toNat_add, hlen, h1, h2]
    exact Nat.mod_eq_of_lt (by omega)
  have hset : contents (Function.update q.queue q.tail ⟨some sm, evt⟩) q.size q.head
      (xs ++ [(⟨some sm, evt⟩ : Element σ)]).length = xs ++ [⟨some sm, evt⟩] := by
    rw [length_append, length_singleton, h.tail, contents_set _ _ hxs, h.ring]
  have htail : q.next q.tail = (q.head + (xs ++ [(⟨some sm, evt⟩ : Element σ)]).length) % q.size := by
    rw [next_eq h.tail_lt, h.tail, Nat.mod_add_mod, length_append, length_singleton, add_assoc]
  have hfits : (ph.held ++ (xs ++ [(⟨some sm, evt⟩ : Element σ)])).length ≤ q.size := by
    rw [← append_assoc, length_append, length_singleton]
    omega
  have htimer : (ph.held ++ (xs ++ [(⟨some sm, evt⟩ : Element σ)])).countP Element.isTimer =
      (ph.held ++ xs).countP Element.isTimer + if evt = Evt.timer then 1 else 0 := by
    rw [← append_assoc, countP_append, countP_singleton]
    simp [Element.isTimer]
  by_cases ht : evt = Evt.timer
  · have h0 : (ph.held ++ xs).countP Element.isTimer = 0 := by
      rw [← h.tick, htick ht]
      rfl
    rw [if_pos ht]
    refine ⟨h.size_pos, hle, h.head_lt, hfits, htail, hset, hcount, ?_, ?_⟩
    · rw [htimer, h0, if_pos ht]
      change (q.tickEvtCount + 1).toNat = 1
      rw [htick ht]
      rfl
    · rw [htimer, h0, if_pos ht]
  · rw [if_neg ht]
    refine ⟨h.size_pos, hle, h.head_lt, hfits, htail, hset, hcount, ?_, ?_⟩
    · rw [htimer, if_neg ht]
      exact h.tick
    · rw [htimer, if_neg ht]
      exact h.tick_le

/-- **A fetch takes the first element of the ring.** -/
theorem QInv.fetch (h : QInv q .idle xs) (hne : q.evtCount ≠ 0) : ∃ ys, xs = q.queue q.head :: ys ∧
      QInv { q with head := q.next q.head } (.fetched (q.queue q.head)) ys := by
  rcases xs with _ | ⟨e, ys⟩
  · exact absurd (UInt16.toNat_inj.mp h.count) hne
  · have hring := h.ring
    rw [length_cons, contents_cons, Nat.mod_eq_of_lt h.head_lt] at hring
    obtain ⟨he, hys⟩ := List.cons.inj hring
    refine ⟨ys, by rw [he], h.size_pos, h.size_le, ?_, ?_, ?_, ?_, ?_, ?_, ?_⟩
    · change q.next q.head < q.size
      rw [next_eq h.head_lt]
      exact Nat.mod_lt _ h.size_pos
    · simpa [Phase.held] using h.fits
    · change q.tail = (q.next q.head + ys.length) % q.size
      rw [h.tail, next_eq h.head_lt, Nat.mod_add_mod, length_cons, add_assoc, add_comm 1]
    · change contents q.queue q.size (q.next q.head) ys.length = ys
      rw [next_eq h.head_lt, contents_mod, hys]
    · simpa [Phase.held] using h.count
    · have ht := h.tick
      rw [← he] at ht
      exact ht
    · have ht := h.tick_le
      rw [← he] at ht
      exact ht

/-- **The counters go down by the element that was fetched.** -/
theorem QInv.retire (h : QInv q (.fetched e) xs) :
    QInv (if e.evt = Evt.timer then { q with evtCount := q.evtCount - 1, tickEvtCount := q.tickEvtCount - 1 }
      else { q with evtCount := q.evtCount - 1 }) (.retired e) xs := by
  have hc : q.evtCount.toNat = xs.length + 1 := by simpa [Phase.held] using h.count
  have hcount : (q.evtCount - 1).toNat = xs.length := by
    rw [UInt16.toNat_sub_of_le _ _ (UInt16.le_iff_toNat_le.mpr (by rw [hc]; simp))]
    rw [hc]
    simp
  have hfits : xs.length ≤ q.size := by
    have := h.fits
    simp only [Phase.held, singleton_append, length_cons] at this
    omega
  have htick : q.tickEvtCount.toNat = xs.countP Element.isTimer + if e.evt = Evt.timer then 1 else 0 := by
    rw [h.tick, Phase.held, singleton_append, countP_cons]
    simp [Element.isTimer]
  have hle := h.tick_le
  rw [Phase.held, singleton_append, countP_cons] at hle
  split_ifs with ht
  · rw [if_pos ht] at htick
    refine ⟨h.size_pos, h.size_le, h.head_lt, hfits, h.tail, h.ring, hcount, ?_, by simp only [Phase.held, nil_append]; omega⟩
    change (q.tickEvtCount - 1).toNat = xs.countP Element.isTimer
    rw [UInt16.toNat_sub_of_le _ _ (UInt16.le_iff_toNat_le.mpr (by rw [htick]; simp)), htick]
    simp
  · rw [if_neg ht] at htick
    exact ⟨h.size_pos, h.size_le, h.head_lt, hfits, h.tail, h.ring, hcount, htick, by simp only [Phase.held, nil_append]; omega⟩

theorem QInv.dispatch (h : QInv q (.retired e) xs) : QInv q .idle xs :=
  ⟨h.size_pos, h.size_le, h.head_lt, h.fits, h.tail, h.ring, h.count, h.tick, h.tick_le⟩

/-- `head` and `tail` are the same slot for an empty ring and for a full one. -/
theorem QInv.head_eq_tail_iff (h : QInv q ph xs) : q.head = q.tail ↔ xs = [] ∨ xs.length = q.size := by
  have hfits : xs.length ≤ q.size := by
    have := h.fits
    rw [length_append] at this
    omega
  constructor
  · intro he
    by_contra hc
    obtain ⟨h1, h2⟩ := not_or.mp hc
    have h3 : (q.head + 0) % q.size = (q.head + xs.length) % q.size := by
      rw [add_zero, Nat.mod_eq_of_lt h.head_lt, ← h.tail, he]
    have := slot_inj h.size_pos (by omega) h3
    exact h1 (length_eq_zero_iff.mp this.symm)
  · rintro (rfl | he)
    · rw [h.tail, length_nil, add_zero, Nat.mod_eq_of_lt h.head_lt]
    · rw [h.tail, he, Nat.add_mod_right, Nat.mod_eq_of_lt h.head_lt]

/-! ### The walk of vsfsm_fini -/

variable [DecidableEq σ]

/-- From `start` the walk clears the `d` slots up to `tail`. -/
theorem finiLoop_spec (sm : σ) : ∀ (f d : ℕ) (queue : ℕ → Element σ) (start : ℕ), d < f → d < q.size →
    start < q.size → q.tail = (start + d) % q.size →
    ∃ queue', q.finiLoop sm f queue start = some queue' ∧
      (∀ j < d, queue' ((start + j) % q.size) = (queue ((start + j) % q.size)).clear sm) ∧
      ∀ i, (∀ j < d, i ≠ (start + j) % q.size) → queue' i = queue i := by
  intro f
  induction f with
  | zero => intro d queue start hd; omega
  | succ f ih =>
    intro d queue start hd hdq hs ht
    unfold finiLoop
    rcases d with _ | d
    · rw [add_zero, Nat.mod_eq_of_lt hs] at ht
      rw [if_pos ht.symm]
      exact ⟨queue, rfl, fun j hj => absurd hj (by omega), fun i _ => rfl⟩
    · have hne : start ≠ q.tail := fun he => by
        have h1 : (start + 0) % q.size = (start + (d + 1)) % q.size := by
          rw [add_zero, Nat.mod_eq_of_lt hs, ← ht, he]
        have := slot_inj (by omega) hdq h1
        omega
      rw [if_neg hne]
      have hnext : (if start + 1 ≥ q.size then 0 else start + 1) = (start + 1) % q.size := by
        rw [mod_wrap (by omega)]
        split_ifs <;> omega
      have hclear : (if (queue start).sm = some sm then
          Function.update queue start { queue start with sm := none } else queue) =
          Function.update queue start ((queue start).clear sm) := by
        unfold Element.clear
        split_ifs
        · rfl
        · rw [update_eq_self]
      simp only [hclear, hnext]
      obtain ⟨queue', h1, h2, h3⟩ := ih d (Function.update queue start ((queue start).clear sm))
        ((start + 1) % q.size) (by omega) (by omega) (Nat.mod_lt _ (by omega))
        (by rw [ht, Nat.mod_add_mod]; congr 1; omega)
      have hslot : ∀ j < d, ((start + 1) % q.size + j) % q.size = (start + (j + 1)) % q.size := fun j _ => by
        rw [Nat.mod_add_mod]
        congr 1
        omega
      have hfar : ∀ j < d, (start + (j + 1)) % q.size ≠ start := fun j hj he => by
        have h4 : (start + (j + 1)) % q.size = (start + 0) % q.size := by
          rw [he, add_zero, Nat.mod_eq_of_lt hs]
        have := slot_inj (by omega) (by omega) h4
        omega
      refine ⟨queue', h1, fun j hj => ?_, fun i hi => ?_⟩
      · rcases j with _ | j
        · have hstart : queue' start = (queue start).clear sm := by
            rw [h3 start fun j hj he => hfar j hj (by rw [← hslot j hj]; exact he.symm), update_self]
          rw [add_zero, Nat.mod_eq_of_lt hs, hstart]
        · rw [← hslot j (by omega), h2 j (by omega), hslot j (by omega),
            update_of_ne (hfar j (by omega))]
      · have h0 := hi 0 (by omega)
        rw [add_zero, Nat.mod_eq_of_lt hs] at h0
        rw [h3 i fun j hj he => hi (j + 1) (by omega) (he.trans (hslot j hj)), update_of_ne h0]

/-- What `vsfsm_fini` leaves of the ring; it walks nothing when `head` is `tail`. -/
def finiRing (q : Evtq σ) (sm : σ) (xs : List (Element σ)) : List (Element σ) :=
  if q.head = q.tail then xs else xs.map (Element.clear sm)

theorem finiRing_length (q : Evtq σ) (sm : σ) (xs : List (Element σ)) : (q.finiRing sm xs).length = xs.length := by
  unfold finiRing; split_ifs <;> simp

/-- **`vsfsm_fini` returns and clears the ring, unless it is full.** -/
theorem QInv.fini (h : QInv q ph xs) (sm : σ) :
    ∃ queue', q.finiLoop sm (q.size + 1) q.queue q.head = some queue' ∧
      QInv { q with queue := queue' } ph (q.finiRing sm xs) := by
  have hkeep : ∀ (queue' : ℕ → Element σ), contents queue' q.size q.head xs.length = q.finiRing sm xs →
      QInv { q with queue := queue' } ph (q.finiRing sm xs) := fun queue' hq => by
    have hcount : (ph.held ++ q.finiRing sm xs).countP Element.isTimer =
        (ph.held ++ xs).countP Element.isTimer := by
      rw [countP_append, countP_append]
      unfold finiRing
      split_ifs
      · rfl
      · rw [Element.countP_timer_clear]
    have hlen : (ph.held ++ q.finiRing sm xs).length = (ph.held ++ xs).length := by
      rw [length_append, length_append, finiRing_length]
    refine ⟨h.size_pos, h.size_le, h.head_lt, ?_, ?_, ?_, ?_, ?_, ?_⟩
    · rw [hlen]; exact h.fits
    · rw [finiRing_length]; exact h.tail
    · rw [finiRing_length]; exact hq
    · rw [hlen]; exact h.count
    · rw [hcount]; exact h.tick
    · rw [hcount]; exact h.tick_le
  by_cases he : q.head = q.tail
  · refine ⟨q.queue, if_pos he, hkeep _ ?_⟩
    unfold finiRing
    rw [if_pos he, h.ring]
  · have hlt : xs.length < q.size := by
      have h1 := mt h.head_eq_tail_iff.mpr he
      have h2 := h.fits
      rw [length_append] at h2
      omega
    obtain ⟨queue', h1, h2, -⟩ := finiLoop_spec sm (q.size + 1) xs.length q.queue q.head (by omega) hlt
      h.head_lt h.tail
    refine ⟨queue', h1, hkeep _ ?_⟩
    unfold finiRing
    rw [if_neg he]
    calc contents queue' q.size q.head xs.length
        = contents (fun i => (q.queue i).clear sm) q.size q.head xs.length := contents_congr fun j hj => h2 j hj
      _ = (contents q.queue q.size q.head xs.length).map (Element.clear sm) := contents_map _ _ _ _ _
      _ = xs.map (Element.clear sm) := by rw [h.ring]

end

end Evtq

end Vsf
