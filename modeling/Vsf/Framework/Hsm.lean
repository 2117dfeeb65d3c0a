/-
# Hierarchical state machines

`vsfsm_dispatch_evt` with `VSFSM_CFG_HSM_EN`: an event goes to the current state and, while it is
not handled, to its superstates; a taken one can name a target. The loop takes the superstate of the
current state again each time, so only the first is asked, and the states to the target are looked
for upwards from the common one. What works is `dispatch_iff`.
-/
import Mathlib
import Vsf.Lib.Ancestry
import Vsf.Framework.Evtq

namespace Vsf

open Linked List

/-- `VSFSM_EVT_LOCAL_MSK`. -/
def Evt.localMsk : Evt := 0x4000

/-- What an event handler returns: `NULL`, a state, or -1. -/
inductive Hsm.Reply (S : Type)
  | handled
  | target (t : S)
  | unhandled

/-- Why a dispatch does not come back: an endless loop, or the null pointer. -/
inductive Hsm.Stop
  | fuel
  | null
deriving DecidableEq

/-- The states of a machine, `struct vsfsm_state_t`; handlers work on its data. -/
structure Chart (S D : Type) where
  super : S → Option S
  evtHandler : S → Evt → D → Hsm.Reply S × D

/-- A machine: its state and data, and the calls of handlers so far. -/
structure Hsm (S D : Type) where
  curState : S
  data : D
  calls : List (S × Evt)

namespace Chart

open Hsm

variable {S D : Type} (c : Chart S D)

/-- `s->evt_handler(sm, evt)`. -/
def call (s : S) (evt : Evt) (m : Hsm S D) : Reply S × Hsm S D :=
  let r := c.evtHandler s evt m.data
  (r.1, { m with data := r.2, calls := m.calls ++ [(s, evt)] })

/-- A call whose result is not looked at. -/
def send (evt : Evt) (m : Hsm S D) (s : S) : Hsm S D := (c.call s evt m).2

/-- The loop of `vsfsm_dispatch_evt` over the superstates. -/
def superLoop (evt : Evt) : ℕ → Option S → Reply S → Hsm S D → Except Stop (Option S × Reply S × Hsm S D)
  | 0, _, _, _ => .error .fuel
  | f + 1, _, .unhandled, m =>
    match c.super m.curState with
    | none => superLoop evt f none .unhandled m
    | some s => superLoop evt f (some s) (c.call s evt m).1 (c.call s evt m).2
  | _ + 1, processor, r, m => .ok (processor, r, m)

section Transit

variable [DecidableEq S]

/-- The loops that send an event to each state from `temp` up to `stop`. -/
def sendUp (evt : Evt) (stop : S) : ℕ → Option S → Hsm S D → Except Stop (Hsm S D)
  | 0, _, _ => .error .fuel
  | _ + 1, none, _ => .error .null
  | f + 1, some temp, m => if temp = stop then .ok m else sendUp evt stop f (c.super temp) (c.send evt m temp)

/-- `vsfsm_is_in`. -/
def isIn (s : S) : ℕ → Option S → Except Stop Bool
  | 0, _ => .error .fuel
  | _ + 1, none => .ok false
  | f + 1, some t => if s = t then .ok true else isIn s f (c.super t)

/-- One side of the search: the state in the other's hierarchy, or what is above. -/
def lcaTry (fuel : ℕ) (other : S) : Option S → Except Stop (Bool × Option S)
  | none => .ok (false, none)
  | some s => (c.isIn s fuel (some other)).map fun found => if found then (true, some s) else (false, c.super s)

/-- The loop that finds the LCA; nothing if there is none. -/
def lcaLoop (fuel : ℕ) (processor target : S) : ℕ → Option S → Option S → Except Stop (Option S)
  | 0, _, _ => .error .fuel
  | f + 1, p, t => do
    let (found, p) ← c.lcaTry fuel target p
    if found then return p
    let (found, t) ← c.lcaTry fuel processor t
    if found then return t
    if p = none ∧ t = none then return none
    lcaLoop fuel processor target f p t

/-- The transition of `vsfsm_dispatch_evt`; `post` is that of `VSFSM_EVT_INIT`. -/
def transit (fuel : ℕ) (post : Err) (processor target : S) (m : Hsm S D) : Except Stop (Err × Hsm S D) := do
  let m ← c.sendUp .exit processor fuel (some m.curState) m
  if processor = target ∨ c.super processor = c.super target then
    return (post, { c.send .enter (c.send .exit m processor) target with curState := target })
  if c.super processor = some target then
    return (post, { c.send .exit m processor with curState := target })
  if some processor = c.super target then
    return (post, { c.send .enter m target with curState := target })
  match ← c.lcaLoop fuel processor target fuel (some processor) (some target) with
  | none => return (.bug, m)
  | some lca =>
    let m ← c.sendUp .exit lca fuel (some processor) m
    let m ← c.sendUp .enter target fuel (some lca) m
    return (post, { m with curState := target })

/-- `vsfsm_dispatch_evt` behind the loop over the superstates. -/
def settle (fuel : ℕ) (post : Err) : Option S × Reply S × Hsm S D → Except Stop (Err × Hsm S D)
  | (none, .target _, _) => .error .null
  | (some p, .target t, m) => c.transit fuel post p t m
  | (_, _, m) => .ok (.none, m)

/-- `vsfsm_dispatch_evt`. -/
def dispatchEvt (fuel : ℕ) (post : Err) (evt : Evt) (m : Hsm S D) : Except Stop (Err × Hsm S D) :=
  let r := c.call m.curState evt m
  if Evt.localMsk ≤ evt then .ok (.none, r.2)
  else c.superLoop evt fuel (some m.curState) r.1 r.2 >>= c.settle fuel post

end Transit

/-! ### What a dispatch should do -/

/-- Every state has the top state above it. -/
structure Tree (top : S) : Prop where
  super_top : c.super top = none
  path : ∀ s, ∃ xs, Chain c.super (some s) (xs ++ [top])

/-- The event is offered to states in order until one takes it. -/
def offer (evt : Evt) : List S → Hsm S D → Option (S × Reply S) × Hsm S D
  | [], m => (none, m)
  | s :: ss, m =>
    match c.call s evt m with
    | (.unhandled, m') => offer evt ss m'
    | (r, m') => (some (s, r), m')

/-- Where a transition turns: the least common ancestor; one to itself leaves and enters. -/
def Turn (p t : S) (a : Option S) : Prop :=
  p = t ∧ a = c.super p ∨ p ≠ t ∧ ∃ x, a = some x ∧ Lca c.super p t x

/-- The right result of a dispatch that offers the event to the states `path`. -/
inductive Right (evt : Evt) (path : List S) (m : Hsm S D) : Hsm S D → Prop
  | nobody {m'} (h : c.offer evt path m = (none, m')) : Right evt path m m'
  | handled {s m'} (h : c.offer evt path m = (some (s, .handled), m')) : Right evt path m m'
  | moved {p t m' a exits entries} (h : c.offer evt path m = (some (p, .target t), m')) (ha : c.Turn p t a)
      (hexit : Seg c.super (some m.curState) exits a) (hentry : Seg c.super (some t) entries a) :
      Right evt path m { entries.reverse.foldl (c.send .enter) (exits.foldl (c.send .exit) m') with curState := t }

/-- The target is the state itself, beside it, above it or directly below it. -/
def Near (p t : S) : Prop := c.super p = c.super t ∨ c.super t = some p ∨ Above c.super p t

/-- The state takes the event and stays, or its target is near. -/
def Takes (p : S) : Reply S → Prop
  | .handled => True
  | .target t => c.Near p t
  | .unhandled => False

/-- The current state or its superstate takes the event. -/
def Simple (evt : Evt) (m : Hsm S D) : Prop :=
  c.Takes m.curState (c.call m.curState evt m).1 ∨
    (c.evtHandler m.curState evt m.data).1 = .unhandled ∧ ∃ s, c.super m.curState = some s ∧
      c.Takes s (c.call s evt (c.call m.curState evt m).2).1

/-! ### Calls -/

variable {c} {s t p l : S} {evt : Evt} {m m' : Hsm S D} {xs ys es : List S} {q : Option S} {f fuel : ℕ} {post : Err} {top : S}

variable {α β : Type} {r : Reply S} {m₁ : Hsm S D}

theorem bind_ok {x : Except Stop α} {g : α → Except Stop β} {b : β} :
    (x >>= g) = .ok b ↔ ∃ a, x = .ok a ∧ g a = .ok b := by
  cases x with
  | error e => exact ⟨nofun, fun ⟨_, h, _⟩ => by cases h⟩
  | ok a => exact ⟨fun h => ⟨a, rfl, h⟩, fun ⟨_, h, h'⟩ => by cases h; exact h'⟩

@[simp] theorem call_calls : (c.call s evt m).2.calls = m.calls ++ [(s, evt)] := rfl

@[simp] theorem call_curState : (c.call s evt m).2.curState = m.curState := rfl

@[simp] theorem send_calls : (c.send evt m s).calls = m.calls ++ [(s, evt)] := rfl

@[simp] theorem send_curState : (c.send evt m s).curState = m.curState := rfl

@[simp] theorem foldl_send_curState : ∀ (xs : List S) (m : Hsm S D), (xs.foldl (c.send evt) m).curState = m.curState
  | [], _ => rfl
  | x :: xs, m => by rw [foldl_cons, foldl_send_curState xs, send_curState]

theorem foldl_send_calls : ∀ (xs : List S) (m : Hsm S D), m.calls <+: (xs.foldl (c.send evt) m).calls
  | [], _ => prefix_refl _
  | x :: xs, m => (prefix_append _ _).trans (foldl_send_calls xs (c.send evt m x))

/-! ### The loop over the superstates -/

theorem superLoop_taken (h : r ≠ .unhandled) : c.superLoop evt (f + 1) q r m = .ok (q, r, m) := by
  cases r with
  | handled => rfl
  | target t => rfl
  | unhandled => exact absurd rfl h

theorem superLoop_top (h : c.super m.curState = none) : ∀ (f : ℕ) (q : Option S), c.superLoop evt f q .unhandled m = .error .fuel
  | 0, _ => rfl
  | f + 1, q => by
    rw [superLoop, h]
    exact superLoop_top h f none

theorem superLoop_super (h : c.super m.curState = some s) :
    c.superLoop evt (f + 1) q .unhandled m = c.superLoop evt f (some s) (c.call s evt m).1 (c.call s evt m).2 := by
  rw [superLoop, h]

theorem superLoop_calls : ∀ (f : ℕ) (q : Option S) (r : Reply S) (m : Hsm S D) {a : Option S × Reply S × Hsm S D},
    c.superLoop evt f q r m = .ok a → m.calls <+: a.2.2.calls ∧ a.2.2.curState = m.curState := by
  intro f
  induction f with
  | zero => intro q r m a h; cases h
  | succ f ih =>
    intro q r m a h
    cases r with
    | handled => cases h; exact ⟨prefix_refl _, rfl⟩
    | target t => cases h; exact ⟨prefix_refl _, rfl⟩
    | unhandled =>
      cases hs : c.super m.curState with
      | none =>
        rw [superLoop_top hs] at h
        cases h
      | some s =>
        rw [superLoop_super hs] at h
        obtain ⟨hcalls, hcur⟩ := ih _ _ _ h
        exact ⟨(prefix_append _ _).trans hcalls, hcur⟩

theorem Tree.eq_top (h : c.Tree top) (hs : c.super s = none) : s = top := by
  obtain ⟨xs, hxs⟩ := h.path s
  have hone : xs ++ [top] = [s] := hxs.unique (show Chain c.super (some s) [s] from ⟨rfl, hs⟩)
  have := congrArg List.getLast? hone
  simpa using this.symm

/-! ### Whom the event is offered to -/

theorem offer_taken (h : (c.call s evt m).1 ≠ .unhandled) (ss : List S) :
    c.offer evt (s :: ss) m = (some (s, (c.call s evt m).1), (c.call s evt m).2) := by
  rw [offer]
  rcases hr : c.call s evt m with ⟨r, m'⟩
  rw [hr] at h
  cases r with
  | handled => rfl
  | target t => rfl
  | unhandled => exact absurd rfl h

theorem offer_passed (h : (c.call s evt m).1 = .unhandled) (ss : List S) :
    c.offer evt (s :: ss) m = c.offer evt ss (c.call s evt m).2 := by
  rw [offer]
  rcases hr : c.call s evt m with ⟨r, m'⟩
  rw [hr] at h
  obtain rfl : r = .unhandled := h
  rfl

theorem offer_calls : ∀ (ss : List S) (m : Hsm S D), m.calls <+: (c.offer evt ss m).2.calls
  | [], _ => prefix_refl _
  | s :: ss, m => by
    by_cases h : (c.call s evt m).1 = .unhandled
    · have hss := offer_calls ss (c.call s evt m).2
      rw [call_calls] at hss
      rw [offer_passed h]
      exact (prefix_append _ _).trans hss
    · rw [offer_taken h]
      exact prefix_append _ _

theorem Right.calls (h : c.Right evt xs m m') : (c.offer evt xs m).2.calls <+: m'.calls := by
  cases h with
  | nobody h => rw [h]
  | handled h => rw [h]
  | moved h _ _ _ =>
    rw [h]
    exact (foldl_send_calls _ _).trans (foldl_send_calls _ _)

theorem Right.target (h : c.Right evt xs m m') (hoffer : c.offer evt xs m = (some (p, .target t), m₁)) :
    m'.curState = t := by
  cases h with
  | nobody h => rw [hoffer] at h; cases h
  | handled h => rw [hoffer] at h; cases h
  | moved h _ _ _ =>
    rw [hoffer] at h
    cases h
    rfl

theorem Right.untouched (h : c.Right evt xs m m') (hoffer : c.offer evt xs m = (none, m₁)) : m' = m₁ := by
  cases h with
  | nobody h =>
    rw [hoffer] at h
    cases h
    rfl
  | handled h => rw [hoffer] at h; cases h
  | moved h _ _ _ => rw [hoffer] at h; cases h

/-- A state is asked once more: it is not the next one. -/
theorem not_right_again {m₂ : Hsm S D} (hs : s ∉ ys) (hoffer : c.offer evt xs m = c.offer evt ys m₂)
    (hcalls : m₂.calls ++ [(s, evt)] <+: m'.calls) : ¬c.Right evt xs m m' := by
  intro hright
  cases ys with
  | nil =>
    rw [hright.untouched hoffer] at hcalls
    simpa using hcalls.length_le
  | cons x ys =>
  have hx : s ≠ x := ne_of_not_mem_cons hs
  have hstart : m₂.calls ++ [(x, evt)] <+: (c.offer evt (x :: ys) m₂).2.calls := by
    by_cases h : (c.call x evt m₂).1 = .unhandled
    · rw [offer_passed h]
      exact offer_calls ys (c.call x evt m₂).2
    · rw [offer_taken h]
      exact prefix_refl _
  have hlong := hoffer ▸ hright.calls
  have heq := (prefix_of_prefix_length_le hcalls (hstart.trans hlong) (by simp)).eq_of_length (by simp)
  have hlast := append_inj_right' heq rfl
  exact hx (Prod.mk.inj (List.cons.inj hlast).1).1

/-! ### The loops of a transition -/

section Transit

variable [DecidableEq S]

theorem sendUp_spec : ∀ (xs : List S) (f : ℕ) (q : Option S) (m : Hsm S D), Seg c.super q xs (some l) → l ∉ xs → xs.length < f →
    c.sendUp evt l f q m = .ok (xs.foldl (c.send evt) m)
  | _, 0, _, _, _, _, hf => absurd hf (Nat.not_lt_zero _)
  | [], f + 1, q, m, h, _, _ => by
    obtain rfl : q = some l := h
    rw [sendUp, if_pos rfl]
    rfl
  | x :: xs, f + 1, q, m, h, hl, hf => by
    obtain ⟨rfl, hxs⟩ := seg_cons.mp h
    rw [sendUp, if_neg (ne_of_not_mem_cons hl).symm, foldl_cons]
    exact sendUp_spec xs f _ _ hxs (not_mem_of_not_mem_cons hl) (Nat.lt_of_succ_lt_succ hf)

theorem sendUp_ok : ∀ (f : ℕ) (q : Option S) (m : Hsm S D), c.sendUp evt l f q m = .ok m' →
    (∃ xs, Seg c.super q xs (some l)) ∧ m.calls <+: m'.calls ∧ m'.curState = m.curState
  | 0, _, _, h => by cases h
  | _ + 1, none, _, h => by cases h
  | f + 1, some x, m, h => by
    rw [sendUp] at h
    split_ifs at h with hx
    · cases h
      exact ⟨⟨[], congrArg some hx⟩, prefix_refl _, rfl⟩
    · obtain ⟨⟨xs, hxs⟩, hcalls, hcur⟩ := sendUp_ok f _ _ h
      exact ⟨⟨x :: xs, rfl, hxs⟩, (prefix_append _ _).trans hcalls, hcur⟩

theorem isIn_spec (s : S) : ∀ (xs : List S) (f : ℕ) (q : Option S), Chain c.super q xs → xs.length < f →
    c.isIn s f q = .ok (decide (s ∈ xs))
  | _, 0, _, _, hf => absurd hf (Nat.not_lt_zero _)
  | [], f + 1, q, h, _ => by
    obtain rfl : q = none := h
    simp [isIn]
  | x :: xs, f + 1, q, h, hf => by
    obtain ⟨rfl, hxs⟩ := chain_cons.mp h
    rw [isIn]
    by_cases hx : s = x
    · rw [if_pos hx, hx]
      simp
    · rw [if_neg hx, isIn_spec s xs f _ hxs (Nat.lt_of_succ_lt_succ hf)]
      simp [hx]

theorem isIn_above : ∀ (f : ℕ) (q : Option S), c.isIn s f q = .ok true → ∃ xs, Seg c.super q xs (some s)
  | 0, _, h => by cases h
  | _ + 1, none, h => by cases h
  | f + 1, some x, h => by
    rw [isIn] at h
    split_ifs at h with hx
    · exact ⟨[], congrArg some hx.symm⟩
    · obtain ⟨xs, hxs⟩ := isIn_above f _ h
      exact ⟨x :: xs, rfl, hxs⟩

theorem lcaTry_ok {b : Bool} {r : Option S} (h : c.lcaTry fuel t q = .ok (b, r)) :
    b = true ∧ (∃ x, q = some x ∧ r = some x ∧ Above c.super t x) ∨ b = false ∧ r = q.bind c.super := by
  cases q with
  | none => cases h; exact .inr ⟨rfl, rfl⟩
  | some x =>
    rw [lcaTry] at h
    cases hin : c.isIn x fuel (some t) with
    | error e => rw [hin] at h; cases h
    | ok found =>
      rw [hin] at h
      cases found with
      | false => cases h; exact .inr ⟨rfl, rfl⟩
      | true => cases h; exact .inl ⟨rfl, x, rfl, rfl, isIn_above fuel _ hin⟩

/-- The search finds a state above the processor. -/
theorem lcaLoop_above : ∀ (f : ℕ) (q r : Option S), (∀ x, q = some x → Above c.super p x) →
    c.lcaLoop fuel p t f q r = .ok (some l) → Above c.super p l := by
  intro f
  induction f with
  | zero => intro q r _ h; cases h
  | succ f ih =>
    intro q r hq h
    rw [lcaLoop] at h
    obtain ⟨⟨b, q'⟩, hp, h⟩ := bind_ok.mp h
    rcases lcaTry_ok hp with ⟨rfl, x, rfl, rfl, -⟩ | ⟨rfl, rfl⟩
    · cases h
      exact hq l rfl
    · obtain ⟨⟨b, r'⟩, ht, h⟩ := bind_ok.mp h
      rcases lcaTry_ok ht with ⟨rfl, x, rfl, rfl, hx⟩ | ⟨rfl, rfl⟩
      · cases h
        exact hx
      · simp only [Bool.false_eq_true, if_false] at h
        split_ifs at h with hnone
        · cases h
        refine ih _ _ ?_ h
        intro x hx
        cases q with
        | none => cases hx
        | some y => exact (hq y rfl).trans (Above.up hx (Above.refl _ x))

/-! ### Transitions -/

theorem ok_bind (a : α) (g : α → Except Stop β) : ((Except.ok a : Except Stop α) >>= g) = g a := rfl

/-- A target above the state: the search ends in its first turn. -/
theorem lcaLoop_up (htp : Chain c.super (some t) xs) (hp : Chain c.super (some p) ys) (hne : p ≠ t) (hup : Above c.super p t)
    (hx : xs.length < fuel) (hy : ys.length < fuel) (f : ℕ) :
    c.lcaLoop fuel p t (f + 1) (some p) (some t) = .ok (some t) := by
  have hnot : p ∉ xs := by
    intro hm
    obtain ⟨as, bs, rfl⟩ := append_of_mem hm
    obtain ⟨r, hseg, hr⟩ := chain_append.mp htp
    obtain ⟨rfl, -⟩ := chain_cons.mp hr
    exact hne (hup.antisymm ⟨as, hseg⟩ hp)
  have hmem : t ∈ ys := by
    obtain ⟨zs, hzs⟩ := hup
    obtain ⟨ws, rfl⟩ := hzs.mem_chain hp
    exact mem_append_right _ mem_cons_self
  have h1 : c.lcaTry fuel t (some p) = .ok (false, c.super p) := by
    rw [lcaTry, isIn_spec p xs fuel _ htp hx, decide_eq_false hnot]
    rfl
  have h2 : c.lcaTry fuel p (some t) = .ok (true, some t) := by
    rw [lcaTry, isIn_spec t ys fuel _ hp hy, decide_eq_true hmem]
    rfl
  rw [lcaLoop, h1, ok_bind]
  simp only [Bool.false_eq_true, if_false]
  rw [h2, ok_bind]
  rfl

/-- **A near target**: the states are left and entered as they should. -/
theorem transit_near (post : Err) (htree : c.Tree top) (hcur : Seg c.super (some m.curState) es (some p)) (hnear : c.Near p t) :
    ∃ k, ∀ fuel ≥ k, ∃ a exits entries, c.Turn p t a ∧ Seg c.super (some m.curState) exits a ∧ Seg c.super (some t) entries a ∧
      c.transit fuel post p t m =
        .ok (post, { entries.reverse.foldl (c.send .enter) (exits.foldl (c.send .exit) m) with curState := t }) := by
  obtain ⟨cs, hcs⟩ := htree.path m.curState
  obtain ⟨ps, hps⟩ := htree.path p
  obtain ⟨ts, hts⟩ := htree.path t
  refine ⟨es.length + (ps ++ [top]).length + (ts ++ [top]).length + 1, fun fuel hfuel => ?_⟩
  have hstep : c.sendUp .exit p fuel (some m.curState) m = .ok (es.foldl (c.send .exit) m) :=
    sendUp_spec es fuel _ m hcur (hcur.not_mem hcs) (by omega)
  have hleave : Seg c.super (some m.curState) (es ++ [p]) (c.super p) := hcur.trans ⟨rfl, rfl⟩
  have hback : (es ++ [p]).foldl (c.send .exit) m = c.send .exit (es.foldl (c.send .exit) m) p := by
    rw [foldl_append]
    rfl
  unfold transit
  rw [hstep, ok_bind]
  by_cases hself : p = t
  · subst hself
    refine ⟨c.super p, es ++ [p], [p], .inl ⟨rfl, rfl⟩, hleave, ⟨rfl, rfl⟩, ?_⟩
    rw [if_pos (.inl rfl), hback]
    rfl
  by_cases hside : c.super p = c.super t
  · cases hsuper : c.super p with
    | none => exact absurd ((htree.eq_top hsuper).trans (htree.eq_top (hside ▸ hsuper)).symm) hself
    | some q =>
      have hlca := lca_sibling hsuper (hside ▸ hsuper) hself hps
      refine ⟨some q, es ++ [p], [t], .inr ⟨hself, q, rfl, hlca⟩, hsuper ▸ hleave, ⟨rfl, hside ▸ hsuper⟩, ?_⟩
      rw [if_pos (.inr (hsuper.symm.trans hside)), hback]
      rfl
  rw [if_neg (not_or_intro hself hside)]
  by_cases hparent : c.super p = some t
  · have hup : Above c.super p t := Above.up hparent (Above.refl _ t)
    refine ⟨some t, es ++ [p], [], .inr ⟨hself, t, rfl, lca_above hup⟩, hparent ▸ hleave, rfl, ?_⟩
    rw [if_pos hparent, hback]
    rfl
  rw [if_neg hparent]
  by_cases hchild : some p = c.super t
  · have hdown : Above c.super t p := Above.up hchild.symm (Above.refl _ p)
    refine ⟨some p, es, [t], .inr ⟨hself, p, rfl, lca_below hdown⟩, hcur, ⟨rfl, hchild.symm⟩, ?_⟩
    rw [if_pos hchild]
    rfl
  rw [if_neg hchild]
  have hup : Above c.super p t := (hnear.resolve_left hside).resolve_left (Ne.symm hchild)
  obtain ⟨ws, hws⟩ := hup
  obtain ⟨vs, hvs⟩ := hws.mem_chain hps
  have hlen : ws.length ≤ (ps ++ [top]).length := by
    rw [hvs, length_append]
    exact Nat.le_add_right _ _
  obtain ⟨f, rfl⟩ : ∃ f, fuel = f + 1 := ⟨fuel - 1, by omega⟩
  rw [lcaLoop_up hts hps hself ⟨ws, hws⟩ (by omega) (by omega) f, ok_bind]
  dsimp only
  have hexit : c.sendUp .exit t (f + 1) (some p) (es.foldl (c.send .exit) m) = .ok (ws.foldl (c.send .exit) (es.foldl (c.send .exit) m)) :=
    sendUp_spec ws (f + 1) _ _ hws (hws.not_mem hps) (by omega)
  have hstay := fun m => @sendUp_spec _ _ c t .enter _ [] (f + 1) (some t) m rfl not_mem_nil (by simp)
  refine ⟨some t, es ++ ws, [], .inr ⟨hself, t, rfl, lca_above ⟨ws, hws⟩⟩, hcur.trans hws, rfl, ?_⟩
  rw [hexit, ok_bind, hstay, ok_bind, foldl_append]
  rfl

/-- **Any other target**: the transition does not come to its end. -/
theorem transit_far (hfar : ¬c.Near p t) {a : Err × Hsm S D} (h : c.transit fuel post p t m = .ok a) :
    a.2.curState = m.curState := by
  unfold transit at h
  obtain ⟨m₁, h₁, h⟩ := bind_ok.mp h
  obtain ⟨-, -, hcur⟩ := sendUp_ok fuel _ _ h₁
  have hside : ¬(p = t ∨ c.super p = c.super t) := by
    rintro (rfl | hs)
    · exact hfar (.inl rfl)
    · exact hfar (.inl hs)
  have hparent : ¬c.super p = some t := fun hs => hfar (.inr (.inr (Above.up hs (Above.refl _ t))))
  have hchild : ¬some p = c.super t := fun hs => hfar (.inr (.inl hs.symm))
  rw [if_neg hside, if_neg hparent, if_neg hchild] at h
  obtain ⟨r, hr, h⟩ := bind_ok.mp h
  cases r with
  | none =>
    cases h
    exact hcur
  | some l =>
    -- the target would have to be above the state that was found
    obtain ⟨m₂, -, h⟩ := bind_ok.mp h
    obtain ⟨m₃, h₃, -⟩ := bind_ok.mp h
    obtain ⟨hup, -, -⟩ := sendUp_ok fuel _ _ h₃
    have hl : Above c.super p l := lcaLoop_above fuel _ _ (fun x hx => Option.some.inj hx ▸ Above.refl _ p) hr
    exact absurd (.inr (.inr (hl.trans hup))) hfar

variable {a : Err × Hsm S D}

theorem transit_calls (h : c.transit fuel post p t m = .ok a) : m.calls <+: a.2.calls := by
  unfold transit at h
  obtain ⟨m₁, h₁, h⟩ := bind_ok.mp h
  obtain ⟨-, hcalls, -⟩ := sendUp_ok fuel _ _ h₁
  refine hcalls.trans ?_
  split_ifs at h with h1 h2 h3
  · cases h
    exact (prefix_append _ _).trans (prefix_append _ _)
  · cases h
    exact prefix_append _ _
  · cases h
    exact prefix_append _ _
  · obtain ⟨r, -, h⟩ := bind_ok.mp h
    cases r with
    | none =>
      cases h
      exact prefix_refl _
    | some l =>
      obtain ⟨m₂, h₂, h⟩ := bind_ok.mp h
      obtain ⟨m₃, h₃, h⟩ := bind_ok.mp h
      cases h
      exact (sendUp_ok fuel _ _ h₂).2.1.trans (sendUp_ok fuel _ _ h₃).2.1

/-! ### Dispatch -/

theorem settle_taken (post : Err) (htree : c.Tree top) {r : Reply S} {m₁ : Hsm S D} (hoffer : c.offer evt xs m = (some (p, r), m₁))
    (hcur : m₁.curState = m.curState) (hseg : Seg c.super (some m.curState) es (some p)) (htakes : c.Takes p r) :
    ∃ k, ∀ fuel ≥ k, ∃ a, c.settle fuel post (some p, r, m₁) = .ok a ∧ c.Right evt xs m a.2 := by
  cases r with
  | handled => exact ⟨0, fun fuel _ => ⟨_, rfl, .handled hoffer⟩⟩
  | target t =>
    obtain ⟨k, hk⟩ := transit_near post htree (hcur ▸ hseg) htakes
    refine ⟨k, fun fuel hfuel => ?_⟩
    obtain ⟨a, exits, entries, hturn, hexit, hentry, htransit⟩ := hk fuel hfuel
    exact ⟨_, htransit, .moved hoffer hturn (hcur ▸ hexit) hentry⟩
  | unhandled => exact absurd htakes id

/-- A state took the event, and its target is not near: the result is not right. -/
theorem settle_far (hoffer : c.offer evt xs m = (some (p, .target t), m₁))
    (hcur : m₁.curState = m.curState) (hfar : ¬c.Near p t) (h : c.settle fuel post (some p, .target t, m₁) = .ok a)
    (hright : c.Right evt xs m a.2) : t = m.curState :=
  (hright.target hoffer).symm.trans ((transit_far hfar h).trans hcur)

theorem settle_calls {q : Option S} (h : c.settle fuel post (q, r, m) = .ok a) : m.calls <+: a.2.calls := by
  cases r with
  | handled =>
    obtain rfl : (Err.none, m) = a := by cases q <;> exact Except.ok.inj h
    exact prefix_refl _
  | unhandled =>
    obtain rfl : (Err.none, m) = a := by cases q <;> exact Except.ok.inj h
    exact prefix_refl _
  | target t =>
    cases q with
    | none => cases h
    | some p => exact transit_calls h

/-- **Hierarchical dispatch.** -/
theorem dispatch_iff (c : Chart S D) (top : S) (htree : c.Tree top) (post : Err) (evt : Evt) (hevt : ¬Evt.localMsk ≤ evt)
    (m : Hsm S D) (path : List S) (hpath : Chain c.super (some m.curState) path) :
    (∃ fuel a, c.dispatchEvt fuel post evt m = .ok a ∧ c.Right evt path m a.2) ↔ c.Simple evt m := by
  have hdispatch : ∀ fuel, c.dispatchEvt fuel post evt m =
      c.superLoop evt fuel (some m.curState) (c.call m.curState evt m).1 (c.call m.curState evt m).2 >>= c.settle fuel post :=
    fun fuel => if_neg hevt
  obtain ⟨rest, rfl, hrest⟩ := hpath.eq_cons
  simp only [hdispatch]
  set m₁ := (c.call m.curState evt m).2 with hm₁
  constructor
  · rintro ⟨fuel, a, ha, hright⟩
    cases hreply : (c.call m.curState evt m).1 with
    | handled =>
      left
      rw [hreply]
      trivial
    | target t =>
      left
      rw [hreply]
      cases fuel with
      | zero => cases ha
      | succ f =>
        rw [hreply, superLoop_taken (show Reply.target t ≠ .unhandled from nofun)] at ha
        have hoffer : c.offer evt (m.curState :: rest) m = (some (m.curState, (c.call m.curState evt m).1), m₁) :=
          offer_taken (fun h => by rw [hreply] at h; cases h) rest
        rw [hreply] at hoffer
        by_contra hfar
        have ht := settle_far hoffer rfl hfar ha hright
        exact hfar (ht ▸ .inl rfl)
    | unhandled =>
      rw [hreply] at ha
      cases hs : c.super m.curState with
      | none =>
        rw [superLoop_top (show c.super m₁.curState = none from hs)] at ha
        cases ha
      | some s =>
        have hs₁ : c.super m₁.curState = some s := hs
        rw [hs] at hrest
        obtain ⟨ss, rfl, -⟩ := hrest.eq_cons
        right
        refine ⟨hreply, s, hs, ?_⟩
        have hpassed : c.offer evt (m.curState :: s :: ss) m = c.offer evt (s :: ss) m₁ := offer_passed hreply (s :: ss)
        match fuel, ha with
        | 0, ha => cases ha
        | 1, ha =>
          rw [superLoop_super hs₁] at ha
          cases ha
        | f + 2, ha =>
          rw [superLoop_super hs₁] at ha
          cases hnext : (c.call s evt m₁).1 with
          | handled => trivial
          | target t =>
            rw [hnext, superLoop_taken (show Reply.target t ≠ .unhandled from nofun)] at ha
            have htaken : c.offer evt (s :: ss) m₁ = (some (s, (c.call s evt m₁).1), (c.call s evt m₁).2) :=
              offer_taken (fun h => by rw [hnext] at h; cases h) ss
            rw [hnext] at htaken
            by_contra hfar
            have ht := settle_far (hpassed.trans htaken) rfl hfar ha hright
            exact hfar (.inr (.inl (ht ▸ hs)))
          | unhandled =>
            have hs₂ : c.super (c.call s evt m₁).2.curState = some s := hs
            rw [hnext, superLoop_super hs₂] at ha
            obtain ⟨⟨q, r, m₃⟩, hloop, ha⟩ := bind_ok.mp ha
            have hcalls := (superLoop_calls f _ _ _ hloop).1.trans (settle_calls ha)
            have hnodup := (nodup_cons.mp (nodup_cons.mp hpath.nodup).2).1
            exact absurd hright (not_right_again hnodup (hpassed.trans (offer_passed hnext ss)) hcalls)
  · rintro (htakes | ⟨hpass, s, hs, htakes⟩)
    · have htaken : (c.call m.curState evt m).1 ≠ .unhandled := fun h => by
        rw [h] at htakes
        exact htakes
      obtain ⟨k, hk⟩ := settle_taken post htree (offer_taken htaken rest) rfl
        (show Seg c.super (some m.curState) [] (some m.curState) from rfl) htakes
      obtain ⟨a, ha, hright⟩ := hk (k + 1) (Nat.le_succ k)
      refine ⟨k + 1, a, ?_, hright⟩
      rw [superLoop_taken htaken]
      exact ha
    · have htaken : (c.call s evt m₁).1 ≠ .unhandled := fun h => by
        rw [h] at htakes
        exact htakes
      rw [hs] at hrest
      obtain ⟨ss, rfl, -⟩ := hrest.eq_cons
      obtain ⟨k, hk⟩ := settle_taken post htree ((offer_passed hpass _).trans (offer_taken htaken ss)) rfl
        (show Seg c.super (some m.curState) [m.curState] (some s) from ⟨rfl, hs⟩) htakes
      obtain ⟨a, ha, hright⟩ := hk (k + 2) (by omega)
      refine ⟨k + 2, a, ?_, hright⟩
      rw [show (c.call m.curState evt m).1 = .unhandled from hpass, superLoop_super (show c.super m₁.curState = some s from hs),
        superLoop_taken htaken]
      exact ha

end Transit

/-! ### A machine -/

/-- State 0 is the top, 1 is in it, 2 and 3 are in 1; handlers return what a table says for 0x10. -/
def nested (reply : Fin 4 → Reply (Fin 4)) : Chart (Fin 4) Unit where
  super := fun s =>
    match s with
    | 0 => none
    | 1 => some 0
    | 2 => some 1
    | 3 => some 1
  evtHandler := fun s evt d => (if evt = Evt.user then reply s else .handled, d)

theorem nested_tree (reply : Fin 4 → Reply (Fin 4)) : (nested reply).Tree 0 where
  super_top := rfl
  path := fun s =>
    match s with
    | 0 => ⟨[], rfl, rfl⟩
    | 1 => ⟨[1], rfl, rfl, rfl⟩
    | 2 => ⟨[2, 1], rfl, rfl, rfl, rfl⟩
    | 3 => ⟨[3, 1], rfl, rfl, rfl, rfl⟩

/-- State 2 hands the event on, and 1 goes to 3. -/
theorem dispatch_iff_nested : let c := nested fun s => if s = 1 then .target 3 else .unhandled
    ∃ fuel a, c.dispatchEvt fuel .none Evt.user ⟨2, (), []⟩ = .ok a ∧ c.Right Evt.user [2, 1, 0] ⟨2, (), []⟩ a.2 := by
  intro c
  refine (dispatch_iff c 0 (nested_tree _) .none Evt.user (by decide) ⟨2, (), []⟩ [2, 1, 0] ⟨rfl, rfl, rfl, rfl⟩).mpr ?_
  exact .inr ⟨rfl, 1, rfl, .inr (.inl rfl)⟩

/-- The top state goes to one two levels down: the dispatch does not end. -/
theorem nested_inside : let c := nested fun _ => .target 2
    ¬∃ fuel a, c.dispatchEvt fuel .none Evt.user ⟨0, (), []⟩ = .ok a ∧ c.Right Evt.user [0] ⟨0, (), []⟩ a.2 := by
  rintro c ⟨fuel, a, h, hright⟩
  have hfar : ¬c.Near 0 2 := by
    rintro (hs | hs | hup)
    · cases hs
    · cases hs
    · obtain ⟨q, hq, -⟩ := hup.of_ne (by decide)
      cases hq
  cases fuel with
  | zero => cases h
  | succ f =>
    rw [dispatchEvt, if_neg (by decide), show (c.call 0 Evt.user ⟨0, (), []⟩).1 = .target 2 from rfl,
      superLoop_taken (show Reply.target (2 : Fin 4) ≠ .unhandled from nofun), ok_bind] at h
    have hoffer : c.offer Evt.user [0] ⟨0, (), []⟩ = (some (0, .target 2), ⟨0, (), [(0, Evt.user)]⟩) := rfl
    have htop : (2 : Fin 4) = 0 := settle_far hoffer rfl hfar h hright
    cases htop

end Chart
end Vsf
