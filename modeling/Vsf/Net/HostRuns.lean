/-
# Listeners are accounted for

What holds in every run (`Host.Inv`): the sockets are a tree of listeners and children, nobody has
sent anything, and what `vsfip_tcp_accept` returned is different sockets. A tick walks two lists
while sockets leave them (`Host.At`, `Host.Ticked`). In every step a listener is freed exactly if it
is being closed and its last child is (`listener_accounting`).
-/
import Mathlib
import Vsf.Net.Host

namespace Vsf

open Linked Ip List Function Option

namespace Host

/-- Nothing was sent there, nobody runs inside; `i` is whether it was returned. -/
def Quiet (i : Prop) (s : Tcp.Sock) : Prop := Tcp.Sock.Calm s.listener i { s with env := [], freed := false }

/-- What holds of a host between two calls. -/
structure Inv (h : Host) : Prop where
  tree : ∃ rs, h.sockets.Tree rs
  quiet : ∀ a, h.sockets.live a → Quiet (h.sockets.node a).accepted (h.sock a)
  owned : ∀ a, h.sockets.live a → (h.sockets.node a).accepted → (h.sockets.node a).father ≠ none
  held : ∀ a, h.held a → h.sockets.live a ∧ (h.sockets.node a).closing = false ∧
    ((h.sockets.node a).father ≠ none → (h.sockets.node a).accepted)
  once : h.returned.Nodup
  births : ∀ p ∈ h.returned, p.2 ≤ h.births p.1 ∧
    (p.2 = h.births p.1 → h.sockets.live p.1 → (h.sockets.node p.1).accepted)

variable {h h' h'' : Host} {rs ks as bs : List Addr} {a l x : Addr} {i : Prop} {s : Tcp.Sock} {n : ℕ}

/-! ### One socket -/

theorem Quiet.load (hq : Quiet i (h.sock a)) (n : ℕ) : Tcp.Sock.Calm (h.load a n).listener i (h.load a n) :=
  ⟨rfl, hq.outq, rfl, rfl, hq.timeout, hq.lclose, hq.opened⟩

theorem Quiet.of_calm {L : Tcp.Listener} (hc : Tcp.Sock.Calm L i s) : Quiet i s :=
  ⟨rfl, hc.outq, rfl, rfl, hc.timeout, hc.lclose, hc.opened⟩

theorem Quiet.of_eq {s' : Tcp.Sock} (hq : Quiet i s) (ho : s'.outq = s.outq) (hst : s'.pcb.state = s.pcb.state)
    (ht : s'.pcb.txTimeoutMs = s.pcb.txTimeoutMs) (hl : s'.pcb.lclose = s.pcb.lclose) : Quiet i s' := by
  refine ⟨rfl, ho.trans hq.outq, rfl, rfl, ?_, ?_, ?_⟩
  · show s'.pcb.state = _ ∨ s'.pcb.state = _ → s'.pcb.txTimeoutMs = 0
    rw [hst, ht]
    exact hq.timeout
  · show s'.pcb.state = _ ∨ s'.pcb.state = _ → s'.pcb.lclose = true
    rw [hst, hl]
    exact hq.lclose
  · show i → s'.pcb.state.opened ∧ s'.pcb.txTimeoutMs = 0
    rw [hst, ht]
    exact hq.opened

theorem Quiet.of_state {st : Tcp.Stat} (ho : s.outq = []) (hst : s.pcb.state = st)
    (h1 : st = .closed ∨ st = .listen ∨ st = .synGet) (hi : ¬ i) : Quiet i s := by
  refine ⟨rfl, ho, rfl, rfl, fun hc => ?_, fun hc => ?_, fun hi' => absurd hi' hi⟩
  all_goals
    have hc' : st = _ ∨ st = _ := hst ▸ hc
    rcases h1 with rfl | rfl | rfl <;> simp at hc'

theorem freeBuffers_quiet (hq : Quiet i (h.sock a)) : Quiet i ((h.freeBuffers a).sock a) := by
  have hsock : (h.freeBuffers a).sock a = if (h.load a 0).closeChild.pcb.state = .listen then
      (h.load a 0).closeChild.postRx .connectfail else (h.load a 0).closeChild := update_self ..
  rw [hsock]
  have hclose : Quiet i (h.load a 0).closeChild := ⟨rfl, rfl, rfl, rfl, hq.timeout, hq.lclose, hq.opened⟩
  split_ifs
  · obtain ⟨sm, new, heq, -⟩ := Tcp.Sock.postRx_nil (s := (h.load a 0).closeChild) .connectfail rfl
    rw [heq]
    exact hclose.of_eq rfl rfl rfl rfl
  · exact hclose

theorem freeBuffers_other (h : Host) (hx : x ≠ a) : (h.freeBuffers a).sock x = h.sock x := update_of_ne hx _ _

/-! ### A tick at one socket -/

theorem tickSocket_root (hq : Quiet i (h.sock a)) (hf : (h.sockets.node a).father = none) :
    ∃ s, h.tickSocket a = some (h.store a s) ∧ Quiet i s := by
  unfold tickSocket
  rcases Tcp.Sock.tick_calm (hq.load 0) with ⟨hc, hfree⟩ | ⟨-, hfather, -⟩
  · refine ⟨(h.load a 0).tick, ?_, Quiet.of_calm hc⟩
    rw [if_neg (by rw [hfree]; exact Bool.false_ne_true)]
  · have hnone : (h.load a 0).opts.father = (h.sockets.node a).father.isSome := rfl
    rw [hnone, hf] at hfather
    cases hfather

theorem tickSocket_child (hq : Quiet i (h.sock a)) :
    ∃ s, h.tickSocket a = some (h.store a s) ∧ Quiet i s ∨ ¬ i ∧ h.tickSocket a = (h.store a s).unlink a := by
  unfold tickSocket
  refine ⟨(h.load a 0).tick, ?_⟩
  rcases Tcp.Sock.tick_calm (hq.load 0) with ⟨hc, hfree⟩ | ⟨hni, -, hfree, -⟩
  · left
    rw [if_neg (by rw [hfree]; exact Bool.false_ne_true)]
    exact ⟨rfl, Quiet.of_calm hc⟩
  · right
    rw [if_pos hfree]
    exact ⟨hni, rfl⟩

/-- What closing a child does beside the lists. -/
structure Unlinked (h : Host) (l : Addr) (h' : Host) : Prop where
  other : ∀ y, y ≠ l → h'.sock y = h.sock y
  here : ∀ i, Quiet i (h.sock l) → Quiet i (h'.sock l)
  births : h'.births = h.births
  held : h'.held = h.held
  returned : h'.returned = h.returned

theorem unlink_child (ht : h.sockets.Tree rs) (hk : h.sockets.Kid l x) (hf : h.sockets.Family l ks) :
    ∃ h', h.unlink x = some h' ∧ h.sockets.Orphaned rs l x ks h'.sockets ∧ h.Unlinked l h' := by
  obtain ⟨s', hclose, ho⟩ := ht.close_child hk hf
  unfold unlink
  rw [hclose, hk.2]
  dsimp only [map_some]
  split_ifs
  · exact ⟨_, rfl, ho, fun _ _ => rfl, fun _ => id, rfl, rfl, rfl⟩
  · exact ⟨_, rfl, ho, fun y hy => freeBuffers_other _ hy, fun i hq => freeBuffers_quiet (h := { h with sockets := s' }) hq,
      rfl, rfl, rfl⟩

/-! ### The walk of a tick -/

/-- A tick frees sockets not returned, roots only if closing and without children. -/
structure Ticked (h h' : Host) : Prop where
  deaths : h.sockets.Deaths h'.sockets
  accepted : ∀ a, (h'.sockets.node a).accepted = (h.sockets.node a).accepted
  safe : ∀ a, h.sockets.live a → (h.sockets.node a).accepted → h'.sockets.live a
  births : h'.births = h.births
  held : h'.held = h.held
  returned : h'.returned = h.returned

theorem Ticked.trans (ht : Ticked h h') (ht' : Ticked h' h'') : Ticked h h'' where
  deaths := ht.deaths.trans ht'.deaths
  accepted a := (ht'.accepted a).trans (ht.accepted a)
  safe a hl ha := ht'.safe a (ht.safe a hl ha) ((ht.accepted a).trans ha)
  births := ht'.births.trans ht.births
  held := ht'.held.trans ht.held
  returned := ht'.returned.trans ht.returned

theorem Ticked.of_sockets (ht : h.sockets.Tree rs) (hs : h'.sockets = h.sockets) (hb : h'.births = h.births)
    (hh : h'.held = h.held) (hr : h'.returned = h.returned) : Ticked h h' where
  deaths := ht.deaths_of_eq (congrArg _ hs) (fun a => by rw [hs]) fun a => by rw [hs]
  accepted a := by rw [hs]
  safe a hl _ := hs ▸ hl
  births := hb
  held := hh
  returned := hr

/-- The sockets in use. -/
structure Ready (h : Host) : Prop where
  quiet : ∀ a, h.sockets.live a → Quiet (h.sockets.node a).accepted (h.sock a)
  owned : ∀ a, h.sockets.live a → (h.sockets.node a).accepted → (h.sockets.node a).father ≠ none

theorem Unlinked.ready (hu : h.Unlinked l h') (ho : h.sockets.Orphaned rs l x ks h'.sockets) (ht : h.sockets.Tree rs)
    (hk : h.sockets.Kid l x) (hf : h.sockets.Family l ks)
    (hq : ∀ y, y ≠ x → h.sockets.live y → Quiet (h.sockets.node y).accepted (h.sock y))
    (hown : ∀ y, h.sockets.live y → (h.sockets.node y).accepted → (h.sockets.node y).father ≠ none) : Ready h' := by
  refine ⟨fun y hy => ?_, fun y hy hya => ?_⟩
  · obtain ⟨hly, hyx, -⟩ := (ho.live y).mp hy
    rw [ho.accepted]
    by_cases hyl : y = l
    · rw [hyl] at hyx hly ⊢
      exact hu.here _ (hq l hyx hly)
    · rw [hu.other y hyl]
      exact hq y hyx hly
  · rw [ho.accepted] at hya
    rw [(ho.deaths ht hk hf).father]
    exact hown y ((ho.live y).mp hy).1 hya

theorem Ready.store (hr : Ready h) (hq : h.sockets.live a → Quiet (h.sockets.node a).accepted s) : Ready (h.store a s) := by
  refine ⟨fun y hy => ?_, hr.owned⟩
  by_cases hya : y = a
  · subst hya
    have hself : (h.store y s).sock y = s := update_self ..
    rw [hself]
    exact hq hy
  · have hother : (h.store a s).sock y = h.sock y := update_of_ne hya _ _
    rw [hother]
    exact hr.quiet y hy

/-- The tick is at the root `l`, behind it `as`, to come `bs`; `l` may be freed. -/
structure At (as bs : List Addr) (l : Addr) (h : Host) : Prop extends Ready h where
  tree : (h.sockets.Root l ∧ h.sockets.Tree (as ++ l :: bs)) ∨ (h.sockets.live l = false ∧ h.sockets.Tree (as ++ bs))
  rest : Chain h.sockets.next (h.sockets.next l) bs
  here : ∃ i, Quiet i (h.sock l)
  root : (h.sockets.node l).father = none

theorem At.unlink {ds : List Addr} (hat : At as bs l h) (hl : h.sockets.Root l) (ht : h.sockets.Tree (as ++ l :: bs))
    (hf : h.sockets.Family l (ds ++ x :: ks)) (hx : ¬ (h.sockets.node x).accepted) (s : Tcp.Sock) :
    ∃ h', (h.store x s).unlink x = some h' ∧ At as bs l h' ∧ Ticked h h' ∧ Chain h'.sockets.next (h'.sockets.next x) ks ∧
      ((h'.sockets.Root l ∧ h'.sockets.Family l (ds ++ ks)) ∨ ks = []) := by
  have hmem : x ∈ ds ++ x :: ks := mem_append_right _ mem_cons_self
  have hk := (hf.mem x).mp hmem
  have hxl : x ≠ l := hk.ne_root hl
  obtain ⟨h', hun, ho, hu⟩ := unlink_child (h := h.store x s) ht hk hf
  have ho : h.sockets.Orphaned (as ++ l :: bs) l x (ds ++ x :: ks) h'.sockets := ho
  have hsock : ∀ y, y ≠ x → (h.store x s).sock y = h.sock y := fun y hy => update_of_ne hy _ _
  have hacc : ∀ y, (h'.sockets.node y).accepted = (h.sockets.node y).accepted := ho.accepted
  have hdeaths := ho.deaths ht hk hf
  have htree := ho.tree ht hk hf
  have hnd := nodup_append.mp ht.listed.chain.nodup
  have hlas : l ∉ as := fun hm => hnd.2.2 l hm l mem_cons_self rfl
  have herase : (as ++ l :: bs).erase l = as ++ bs := by rw [erase_append_right _ hlas, erase_cons_head]
  have hxd : x ∉ ds := fun hm => (nodup_append.mp hf.chain.nodup).2.2 x hm x mem_cons_self rfl
  have hkids : (ds ++ x :: ks).erase x = ds ++ ks := by rw [erase_append_right _ hxd, erase_cons_head]
  have hready : Ready h' := hu.ready (h := h.store x s) ho ht hk hf (fun y hy hly => hsock y hy ▸ hat.quiet y hly) hat.owned
  refine ⟨h', hun, ⟨hready, ?_, ho.rest_roots ht hl hf rfl, ?_, ?_⟩,
    ⟨hdeaths, hacc, fun y hy hya => ?_, hu.births, hu.held, hu.returned⟩, ho.rest ht hf rfl, ?_⟩
  · split_ifs at htree with hlast
    · refine .inr ⟨?_, herase ▸ htree⟩
      have hdead : ¬ h'.sockets.live l := fun hl' => ((ho.live l).mp hl').2.2 ⟨rfl, hlast⟩
      simpa using hdead
    · exact .inl ⟨(ho.root hk (.inr hlast)).mpr hl, htree⟩
  · obtain ⟨i, hi⟩ := hat.here
    exact ⟨i, hu.here i (hsock l hxl.symm ▸ hi)⟩
  · rw [hdeaths.father]
    exact hat.root
  · refine (ho.live y).mpr ⟨hy, ?_, ?_⟩
    · rintro rfl
      exact hx hya
    · rintro ⟨rfl, -⟩
      exact hat.owned y hy hya hl.2
  · by_cases hlast : h.sockets.Last l x (ds ++ x :: ks)
    · right
      have hlen := congrArg List.length hlast.2
      simp only [length_append, length_cons, length_nil] at hlen
      exact length_eq_zero_iff.mp (by omega)
    · left
      refine ⟨(ho.root hk (.inr hlast)).mpr hl, ?_⟩
      rw [← hkids]
      exact ho.family hl hmem hf

theorem At.ticked (hat : At as bs l h) (hs : h'.sockets = h.sockets) (hb : h'.births = h.births) (hh : h'.held = h.held)
    (hr : h'.returned = h.returned) : Ticked h h' := by
  obtain ⟨-, ht⟩ | ⟨-, ht⟩ := hat.tree
  · exact .of_sockets ht hs hb hh hr
  · exact .of_sockets ht hs hb hh hr

theorem At.store (hat : At as bs l h) (hx : x ≠ l) (hq : h.sockets.live x → Quiet (h.sockets.node x).accepted s) :
    At as bs l (h.store x s) := by
  have hother : (h.store x s).sock l = h.sock l := update_of_ne hx.symm _ _
  exact ⟨hat.toReady.store hq, hat.tree, hat.rest, hother ▸ hat.here, hat.root⟩

/-- **The loop over the children** ends, by induction on those to come. -/
theorem tickChildren_spec : ∀ (ks : List Addr) (f : ℕ) (p : Option Addr) (ds : List Addr) (h : Host), At as bs l h →
    Chain h.sockets.next p ks → ks.length ≤ f → ((h.sockets.Root l ∧ h.sockets.Family l (ds ++ ks)) ∨ ks = []) →
    ∃ h', tickChildren f h p = some h' ∧ At as bs l h' ∧ Ticked h h'
  | [], f, p, ds, h, hat, hc, _, _ => by
    obtain rfl : p = none := hc
    exact ⟨h, by cases f <;> rfl, hat, hat.ticked rfl rfl rfl rfl⟩
  | x :: ks, 0, p, ds, h, _, _, hf, _ => absurd hf (Nat.not_succ_le_zero _)
  | x :: ks, f + 1, p, ds, h, hat, hc, hf, hfam => by
    obtain ⟨rfl, hks⟩ := chain_cons.mp hc
    obtain ⟨hl, hfam⟩ := hfam.resolve_right (cons_ne_nil _ _)
    have ht : h.sockets.Tree (as ++ l :: bs) := by
      obtain ⟨-, ht⟩ | ⟨hdead, -⟩ := hat.tree
      · exact ht
      · rw [hl.1] at hdead
        cases hdead
    have hk := (hfam.mem x).mp (mem_append_right _ mem_cons_self)
    obtain ⟨s, ⟨htick, hq⟩ | ⟨hx, htick⟩⟩ := tickSocket_child (hat.quiet x hk.1)
    · -- the child stays
      have hat₁ : At as bs l (h.store x s) := hat.store (hk.ne_root hl) fun _ => hq
      have hfam₁ : (h.store x s).sockets.Family l ((ds ++ [x]) ++ ks) := by
        rw [append_assoc]
        exact hfam
      obtain ⟨h', hh', hat', ht'⟩ := tickChildren_spec ks f _ _ _ hat₁ hks (Nat.le_of_succ_le_succ hf) (.inl ⟨hl, hfam₁⟩)
      have ht₁ : Ticked h (h.store x s) := hat.ticked rfl rfl rfl rfl
      refine ⟨h', ?_, hat', ht₁.trans ht'⟩
      unfold tickChildren
      rw [htick]
      exact hh'
    · -- the child is given up, and `l` may go with it
      obtain ⟨h₂, hun, hat₂, ht₂, hc₂, hfam₂⟩ := hat.unlink hl ht hfam hx s
      obtain ⟨h', hh', hat', ht'⟩ := tickChildren_spec ks f _ ds h₂ hat₂ hc₂ (Nat.le_of_succ_le_succ hf) hfam₂
      refine ⟨h', ?_, hat', ht₂.trans ht'⟩
      unfold tickChildren
      rw [htick, hun]
      exact hh'

/-- The tick of the root itself, which may be gone. -/
theorem At.tick_root (hat : At as bs l h) : ∃ h', h.tickSocket l = some h' ∧ Ready h' ∧ Ticked h h' ∧
    h'.sockets = h.sockets := by
  by_cases hl : h.sockets.live l
  · obtain ⟨s, htick, hq⟩ := tickSocket_root (hat.quiet l hl) hat.root
    exact ⟨_, htick, hat.toReady.store fun _ => hq, hat.ticked rfl rfl rfl rfl, rfl⟩
  · obtain ⟨i, hi⟩ := hat.here
    obtain ⟨s, htick, -⟩ := tickSocket_root hi hat.root
    exact ⟨_, htick, hat.toReady.store fun hl' => absurd hl' hl, hat.ticked rfl rfl rfl rfl, rfl⟩

/-- **The loop over the bound sockets** ends, by induction on those to come. -/
theorem tickLoop_spec : ∀ (bs : List Addr) (f : ℕ) (p : Option Addr) (as : List Addr) (h : Host), Ready h →
    h.sockets.Tree (as ++ bs) → Chain h.sockets.next p bs → bs.length ≤ f →
    ∃ h', tickLoop f h p = some h' ∧ Ready h' ∧ (∃ rs, h'.sockets.Tree rs) ∧ Ticked h h'
  | [], f, p, as, h, hr, ht, hc, _ => by
    obtain rfl : p = none := hc
    exact ⟨h, by cases f <;> rfl, hr, ⟨_, ht⟩, .of_sockets ht rfl rfl rfl rfl⟩
  | l :: bs, 0, p, as, h, _, _, _, hf => absurd hf (Nat.not_succ_le_zero _)
  | l :: bs, f + 1, p, as, h, hr, ht, hc, hf => by
    obtain ⟨rfl, hbs⟩ := chain_cons.mp hc
    have hb := (ht.listed.mem l).mp (mem_append_right _ mem_cons_self)
    have hl : h.sockets.Root l := ⟨hb.1, hb.2.1⟩
    obtain ⟨ks, hks⟩ := ht.family l hl
    have hat : At as bs l h := ⟨hr, .inl ⟨hl, ht⟩, hbs, ⟨_, hr.quiet l hl.1⟩, hl.2⟩
    obtain ⟨h₁, hh₁, hat₁, ht₁⟩ := tickChildren_spec ks walkFuel _ [] h hat hks.chain hks.chain.length_le (.inl ⟨hl, hks⟩)
    obtain ⟨h₂, hh₂, hr₂, ht₂, hs₂⟩ := hat₁.tick_root
    have hc₂ : Chain h₂.sockets.next (h₂.sockets.next l) bs := by
      rw [hs₂]
      exact hat₁.rest
    obtain ⟨as', htree⟩ : ∃ as', h₂.sockets.Tree (as' ++ bs) := by
      rw [hs₂]
      obtain ⟨-, ht'⟩ | ⟨-, ht'⟩ := hat₁.tree
      · exact ⟨as ++ [l], by rw [append_assoc]; exact ht'⟩
      · exact ⟨as, ht'⟩
    obtain ⟨h', hh', hr', ht', htick'⟩ := tickLoop_spec bs f _ as' h₂ hr₂ htree hc₂ (Nat.le_of_succ_le_succ hf)
    refine ⟨h', ?_, hr', ht', (ht₁.trans ht₂).trans htick'⟩
    unfold tickLoop
    rw [hh₁, bind_some, hh₂, bind_some]
    exact hh'

theorem Inv.ready (hi : Inv h) : Ready h := ⟨hi.quiet, hi.owned⟩

/-- **A tick.** -/
theorem Inv.tick (hi : Inv h) : ∃ h', h.tick = some h' ∧ Ready h' ∧ (∃ rs, h'.sockets.Tree rs) ∧ Ticked h h' := by
  obtain ⟨rs, ht⟩ := hi.tree
  exact tickLoop_spec rs walkFuel _ [] h hi.ready ht ht.listed.chain ht.listed.chain.length_le

/-! ### One step -/

/-- A root is freed exactly if it is closing and its last child is freed. -/
def Exact (h : Host) (op : Op) (h' : Host) : Prop := ∀ l, h.sockets.Root l → (h'.sockets.live l = false ↔
  ((h.sockets.node l).closing ∨ op = .close l) ∧ ∀ x, h.sockets.Kid l x → h'.sockets.live x = false)

variable {op : Op}

theorem exact_of_live (ht : h.sockets.Tree rs) (hop : ∀ l, op ≠ .close l)
    (hlive : ∀ a, h.sockets.live a → h'.sockets.live a) : Exact h op h' := by
  intro l hl
  refine iff_of_false (by rw [hlive l hl.1]; simp) fun ⟨hc, hall⟩ => ?_
  obtain ⟨x, hx⟩ := ht.has_kid hl (hc.resolve_right (hop l))
  have hdead := hall x hx
  rw [hlive x hx.1] at hdead
  cases hdead

theorem exact_of_deaths (hd : h.sockets.Deaths h'.sockets) (hop : ∀ l, h.sockets.Root l → op ≠ .close l) : Exact h op h' := by
  intro l hl
  rw [hd.exact l hl, or_iff_left (hop l hl)]

theorem Inv.of_change (hi : Inv h) (hr : Ready h') (ht : ∃ rs, h'.sockets.Tree rs)
    (hf : ∀ a, (h'.sockets.node a).father = (h.sockets.node a).father)
    (ha : ∀ a, (h'.sockets.node a).accepted = (h.sockets.node a).accepted)
    (hlive : ∀ a, h'.sockets.live a → h.sockets.live a)
    (hheld : ∀ a, h'.held a → h.held a ∧ h'.sockets.live a ∧ (h'.sockets.node a).closing = false)
    (hb : h'.births = h.births) (hret : h'.returned = h.returned) : Inv h' := by
  refine ⟨ht, hr.quiet, hr.owned, fun a hh => ?_, hret ▸ hi.once, fun p hp => ?_⟩
  · obtain ⟨h1, h2, h3⟩ := hheld a hh
    refine ⟨h2, h3, fun hne => ?_⟩
    rw [hf] at hne
    rw [ha]
    exact (hi.held a h1).2.2 hne
  · rw [hret] at hp
    obtain ⟨h1, h2⟩ := hi.births p hp
    rw [hb, ha]
    exact ⟨h1, fun he hl => h2 he (hlive p.1 hl)⟩

/-- A step that changes no list and nothing about who holds what. -/
theorem Inv.of_sockets (hi : Inv h) (hr : Ready h') (hs : h'.sockets = h.sockets) (hh : h'.held = h.held)
    (hb : h'.births = h.births) (hret : h'.returned = h.returned) : Inv h' := by
  refine hi.of_change hr ?_ (fun a => by rw [hs]) (fun a => by rw [hs]) (fun a hl => hs ▸ hl) (fun a ha => ?_) hb hret
  · rw [hs]
    exact hi.tree
  · rw [hh] at ha
    rw [hs]
    exact ⟨ha, (hi.held a ha).1, (hi.held a ha).2.1⟩

theorem exact_of_sockets (hi : Inv h) (hs : h'.sockets = h.sockets) (hop : ∀ l, op ≠ .close l) : Exact h op h' := by
  obtain ⟨rs, ht⟩ := hi.tree
  exact exact_of_live ht hop fun a hl => hs ▸ hl

theorem Inv.set_sock (hi : Inv h) (hq : h.sockets.live a → Quiet (h.sockets.node a).accepted s) :
    Inv { h with sock := Function.update h.sock a s } := by
  have hr : Ready (h.store a s) := hi.ready.store hq
  exact hi.of_sockets ⟨hr.quiet, hr.owned⟩ rfl rfl rfl rfl

theorem Inv.tick_step (hi : Inv h) : ∃ h', h.exec .tick = some h' ∧ Inv h' ∧ Exact h .tick h' := by
  obtain ⟨h', htick, hr, ht, hd⟩ := hi.tick
  refine ⟨h', htick, hi.of_change hr ht hd.deaths.father hd.accepted hd.deaths.live (fun a ha => ?_) hd.births hd.returned,
    exact_of_deaths hd.deaths fun _ _ => nofun⟩
  rw [hd.held] at ha
  obtain ⟨h1, h2, h3⟩ := hi.held a ha
  refine ⟨ha, ?_, by rw [hd.deaths.closing]; exact h2⟩
  by_cases hf : (h.sockets.node a).father = none
  · by_contra hdead
    have hclosing := ((hd.deaths.exact a ⟨h1, hf⟩).mp (by simpa using hdead)).1
    rw [h2] at hclosing
    cases hclosing
  · exact hd.safe a h1 (h3 hf)

theorem Inv.of_birth (hi : Inv h) (ht : ∃ rs, h'.sockets.Tree rs)
    (hlive : ∀ y, y ≠ x → h'.sockets.live y = h.sockets.live y)
    (hnode : ∀ y, y ≠ x → (h'.sockets.node y).father = (h.sockets.node y).father ∧
      (h'.sockets.node y).accepted = (h.sockets.node y).accepted ∧ (h'.sockets.node y).closing = (h.sockets.node y).closing)
    (hsock : ∀ y, y ≠ x → h'.sock y = h.sock y) (hheld : ∀ y, y ≠ x → h'.held y = h.held y)
    (hacc : (h'.sockets.node x).accepted = false) (hquiet : ∀ i, ¬ i → Quiet i (h'.sock x))
    (hnew : h'.held x → h'.sockets.live x ∧ (h'.sockets.node x).closing = false ∧ (h'.sockets.node x).father = none)
    (hb : h'.births = Function.update h.births x (h.births x + 1)) (hret : h'.returned = h.returned) : Inv h' := by
  refine ⟨ht, fun y hy => ?_, fun y hy hya => ?_, fun y hy => ?_, hret ▸ hi.once, fun p hp => ?_⟩
  · by_cases hyx : y = x
    · rw [hyx]
      exact hquiet _ (by rw [hacc]; exact Bool.false_ne_true)
    · rw [hsock y hyx, (hnode y hyx).2.1]
      exact hi.quiet y (hlive y hyx ▸ hy)
  · by_cases hyx : y = x
    · rw [hyx, hacc] at hya
      cases hya
    · rw [(hnode y hyx).1]
      exact hi.owned y (hlive y hyx ▸ hy) ((hnode y hyx).2.1 ▸ hya)
  · by_cases hyx : y = x
    · rw [hyx] at hy ⊢
      obtain ⟨h1, h2, h3⟩ := hnew hy
      exact ⟨h1, h2, fun hne => absurd h3 hne⟩
    · rw [hlive y hyx, (hnode y hyx).1, (hnode y hyx).2.1, (hnode y hyx).2.2]
      exact hi.held y (hheld y hyx ▸ hy)
  · rw [hret] at hp
    obtain ⟨h1, h2⟩ := hi.births p hp
    rw [hb]
    by_cases hpx : p.1 = x
    · rw [hpx, update_self]
      exact ⟨(hpx ▸ h1).trans (Nat.le_succ _), fun he => absurd (he ▸ hpx ▸ h1) (Nat.not_succ_le_self _)⟩
    · rw [update_of_ne hpx, hlive p.1 hpx, (hnode p.1 hpx).2.1]
      exact ⟨h1, h2⟩

theorem ne_of_live {y : Addr} (hx : h.sockets.live x = false) (hy : h.sockets.live y) : y ≠ x := by
  rintro rfl
  rw [hx] at hy
  cases hy

theorem Inv.socket (hi : Inv h) {m : Option Addr} (hm : ∀ x, m = some x → h.sockets.live x = false) (pcb inet : Bool) :
    Inv (h.socket m pcb inet) ∧ Exact h (.socket m pcb inet) (h.socket m pcb inet) := by
  obtain ⟨rs, ht⟩ := hi.tree
  cases m with
  | none => exact ⟨hi, exact_of_live ht (fun _ => nofun) fun _ => id⟩
  | some x =>
    have hx := hm x rfl
    set h' := h.socket (some x) pcb inet
    have hnode : ∀ y, y ≠ x → h'.sockets.node y = h.sockets.node y := fun y hy => update_of_ne hy _ _
    have hlive : ∀ y, y ≠ x → h'.sockets.live y = h.sockets.live y := fun y hy => update_of_ne hy _ _
    have hself : h'.sockets.node x = Node.new .tcp := update_self ..
    have hsock : h'.sock x = .new inet h.cfg ⟨[], 0, h.tsn, 0⟩ h.net := update_self ..
    have hheld : h'.held x = pcb := update_self ..
    have hselflive : h'.sockets.live x = pcb := by
      show Function.update h.sockets.live x (decide (Proto.tcp = .udp) || pcb) x = pcb
      rw [update_self]
      rfl
    refine ⟨hi.of_birth ⟨rs, ht.socket hx pcb⟩ hlive (fun y hy => by rw [hnode y hy]; exact ⟨rfl, rfl, rfl⟩)
      (fun y hy => update_of_ne hy _ _) (fun y hy => update_of_ne hy _ _) (by rw [hself]; rfl)
      (fun i hni => ?_) (fun hy => ?_) rfl rfl, exact_of_live ht (fun _ => nofun) fun y hy => ?_⟩
    · rw [hsock]
      exact Quiet.of_state rfl rfl (.inl rfl) hni
    · rw [hselflive, hself, ← hheld]
      exact ⟨hy, rfl, rfl⟩
    · exact (hlive y (ne_of_live hx hy)).trans hy

theorem Inv.bind (hi : Inv h) {port : UInt16} (hl : h.Legal (.bind a port)) :
    ∃ h', h.exec (.bind a port) = some h' ∧ Inv h' ∧ Exact h (.bind a port) h' := by
  obtain ⟨rs, ht⟩ := hi.tree
  obtain ⟨hheld, hroot, h0, hport⟩ := hl
  obtain ⟨r, hr, htree, hlive, hnode⟩ := ht.bind ⟨(hi.held a hheld).1, hroot⟩ h0 hport
  have hfields : ∀ y, (r.2.node y).father = (h.sockets.node y).father ∧ (r.2.node y).accepted = (h.sockets.node y).accepted ∧
      (r.2.node y).closing = (h.sockets.node y).closing := by
    intro y
    rcases hnode y with he | ⟨rfl, he⟩
    · rw [he]
      exact ⟨rfl, rfl, rfl⟩
    · rw [he]
      exact ⟨rfl, rfl, rfl⟩
  refine ⟨{ h with sockets := r.2 }, ?_, ?_, exact_of_live ht (fun _ => nofun) fun y hy => ?_⟩
  · unfold exec
    dsimp only
    rw [hr]
    rfl
  · refine hi.of_change ⟨fun y hy => ?_, fun y hy hya => ?_⟩ htree (fun y => (hfields y).1) (fun y => (hfields y).2.1)
      (fun y hy => hlive ▸ hy) (fun y hy => ⟨hy, ?_, ?_⟩) rfl rfl
    · show Quiet (r.2.node y).accepted (h.sock y)
      rw [(hfields y).2.1]
      exact hi.quiet y (hlive ▸ hy)
    · show (r.2.node y).father ≠ none
      rw [(hfields y).1]
      exact hi.owned y (hlive ▸ hy) ((hfields y).2.1 ▸ hya)
    · show r.2.live y
      rw [hlive]
      exact (hi.held y hy).1
    · show (r.2.node y).closing = false
      rw [(hfields y).2.2]
      exact (hi.held y hy).2.1
  · show r.2.live y
    rw [hlive]
    exact hy

theorem listen_frame (s : Sockets) (a : Addr) (backlog : UInt8) : (s.listen a backlog).2.live = s.live ∧
    ∀ y, ((s.listen a backlog).2.node y).father = (s.node y).father ∧
      ((s.listen a backlog).2.node y).accepted = (s.node y).accepted ∧
      ((s.listen a backlog).2.node y).closing = (s.node y).closing := by
  have hset : ∀ n : Node, n.father = (s.node a).father → n.accepted = (s.node a).accepted → n.closing = (s.node a).closing →
      ∀ y, (Function.update s.node a n y).father = (s.node y).father ∧
        (Function.update s.node a n y).accepted = (s.node y).accepted ∧
        (Function.update s.node a n y).closing = (s.node y).closing := by
    intro n hf ha hc y
    by_cases hy : y = a
    · rw [hy, update_self]
      exact ⟨hf, ha, hc⟩
    · rw [update_of_ne hy]
      exact ⟨rfl, rfl, rfl⟩
  unfold Sockets.listen
  simp only [update_self, update_idem]
  split_ifs
  · exact ⟨rfl, hset _ rfl rfl rfl⟩
  · exact ⟨rfl, hset _ rfl rfl rfl⟩
  · exact ⟨rfl, hset _ rfl rfl rfl⟩
  · exact ⟨rfl, hset _ rfl rfl rfl⟩

theorem Inv.listen (hi : Inv h) {backlog : UInt8} (hl : h.Legal (.listen a backlog)) :
    Inv (h.listen a backlog) ∧ Exact h (.listen a backlog) (h.listen a backlog) := by
  obtain ⟨rs, ht⟩ := hi.tree
  obtain ⟨hheld, hroot⟩ := hl
  have halive := (hi.held a hheld).1
  have hna : ¬ (h.sockets.node a).accepted := fun hacc => hi.owned a halive hacc hroot
  obtain ⟨hlive, hnode⟩ := listen_frame h.sockets a backlog
  have htree := ht.listen ⟨halive, hroot⟩ backlog
  refine ⟨hi.of_change ⟨fun y hy => ?_, fun y hy hya => ?_⟩ ⟨rs, htree⟩ (fun y => (hnode y).1) (fun y => (hnode y).2.1)
    (fun y hy => hlive ▸ hy) (fun y hy => ⟨hy, ?_, ?_⟩) rfl rfl, exact_of_live ht (fun _ => nofun) fun y hy => ?_⟩
  · have hly : h.sockets.live y := hlive ▸ hy
    show Quiet ((h.sockets.listen a backlog).2.node y).accepted _
    rw [(hnode y).2.1]
    by_cases hya : y = a
    · subst hya
      have hself : (h.listen y backlog).sock y = if (h.sockets.listen y backlog).1 then
          { h.sock y with pcb := { (h.sock y).pcb with state := .listen } } else h.sock y := update_self ..
      rw [hself]
      split_ifs
      · exact Quiet.of_state (hi.quiet y hly).outq rfl (.inr (.inl rfl)) hna
      · exact hi.quiet y hly
    · have hother : (h.listen a backlog).sock y = h.sock y := update_of_ne hya _ _
      rw [hother]
      exact hi.quiet y hly
  · show ((h.sockets.listen a backlog).2.node y).father ≠ none
    rw [(hnode y).1]
    exact hi.owned y (hlive ▸ hy) ((hnode y).2.1 ▸ hya)
  · show (h.sockets.listen a backlog).2.live y
    rw [hlive]
    exact (hi.held y hy).1
  · show ((h.sockets.listen a backlog).2.node y).closing = false
    rw [(hnode y).2.2]
    exact (hi.held y hy).2.1
  · show (h.sockets.listen a backlog).2.live y
    rw [hlive]
    exact hy

theorem Inv.configure (hi : Inv h) (a : Addr) (tx rx : UInt32) (p q : Bool) :
    Inv (h.configure a tx rx p q) ∧ Exact h (.configure a tx rx p q) (h.configure a tx rx p q) := by
  refine ⟨hi.set_sock fun hl => ?_, exact_of_sockets hi rfl fun _ => nofun⟩
  exact (hi.quiet a hl).of_eq rfl rfl rfl rfl

/-! ### Segments -/

theorem Inv.adopt (hi : Inv h) (hl : h.sockets.Root l) (hroom : (h.sockets.node l).acceptedNum < (h.sockets.node l).backlog)
    (hx : h.sockets.live x = false) {c : Tcp.Child} (hc : c.pcb.state = .synGet)
    (hpeer : ∀ y, h.sockets.Kid l y → (h.sockets.node y).remote ≠ ⟨c.addr, c.port⟩) (opts : Tcp.Opts) :
    Inv (h.adopt l x c opts) ∧ ∀ a, h.sockets.live a → (h.adopt l x c opts).sockets.live a := by
  obtain ⟨rs, ht⟩ := hi.tree
  have hne : l ≠ x := ne_of_live hx hl.1
  have hs := Sockets.adopt_spec (s := h.sockets) hne ⟨c.addr, c.port⟩
  set h' := h.adopt l x c opts
  have hs : h.sockets.Adopted l x ⟨c.addr, c.port⟩ h'.sockets := hs
  have hlive : ∀ y, y ≠ x → h'.sockets.live y = h.sockets.live y := fun y hy => by rw [hs.live, update_of_ne hy]
  have hheld : h'.held x = false := update_self ..
  have hsock : (h'.sock x).outq = [] ∧ (h'.sock x).pcb = c.pcb := by
    show (Function.update h.sock x _ x).outq = [] ∧ (Function.update h.sock x _ x).pcb = c.pcb
    rw [update_self]
    exact ⟨rfl, rfl⟩
  refine ⟨hi.of_birth ⟨rs, ht.adopt hl hroom hx hpeer⟩ hlive (fun y hy => ?_) (fun y hy => update_of_ne hy _ _)
    (fun y hy => update_of_ne hy _ _) (by rw [hs.child]; rfl) (fun i hni => ?_) (fun hh => ?_) rfl rfl,
    fun a ha => (hlive a (ne_of_live hx ha)).trans ha⟩
  · by_cases hyl : y = l
    · rw [hyl, hs.father]
      exact ⟨rfl, rfl, rfl⟩
    · rw [hs.other y hyl hy]
      exact ⟨rfl, rfl, rfl⟩
  · exact Quiet.of_state hsock.1 (by rw [hsock.2]; exact hc) (.inr (.inr rfl)) hni
  · rw [hheld] at hh
    cases hh

theorem Inv.store (hi : Inv h) (hq : h.sockets.live a → Quiet (h.sockets.node a).accepted s) : Inv (h.store a s) :=
  hi.of_sockets (hi.ready.store hq) rfl rfl rfl rfl

theorem Inv.input (hi : Inv h) {seg : Tcp.Seg} (ht : h.sockets.Target ⟨seg.srcAddr, seg.srcPort⟩ a) {m : Option Addr}
    (hm : ∀ x, m = some x → h.sockets.live x = false) :
    ∃ h', h.input a seg m = some h' ∧ Inv h' ∧ ∀ y, h.sockets.live y → h'.sockets.live y := by
  obtain ⟨s, hs⟩ := isSome_iff_exists.mp (Tcp.Sock.input_returns (h.load a m.toList.length) seg)
  have hquiet := hi.quiet a ht.live
  unfold Host.input
  rw [hs, map_some]
  rcases Tcp.Sock.input_calm (hquiet.load _) hs with hc | ⟨rwnd, hh⟩
  · -- the socket made no child
    have hnil : s.listener.children = [] := by
      rw [hc.listener]
      rfl
    rw [hnil]
    exact ⟨_, rfl, hi.store fun _ => Quiet.of_calm hc, fun _ => id⟩
  · -- a listener with room made one, for a peer that has none
    obtain ⟨pcb, hpcb, hlisten⟩ := hh.child
    have hroom : (h.sockets.node a).acceptedNum < (h.sockets.node a).backlog := hh.room
    obtain ⟨hl, hpeer⟩ := ht.fresh hroom
    have hq : Quiet (h.sockets.node a).accepted s :=
      hquiet.of_eq hh.rest.2.1 (congrArg (·.state) hh.rest.2.2.2) (congrArg (·.txTimeoutMs) hh.rest.2.2.2)
        (congrArg (·.lclose) hh.rest.2.2.2)
    have hcons : s.listener.children = [⟨seg.srcAddr, seg.srcPort, pcb⟩] := by
      rw [hlisten]
      rfl
    rw [hcons]
    cases m with
    | none => exact absurd rfl hh.sockets
    | some x =>
      obtain ⟨h1, h2⟩ := (hi.store fun _ => hq).adopt (l := a) hl hroom (hm x rfl) (c := ⟨_, _, pcb⟩) hpcb hpeer s.opts
      exact ⟨_, rfl, h1, h2⟩

/-- **A segment.** -/
theorem Inv.segment (hi : Inv h) {dst : UInt32} {port : UInt16} {seg : Tcp.Seg} {m : Option Addr}
    (hl : h.Legal (.segment dst port seg m)) :
    ∃ h', h.exec (.segment dst port seg m) = some h' ∧ Inv h' ∧ Exact h (.segment dst port seg m) h' := by
  obtain ⟨rs, ht⟩ := hi.tree
  obtain ⟨r, hr, htarget⟩ := ht.find dst port ⟨seg.srcAddr, seg.srcPort⟩
  have hdiscard : Inv (h.discard seg) := hi.of_sockets ⟨hi.quiet, hi.owned⟩ rfl rfl rfl rfl
  unfold exec protoInput
  dsimp only
  rw [hr, bind_some]
  cases r with
  | none => exact ⟨_, rfl, hdiscard, exact_of_live ht (fun _ => nofun) fun _ => id⟩
  | some t =>
    dsimp only
    split_ifs
    · obtain ⟨h', hh', hinv, hlive⟩ := hi.input (htarget t rfl) hl
      exact ⟨h', hh', hinv, exact_of_live ht (fun _ => nofun) hlive⟩
    · exact ⟨_, rfl, hdiscard, exact_of_live ht (fun _ => nofun) fun _ => id⟩

/-! ### Accepting -/

/-- An open connection counts as opened from now on. -/
theorem Quiet.of_established {j : Prop} (hq : Quiet i s) (hst : s.pcb.state = .established) : Quiet j s :=
  ⟨rfl, hq.outq, rfl, rfl, hq.timeout, hq.lclose, fun _ => ⟨.inl hst, hq.timeout (.inl hst)⟩⟩

theorem Inv.handOut (hi : Inv h) (hk : h.sockets.Kid l a) (hst : (h.sock a).pcb.state = .established)
    (hacc : (h.sockets.node a).accepted = false) : Inv (h.handOut a) := by
  obtain ⟨rs, ht⟩ := hi.tree
  set h' := h.handOut a
  have hself : h'.sockets.node a = { h.sockets.node a with accepted := true } := update_self ..
  have hother : ∀ y, y ≠ a → h'.sockets.node y = h.sockets.node y := fun y hy => update_of_ne hy _ _
  have hnew : (a, h.births a) ∉ h.returned := fun hm => by
    have hpast := (hi.births _ hm).2 rfl hk.1
    rw [hacc] at hpast
    cases hpast
  refine ⟨⟨rs, ht.of_eq rfl rfl rfl fun y => ?_⟩, fun y hy => ?_, fun y hy hya => ?_, fun y hy => ?_, ?_, fun p hp => ?_⟩
  · by_cases hy : y = a
    · rw [hy, hself]
    · rw [hother y hy]
  · by_cases hya : y = a
    · subst hya
      exact (hi.quiet y hk.1).of_established hst
    · rw [hother y hya]
      exact hi.quiet y hy
  · by_cases hyx : y = a
    · rw [hyx, hself]
      show (h.sockets.node a).father ≠ none
      rw [hk.2]
      exact some_ne_none l
    · rw [hother y hyx] at hya ⊢
      exact hi.owned y hy hya
  · by_cases hya : y = a
    · rw [hya, hself]
      refine ⟨hk.1, ?_, fun _ => rfl⟩
      show (h.sockets.node a).closing = false
      by_contra hc
      exact hk.ne_root (ht.closing a hk.1 (by simpa using hc)).1 rfl
    · have hheld : h'.held y = h.held y := update_of_ne hya _ _
      rw [hother y hya]
      exact hi.held y (hheld ▸ hy)
  · refine hi.once.append (nodup_singleton _) fun p hp hp' => ?_
    rw [mem_singleton.mp hp'] at hp
    exact hnew hp
  · rcases mem_append.mp hp with hp | hp
    · obtain ⟨h1, h2⟩ := hi.births p hp
      refine ⟨h1, fun he hlive => ?_⟩
      by_cases hpa : p.1 = a
      · rw [hpa, hself]
      · rw [hother p.1 hpa]
        exact h2 he hlive
    · rw [mem_singleton.mp hp]
      exact ⟨le_refl _, fun _ _ => by rw [hself]⟩

theorem Inv.acceptTry (hi : Inv h) (hl : h.sockets.Root l) :
    ∃ r, h.acceptTry l = some r ∧ Inv r.2 ∧ ∀ y, h.sockets.live y → r.2.sockets.live y := by
  obtain ⟨rs, ht⟩ := hi.tree
  obtain ⟨ks, hks⟩ := ht.family l hl
  obtain ⟨r, hr, hfound⟩ := h.acceptLoop_spec walkFuel _ ks hks.chain hks.chain.length_le
  unfold Host.acceptTry
  rw [hr]
  cases r with
  | none => exact ⟨_, rfl, hi, fun _ => id⟩
  | some a =>
    obtain ⟨hmem, hst, hacc⟩ := hfound a rfl
    exact ⟨_, rfl, hi.handOut ((hks.mem a).mp hmem) hst hacc, fun _ => id⟩

theorem Inv.setTxSm (hi : Inv h) (l : Addr) (sm : Option ℕ) : Inv (h.setTxSm l sm) :=
  hi.set_sock fun hl => (hi.quiet l hl).of_eq rfl rfl rfl rfl

/-- **`vsfip_tcp_accept`**, from anywhere in its protothread. -/
theorem Inv.accept (hi : Inv h) {sm : ℕ} {pc : AcceptPc} {evt : Tcp.Evt} (hl : h.Legal (.accept l sm pc evt)) :
    ∃ h', h.exec (.accept l sm pc evt) = some h' ∧ Inv h' ∧ Exact h (.accept l sm pc evt) h' := by
  obtain ⟨rs, ht⟩ := hi.tree
  have hexact : ∀ h', (∀ y, h.sockets.live y → h'.sockets.live y) → Exact h (.accept l sm pc evt) h' :=
    fun h' hlive => exact_of_live ht (fun _ => nofun) hlive
  unfold exec Host.accept
  cases pc with
  | start =>
    dsimp only
    split_ifs
    · exact ⟨_, rfl, hi, hexact _ fun _ => id⟩
    · exact ⟨_, rfl, hi, hexact _ fun _ => id⟩
    · obtain ⟨r, hr, hinv, hlive⟩ := hi.acceptTry hl
      rw [hr]
      cases hsome : r.1.isSome with
      | true => exact ⟨r.2, by simp [hsome], hinv, hexact _ hlive⟩
      | false => exact ⟨r.2.setTxSm l (some sm), by simp [hsome], hinv.setTxSm l _, hexact _ hlive⟩
  | waiting =>
    dsimp only
    split_ifs
    · obtain ⟨r, hr, hinv, hlive⟩ := (hi.setTxSm l none).acceptTry (l := l) hl
      rw [hr]
      exact ⟨r.2, rfl, hinv, hexact _ hlive⟩
    · exact ⟨_, rfl, hi.setTxSm l none, hexact _ fun _ => id⟩
    · exact ⟨_, rfl, hi, hexact _ fun _ => id⟩

/-! ### Closing -/

theorem Inv.of_close (hi : Inv h) (hr : Ready h') (ht : ∃ rs, h'.sockets.Tree rs)
    (hf : ∀ y, (h'.sockets.node y).father = (h.sockets.node y).father)
    (ha : ∀ y, (h'.sockets.node y).accepted = (h.sockets.node y).accepted)
    (hc : ∀ y, y ≠ a → (h'.sockets.node y).closing = (h.sockets.node y).closing)
    (hlive : ∀ y, h'.sockets.live y → h.sockets.live y) (hstay : ∀ y, y ≠ a → h.held y → h'.sockets.live y)
    (hheld : h'.held = Function.update h.held a false) (hb : h'.births = h.births) (hret : h'.returned = h.returned) :
    Inv h' := by
  refine hi.of_change hr ht hf ha hlive (fun y hy => ?_) hb hret
  rw [hheld] at hy
  by_cases hya : y = a
  · rw [hya, update_self] at hy
    cases hy
  · rw [update_of_ne hya] at hy
    refine ⟨hy, hstay y hya hy, ?_⟩
    rw [hc y hya]
    exact (hi.held y hy).2.1

/-- **A child is closed by its user.** -/
theorem Inv.close_child (hi : Inv h) (hheld : h.held a) (hfather : (h.sockets.node a).father = some l) :
    ∃ h', h.close a = some h' ∧ Inv h' ∧ Exact h (.close a) h' := by
  obtain ⟨rs, ht⟩ := hi.tree
  have hk : h.sockets.Kid l a := ⟨(hi.held a hheld).1, hfather⟩
  obtain ⟨hl, -⟩ := ht.father l a hk
  obtain ⟨ks, hf⟩ := ht.family l hl
  obtain ⟨h', hun, ho, hu⟩ := unlink_child ht hk hf
  have hdead : ¬ h'.sockets.live a := fun hla => ((ho.live a).mp hla).2.1 rfl
  have hdeaths := ho.deaths ht hk hf
  have hready := hu.ready ho ht hk hf (fun y _ hy => hi.quiet y hy) hi.owned
  set g : Host := { h' with held := Function.update h'.held a false }
  have hg : Ready g := ⟨hready.quiet, hready.owned⟩
  have hgheld : g.held = Function.update h.held a false := by
    show Function.update h'.held a false = _
    rw [hu.held]
  refine ⟨g.freeBuffers a, ?_, ?_, exact_of_deaths hdeaths fun m hm he => ?_⟩
  · unfold Host.close
    rw [hun, map_some]
    exact congrArg some (if_neg hdead)
  · refine hi.of_close (a := a) (hg.store fun hla => absurd hla hdead) ⟨_, ho.tree ht hk hf⟩ hdeaths.father ho.accepted
      (fun y _ => hdeaths.closing y) hdeaths.live (fun y hya hy => ?_) hgheld hu.births hu.returned
    obtain ⟨h1, h2, -⟩ := hi.held y hy
    refine (ho.live y).mpr ⟨h1, hya, ?_⟩
    rintro ⟨rfl, hlast⟩
    have hc := hlast.1
    rw [h2] at hc
    cases hc
  · obtain rfl : a = m := by injection he
    exact hk.ne_root hm rfl

/-- **A root is closed by its user.** -/
theorem Inv.close_root (hi : Inv h) (hheld : h.held a) (hfather : (h.sockets.node a).father = none) :
    ∃ h', h.close a = some h' ∧ Inv h' ∧ Exact h (.close a) h' := by
  obtain ⟨rs, ht⟩ := hi.tree
  have ha : h.sockets.Root a := ⟨(hi.held a hheld).1, hfather⟩
  obtain ⟨ks, hf⟩ := ht.family a ha
  obtain ⟨s', hclose, htree, hnode, hcase⟩ := ht.close_root ha hf
  have hun : h.unlink a = some { h with sockets := s' } := by
    unfold unlink
    rw [hclose, hfather]
    rfl
  set g : Host := { h with sockets := s', held := Function.update h.held a false } with hgdef
  have hdown : ∀ y, s'.live y → h.sockets.live y := by
    rcases hcase with ⟨-, hlive, -⟩ | ⟨-, hlive, -⟩
    · exact fun y hy => hlive ▸ hy
    · intro y hy
      rw [hlive] at hy
      by_cases hya : y = a
      · rw [hya]
        exact ha.1
      · rwa [update_of_ne hya] at hy
  have hstay : ∀ y, y ≠ a → h.sockets.live y → s'.live y := by
    rcases hcase with ⟨-, hlive, -⟩ | ⟨-, hlive, -⟩
    · exact fun y _ hy => hlive ▸ hy
    · intro y hya hy
      rw [hlive, update_of_ne hya]
      exact hy
  have hg : Ready g := by
    refine ⟨fun y hy => ?_, fun y hy hya => ?_⟩
    · show Quiet (s'.node y).accepted (h.sock y)
      rw [(hnode y).2]
      exact hi.quiet y (hdown y hy)
    · show (s'.node y).father ≠ none
      rw [(hnode y).1]
      exact hi.owned y (hdown y hy) ((hnode y).2 ▸ hya)
  have hclosing : ∀ y, y ≠ a → (s'.node y).closing = (h.sockets.node y).closing := by
    intro y hya
    rcases hcase with ⟨-, -, hc⟩ | ⟨-, -, hn⟩
    · rw [hc, if_neg hya]
    · rw [hn]
  have hinv : ∀ h', Ready h' → h'.sockets = s' → h'.held = g.held → h'.births = h.births → h'.returned = h.returned → Inv h' :=
    fun h' hr hs hh hb hret => hi.of_close (a := a) hr (hs ▸ htree) (fun y => hs ▸ (hnode y).1) (fun y => hs ▸ (hnode y).2)
      (fun y hya => hs ▸ hclosing y hya) (fun y hy => hdown y (hs ▸ hy))
      (fun y hya hy => hs ▸ hstay y hya (hi.held y hy).1) hh hb hret
  have hother : ∀ h' : Host, h'.sockets = s' → ∀ l, h.sockets.Root l → l ≠ a → (h'.sockets.live l = false ↔
      ((h.sockets.node l).closing ∨ Op.close a = .close l) ∧ ∀ x, h.sockets.Kid l x → h'.sockets.live x = false) := by
    intro h' hs l hl hla
    rw [hs]
    refine iff_of_false (by rw [hstay l hla hl.1]; simp) fun ⟨hc, hall⟩ => ?_
    obtain ⟨x, hx⟩ := ht.has_kid hl (hc.resolve_right fun he => hla (by injection he with he; exact he.symm))
    have hdead := hall x hx
    rw [hstay x (hx.ne_root ha) hx.1] at hdead
    cases hdead
  by_cases hl : s'.live a
  · -- it has children, and waits for them
    refine ⟨g, ?_, hinv g hg rfl rfl rfl rfl, fun l hroot => ?_⟩
    · unfold Host.close
      rw [hun, map_some]
      exact congrArg some (if_pos hl)
    · by_cases hla : l = a
      · rw [hla]
        refine iff_of_false (by show ¬ s'.live a = false; rw [hl]; simp) fun ⟨_, hall⟩ => ?_
        rcases hcase with ⟨hks, hlive, -⟩ | ⟨-, hlive, -⟩
        · obtain ⟨x, hx⟩ := exists_mem_of_ne_nil ks hks
          have hkx := (hf.mem x).mp hx
          have hdead : s'.live x = false := hall x hkx
          rw [hlive, hkx.1] at hdead
          cases hdead
        · rw [hlive, update_self] at hl
          cases hl
      · exact hother g rfl l hroot hla
  · -- it had none
    refine ⟨g.freeBuffers a, ?_, hinv _ (hg.store fun hla => absurd hla hl) rfl rfl rfl rfl, fun l hroot => ?_⟩
    · unfold Host.close
      rw [hun, map_some]
      exact congrArg some (if_neg hl)
    · by_cases hla : l = a
      · rw [hla]
        refine iff_of_true (by show s'.live a = false; simpa using hl) ⟨.inr rfl, fun x hx => ?_⟩
        rcases hcase with ⟨-, hlive, -⟩ | ⟨hks, -, -⟩
        · rw [hlive] at hl
          exact absurd ha.1 hl
        · have hmem := (hf.mem x).mpr hx
          rw [hks] at hmem
          exact absurd hmem not_mem_nil
      · exact hother _ rfl l hroot hla

/-! ### Every run -/

/-- **A step** ends, keeps what holds, and frees a listener exactly if it has to. -/
theorem Inv.exec (hi : Inv h) (hl : h.Legal op) : ∃ h', h.exec op = some h' ∧ Inv h' ∧ Exact h op h' := by
  cases op with
  | socket m pcb inet => exact ⟨_, rfl, hi.socket hl pcb inet⟩
  | bind a port => exact hi.bind hl
  | listen a backlog => exact ⟨_, rfl, hi.listen hl⟩
  | configure a tx rx p q => exact ⟨_, rfl, hi.configure a tx rx p q⟩
  | segment dst port seg m => exact hi.segment hl
  | tick => exact hi.tick_step
  | accept l sm pc evt => exact hi.accept hl
  | close a =>
    cases hf : (h.sockets.node a).father with
    | none => exact hi.close_root hl hf
    | some l => exact hi.close_child hl hf

theorem Start.inv (hs : Start h) : Inv h := by
  have hdead : ∀ {p : Prop} (a : Addr), h.sockets.live a → p := fun a ha => by
    rw [hs.live a] at ha
    cases ha
  refine ⟨⟨[], ⟨⟨hs.conns, ?_, nodup_nil⟩, fun a ha => hdead a ha, fun l hl => hdead l hl.1, fun l x hk => hdead x hk.1,
    fun l hl => hdead l hl⟩⟩, fun a ha => hdead a ha, fun a ha => hdead a ha, fun a ha => ?_, ?_, ?_⟩
  · exact fun a => iff_of_false not_mem_nil fun hb => hdead a hb.1
  · rw [hs.held a] at ha
    cases ha
  · rw [hs.returned]
    exact nodup_nil
  · rw [hs.returned]
    exact fun p hp => absurd hp not_mem_nil

theorem reach_inv (hr : system.Reach h) : Inv h := by
  refine hr.invariant (fun _ => Start.inv) ?_
  intro h op h' _ hi ⟨hl, hstep⟩
  obtain ⟨h'', hexec, hinv, -⟩ := hi.exec hl
  rw [hstep] at hexec
  obtain rfl := some.inj hexec
  exact hinv

/-- What the listener `l` says about its children. -/
structure Accounted (h : Host) (l : Addr) (ks : List Addr) : Prop where
  chain : Chain h.sockets.next (h.sockets.node l).child ks
  mem : ∀ x, x ∈ ks ↔ h.sockets.Kid l x
  num : (h.sockets.node l).acceptedNum.toNat = ks.length
  room : (h.sockets.node l).acceptedNum ≤ (h.sockets.node l).backlog
  peers : (ks.map fun x => (h.sockets.node x).remote).Nodup
  last : (h.sockets.node l).closing → ks ≠ []

/-- **Listeners are accounted for in every run.** -/
theorem listener_accounting (hr : system.Reach h) : (∀ l, h.sockets.Root l → ∃ ks, h.Accounted l ks) ∧
    h.returned.Nodup ∧ ∀ op, h.Legal op → ∃ h', h.exec op = some h' ∧ Exact h op h' := by
  have hi := reach_inv hr
  obtain ⟨rs, ht⟩ := hi.tree
  refine ⟨fun l hl => ?_, hi.once, fun op hop => ?_⟩
  · obtain ⟨ks, hf⟩ := ht.family l hl
    refine ⟨ks, hf.chain, hf.mem, hf.num, ?_, hf.peers, fun hc => ?_⟩
    · rw [UInt8.le_iff_toNat_le, hf.num]
      exact hf.room
    · obtain ⟨x, hx⟩ := ht.has_kid hl hc
      exact ne_nil_of_mem ((hf.mem x).mpr hx)
  · obtain ⟨h', hexec, -, hexact⟩ := hi.exec hop
    exact ⟨h', hexec, hexact⟩

/-- Nothing is in use. -/
def cold : Host where
  sockets := ⟨fun _ => Node.new .tcp, fun _ => none, fun _ => false, fun _ => none, fun _ => 40000⟩
  sock _ := .new true ⟨14, 4096, 4096⟩ ⟨[], 0, 0, 0⟩ (.init none [])
  net := .init none []
  tsn := 0
  cfg := ⟨14, 4096, 4096⟩
  births _ := 0
  held _ := false
  returned := []

/-- The step `op`, which does end. -/
def next (h : Host) (op : Op) : Host := (h.exec op).getD h

/-- Socket 16 listens at port 80 with room for one child, and a peer sends a SYN. -/
def asked : Host := ((((cold.next (.socket (some 16) true true)).next (.bind 16 80)).next (.listen 16 1)).next
  (.segment 0xc0a80001 80 (.plain 700 0 { syn := true } [] Buf.nil_lt) (some 32)))

theorem Inv.next (hi : Inv h) (hr : system.Reach h) (op : Op) (hl : h.Legal op) : system.Reach (h.next op) := by
  obtain ⟨h', hexec, -⟩ := hi.exec hl
  refine hr.step (i := op) ⟨hl, ?_⟩
  unfold Host.next
  rw [hexec]
  rfl

theorem asked_reach : system.Reach asked := by
  have h0 : system.Reach cold := .start ⟨fun _ => rfl, rfl, fun _ => rfl, rfl⟩
  have h1 := (reach_inv h0).next h0 (.socket (some 16) true true) fun _ _ => rfl
  have h2 := (reach_inv h1).next h1 (.bind 16 80) ⟨by decide, by decide, by decide, by decide⟩
  have h3 := (reach_inv h2).next h2 (.listen 16 1) ⟨by decide, by decide⟩
  exact (reach_inv h3).next h3 (.segment 0xc0a80001 80 (.plain 700 0 { syn := true } [] Buf.nil_lt) (some 32))
    fun y hy => by cases hy; decide

theorem listener_accounting_syn : (asked.sockets.node 16).acceptedNum = 1 ∧ ∃ ks, asked.Accounted 16 ks :=
  ⟨by decide, (listener_accounting asked_reach).1 16 ⟨by decide, by decide⟩⟩

end Host
end Vsf
