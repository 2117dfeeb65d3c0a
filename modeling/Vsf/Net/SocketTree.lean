/-
# Listeners and their children

`Tree` says what holds of the TCP sockets in use: the bound roots are the list of the protocol, the
children of a root are its list (`Family`), counted, no more than the backlog, with different peers,
and a listener that is being closed still has one. Of the links only those in front of what was
taken out change, so a walk goes on where it would have (`Orphaned.rest`).
-/
import Mathlib
import Vsf.Net.Ports

namespace Vsf

open Linked Ip List Function Option UInt8

namespace Sockets

/-- A root socket in use. -/
def Root (s : Sockets) (a : Addr) : Prop := s.live a ∧ (s.node a).father = none

/-- A child in use of `l`. -/
def Kid (s : Sockets) (l x : Addr) : Prop := s.live x ∧ (s.node x).father = some l

/-- The children of `l`, in the order of their list. -/
structure Family (s : Sockets) (l : Addr) (ks : List Addr) : Prop where
  chain : Chain s.next (s.node l).child ks
  mem : ∀ x, x ∈ ks ↔ s.Kid l x
  num : (s.node l).acceptedNum.toNat = ks.length
  room : ks.length ≤ (s.node l).backlog.toNat
  peers : (ks.map fun x => (s.node x).remote).Nodup

/-- The TCP sockets in use; `rs` is the list of the bound ones. -/
structure Tree (s : Sockets) (rs : List Addr) : Prop where
  listed : Listed s .tcp rs
  protocol : ∀ a, s.live a → (s.node a).protocol = .tcp
  family : ∀ l, s.Root l → ∃ ks, s.Family l ks
  father : ∀ l x, s.Kid l x → s.Root l ∧ (s.node x).backlog = 0
  closing : ∀ l, s.live l → (s.node l).closing → s.Root l ∧ 0 < (s.node l).acceptedNum

variable {s s' s'' : Sockets} {rs ks : List Addr} {l m x a : Addr}

theorem Kid.ne_root (hk : s.Kid l x) (hr : s.Root a) : x ≠ a := by
  rintro rfl
  have hf := hk.2
  rw [hr.2] at hf
  cases hf

theorem Tree.kid_not_mem (h : s.Tree rs) (hk : s.Kid l x) : x ∉ rs := fun hm => by
  have hf := hk.2
  rw [((h.listed.mem x).mp hm).2.1] at hf
  cases hf

theorem Family.not_mem_roots (hf : s.Family l ks) (h : s.Tree rs) : ∀ x ∈ ks, x ∉ rs :=
  fun x hx => h.kid_not_mem ((hf.mem x).mp hx)

theorem Family.disjoint {ms : List Addr} (hf : s.Family l ks) (hm : s.Family m ms) (hne : l ≠ m) : ∀ x ∈ ms, x ∉ ks := by
  intro x hx hx'
  have h1 := ((hf.mem x).mp hx').2
  have h2 := ((hm.mem x).mp hx).2
  exact hne (some.inj (h1.symm.trans h2))

theorem Family.of_eq (h : s.Family l ks) (hc : (s'.node l).child = (s.node l).child)
    (hn : (s'.node l).acceptedNum = (s.node l).acceptedNum) (hb : (s.node l).backlog.toNat ≤ (s'.node l).backlog.toNat)
    (hnext : ∀ x ∈ ks, s'.next x = s.next x) (hk : ∀ x, s'.Kid l x ↔ s.Kid l x)
    (hr : ∀ x ∈ ks, (s'.node x).remote = (s.node x).remote) : s'.Family l ks := by
  refine ⟨?_, fun x => (h.mem x).trans (hk x).symm, hn ▸ h.num, h.room.trans hb, ?_⟩
  · rw [hc]
    exact h.chain.congr hnext
  · rw [map_congr_left hr]
    exact h.peers

/-- What the lists do not read may change: the flags `accepted` and `can_rx`. -/
theorem Tree.of_eq (h : s.Tree rs) (hnext : s'.next = s.next) (hlive : s'.live = s.live) (hconns : s'.conns = s.conns)
    (hnode : ∀ a, { s'.node a with accepted := (s.node a).accepted, canRx := (s.node a).canRx } = s.node a) : s'.Tree rs := by
  have hf : ∀ {β : Type} (g : Node → β), (∀ n p q, g { n with accepted := p, canRx := q } = g n) →
      ∀ a, g (s'.node a) = g (s.node a) := fun g hg a => (hg _ _ _).symm.trans (congrArg g (hnode a))
  have hfather := hf (·.father) fun _ _ _ => rfl
  have hkid : ∀ l x, s'.Kid l x ↔ s.Kid l x := fun l x => by
    unfold Kid
    rw [hlive, hfather]
  have hroot : ∀ l, s'.Root l ↔ s.Root l := fun l => by
    unfold Root
    rw [hlive, hfather]
  refine ⟨?_, fun a ha => ?_, fun l hl => ?_, fun l x hx => ?_, fun l hl hc => ?_⟩
  · refine h.listed.of_eq (congrFun hconns _) (fun x _ => congrFun hnext x) (fun a => ?_) fun x _ =>
      hf (·.port) (fun _ _ _ => rfl) x
    unfold Bound
    rw [hlive, hfather, hf (·.protocol) fun _ _ _ => rfl, hf (·.port) fun _ _ _ => rfl]
  · rw [hf (·.protocol) fun _ _ _ => rfl]
    exact h.protocol a (hlive ▸ ha)
  · obtain ⟨ks, hks⟩ := h.family l ((hroot l).mp hl)
    exact ⟨ks, hks.of_eq (hf (·.child) (fun _ _ _ => rfl) l) (hf (·.acceptedNum) (fun _ _ _ => rfl) l)
      (hf (·.backlog.toNat) (fun _ _ _ => rfl) l).ge (fun x _ => congrFun hnext x) (hkid l)
      fun x _ => hf (·.remote) (fun _ _ _ => rfl) x⟩
  · obtain ⟨h1, h2⟩ := h.father l x ((hkid l x).mp hx)
    exact ⟨(hroot l).mpr h1, (hf (·.backlog) (fun _ _ _ => rfl) x).trans h2⟩
  · rw [hf (·.closing) fun _ _ _ => rfl] at hc
    obtain ⟨h1, h2⟩ := h.closing l (hlive ▸ hl) hc
    rw [hf (·.acceptedNum) fun _ _ _ => rfl]
    exact ⟨(hroot l).mpr h1, h2⟩

/-! ### Roots -/

theorem Tree.socket (h : s.Tree rs) (hx : s.live x = false) (pcb : Bool) : (s.socket .tcp (some x) pcb).Tree rs := by
  have hne : ∀ y, s.live y → y ≠ x := by
    rintro y hy rfl
    rw [hx] at hy
    cases hy
  have hnode : ∀ y, y ≠ x → (s.socket .tcp (some x) pcb).node y = s.node y := fun y hy => update_of_ne hy _ _
  have hself : (s.socket .tcp (some x) pcb).node x = Node.new .tcp := update_self ..
  have hlive : ∀ y, y ≠ x → (s.socket .tcp (some x) pcb).live y = s.live y := fun y hy => update_of_ne hy _ _
  have hkid : ∀ l y, (s.socket .tcp (some x) pcb).Kid l y ↔ s.Kid l y := by
    intro l y
    by_cases hy : y = x
    · subst hy
      refine iff_of_false (fun hk => ?_) fun hk => hne y hk.1 rfl
      have hf := hk.2
      rw [hself] at hf
      cases hf
    · unfold Kid
      rw [hnode y hy, hlive y hy]
  have hroot : ∀ l, l ≠ x → ((s.socket .tcp (some x) pcb).Root l ↔ s.Root l) := fun l hl => by
    unfold Root
    rw [hnode l hl, hlive l hl]
  refine ⟨h.listed.socket pcb fun y hy => some.inj hy ▸ hx, fun a ha => ?_, fun l hl => ?_, fun l y hy => ?_,
    fun l hl hc => ?_⟩
  · by_cases hax : a = x
    · rw [hax, hself]
      rfl
    · rw [hnode a hax]
      exact h.protocol a (hlive a hax ▸ ha)
  · by_cases hlx : l = x
    · subst hlx
      refine ⟨[], ?_, fun y => ?_, ?_, ?_, nodup_nil⟩
      · rw [hself]
        rfl
      · refine iff_of_false not_mem_nil fun hk => ?_
        exact hne l (h.father l y ((hkid l y).mp hk)).1.1 rfl
      · rw [hself]
        rfl
      · exact Nat.zero_le _
    · obtain ⟨ks, hks⟩ := h.family l ((hroot l hlx).mp hl)
      have hks' : ∀ y ∈ ks, y ≠ x := fun y hy => hne y ((hks.mem y).mp hy).1
      exact ⟨ks, hks.of_eq (by rw [hnode l hlx]) (by rw [hnode l hlx]) (by rw [hnode l hlx])
        (fun y hy => update_of_ne (hks' y hy) _ _) (hkid l) fun y hy => by rw [hnode y (hks' y hy)]⟩
  · have hk := (hkid l y).mp hy
    obtain ⟨h1, h2⟩ := h.father l y hk
    exact ⟨(hroot l (hne l h1.1)).mpr h1, by rw [hnode y (hne y hk.1)]; exact h2⟩
  · by_cases hlx : l = x
    · rw [hlx, hself] at hc
      cases hc
    · rw [hnode l hlx] at hc ⊢
      obtain ⟨h1, h2⟩ := h.closing l (hlive l hlx ▸ hl) hc
      exact ⟨(hroot l hlx).mpr h1, h2⟩

/-- What changes a root, and no link of a child and nothing its children read. -/
theorem Tree.of_root (h : s.Tree rs) {rs' : List Addr} (hl : s.Root l) (hlisted : Listed s' .tcp rs')
    (hnode : ∀ y, y ≠ l → s'.node y = s.node y) (hlive : s'.live = s.live)
    (hnext : ∀ m ks, s.Family m ks → ∀ x ∈ ks, s'.next x = s.next x)
    (hself : (s'.node l).father = none ∧ (s'.node l).protocol = .tcp ∧ (s'.node l).child = (s.node l).child ∧
      (s'.node l).acceptedNum = (s.node l).acceptedNum ∧ (s.node l).backlog.toNat ≤ (s'.node l).backlog.toNat)
    (hclosing : (s'.node l).closing → (s.node l).closing ∨ 0 < (s.node l).acceptedNum) : s'.Tree rs' := by
  obtain ⟨hfather, hproto, hchild, hnum, hbacklog⟩ := hself
  have hkid : ∀ m y, s'.Kid m y ↔ s.Kid m y := by
    intro m y
    unfold Kid
    rw [hlive]
    by_cases hy : y = l
    · rw [hy, hfather, hl.2]
    · rw [hnode y hy]
  have hroot : ∀ m, s'.Root m ↔ s.Root m := by
    intro m
    unfold Root
    rw [hlive]
    by_cases hm : m = l
    · rw [hm, hfather, hl.2]
    · rw [hnode m hm]
  refine ⟨hlisted, fun a ha => ?_, fun m hm => ?_, fun m x hx => ?_, fun m hm hc => ?_⟩
  · by_cases hal : a = l
    · rw [hal, hproto]
    · rw [hnode a hal]
      exact h.protocol a (hlive ▸ ha)
  · obtain ⟨ks, hks⟩ := h.family m ((hroot m).mp hm)
    have hremote : ∀ x ∈ ks, (s'.node x).remote = (s.node x).remote := fun x hx => by
      rw [hnode x (((hks.mem x).mp hx).ne_root hl)]
    by_cases hml : m = l
    · subst hml
      exact ⟨ks, hks.of_eq hchild hnum hbacklog (hnext m ks hks) (hkid m) hremote⟩
    · exact ⟨ks, hks.of_eq (by rw [hnode m hml]) (by rw [hnode m hml]) (by rw [hnode m hml]) (hnext m ks hks) (hkid m) hremote⟩
  · have hk := (hkid m x).mp hx
    obtain ⟨h1, h2⟩ := h.father m x hk
    exact ⟨(hroot m).mpr h1, by rw [hnode x (hk.ne_root hl)]; exact h2⟩
  · refine ⟨(hroot m).mpr ?_, ?_⟩
    · by_cases hml : m = l
      · exact hml ▸ hl
      · rw [hnode m hml] at hc
        exact (h.closing m (hlive ▸ hm) hc).1
    · by_cases hml : m = l
      · subst hml
        rw [hnum]
        rcases hclosing hc with hc | hpos
        · exact (h.closing m (hlive ▸ hm) hc).2
        · exact hpos
      · rw [hnode m hml] at hc ⊢
        exact (h.closing m (hlive ▸ hm) hc).2

/-- **A root is bound**: it is in front of the list, or its port was taken. -/
theorem Tree.bind (h : s.Tree rs) (ha : s.Root a) (h0 : (s.node a).port = 0) {port : UInt16} (hport : port ≠ 0) :
    ∃ r, s.bind a port = some r ∧ (∃ rs', r.2.Tree rs') ∧ r.2.live = s.live ∧
      (∀ y, r.2.node y = s.node y ∨ y = a ∧ r.2.node y = { s.node a with port := port }) := by
  have hproto := h.protocol a ha.1
  obtain ⟨r, hr, hcase⟩ := (hproto ▸ h.listed : Listed s (s.node a).protocol rs).bind_eq port
  refine ⟨r, hr, ?_⟩
  rcases hcase with rfl | ⟨-, hb⟩
  · exact ⟨⟨rs, h⟩, rfl, fun _ => .inl rfl⟩
  · have hnode : ∀ y, y ≠ a → r.2.node y = s.node y := fun y hy => by rw [hb.node, update_of_ne hy]
    have hself : r.2.node a = { s.node a with port := port } := by rw [hb.node, update_self]
    refine ⟨⟨_, h.of_root ha (h.listed.bind hb ha.1 ha.2 h0 hport) hnode hb.live ?_ ?_ ?_⟩, hb.live, fun y => ?_⟩
    · intro m ks hks x hx
      rw [hb.next, update_of_ne (((hks.mem x).mp hx).ne_root ha)]
    · rw [hself]
      exact ⟨ha.2, hproto, rfl, rfl, le_refl _⟩
    · rw [hself]
      exact .inl
    · by_cases hy : y = a
      · exact .inr ⟨hy, hy ▸ hself⟩
      · exact .inl (hnode y hy)

theorem Tree.listen (h : s.Tree rs) (ha : s.Root a) (backlog : UInt8) : (s.listen a backlog).2.Tree rs := by
  have hproto := h.protocol a ha.1
  have hb0 : ∀ n : Node, n.backlog = 0 → n.backlog.toNat ≤ backlog.toNat := fun n hn => by
    rw [hn]
    exact Nat.zero_le _
  have hset : ∀ n : Node, n.father = none → n.protocol = .tcp → n.port = (s.node a).port → n.child = (s.node a).child →
      n.acceptedNum = (s.node a).acceptedNum → (s.node a).backlog.toNat ≤ n.backlog.toNat → n.closing = (s.node a).closing →
      Tree { s with node := Function.update s.node a n } rs := by
    intro n hf hp hport hc hn hb hcl
    have hnode : ∀ y, y ≠ a → Function.update s.node a n y = s.node y := fun y hy => update_of_ne hy _ _
    refine h.of_root ha ?_ hnode rfl (fun _ _ _ _ _ => rfl) ?_ ?_
    · refine h.listed.of_eq rfl (fun _ _ => rfl) (fun y => ?_) fun y _ => ?_
      · unfold Bound
        by_cases hy : y = a
        · subst hy
          simp only [update_self, hf, hp, hport, ha.2, hproto]
        · simp only [hnode y hy]
      · by_cases hy : y = a
        · subst hy
          simp only [update_self, hport]
        · simp only [hnode y hy]
    · simp only [update_self]
      exact ⟨hf, hp, hc, hn, hb⟩
    · simp only [update_self, hcl]
      exact .inl
  unfold Sockets.listen
  simp only [update_self, update_idem, hproto, if_true]
  split_ifs with h1 h2
  · exact hset _ ha.2 rfl rfl rfl rfl (le_refl _) rfl
  · exact hset _ ha.2 rfl rfl rfl rfl (le_refl _) rfl
  · refine hset _ ha.2 rfl rfl rfl rfl (hb0 _ ?_) rfl
    exact UInt8.toNat_inj.mp (Nat.eq_zero_of_not_pos fun hpos => h2 (lt_iff_toNat_lt.mpr hpos))

/-! ### A child is made -/

/-- `vsfip_childsocket` for the listener `l`, which then counts the child `x`. -/
def adopt (s : Sockets) (l x : Addr) (peer : Sockaddr) : Sockets :=
  let s := (s.socket .tcp (some x) true).childsocket l peer x
  { s with node := Function.update s.node l { s.node l with acceptedNum := (s.node l).acceptedNum + 1 } }

/-- What `adopt` makes of the links and nodes. -/
structure Adopted (s : Sockets) (l x : Addr) (peer : Sockaddr) (s' : Sockets) : Prop where
  link : ∀ ks, Chain s.next (s.node l).child ks → x ∉ ks → Chain s'.next (some x) (x :: ks)
  next : ∀ y, y ≠ x → s'.next y = s.next y
  other : ∀ y, y ≠ l → y ≠ x → s'.node y = s.node y
  father : s'.node l = { s.node l with child := some x, acceptedNum := (s.node l).acceptedNum + 1 }
  child : s'.node x = { Node.new .tcp with
    canRx := (s.node l).canRx
    remote := peer
    localAddr := (s.node l).localAddr
    port := (s.node l).port
    father := some l }
  live : s'.live = Function.update s.live x true
  conns : s'.conns = s.conns

theorem adopt_spec (hne : l ≠ x) (peer : Sockaddr) : Adopted s l x peer (s.adopt l x peer) := by
  have hnext : (s.adopt l x peer).next = (socketlistAdd (Function.update s.next x none) (s.node l).child x).2 := by
    unfold adopt childsocket Sockets.socket
    simp [update_of_ne hne]
  refine ⟨fun ks hc hx => ?_, fun y hy => ?_, fun y h1 h2 => ?_, ?_, ?_, ?_, rfl⟩
  · rw [hnext]
    exact (socketlistAdd_spec (hc.update hx) hx (update_self ..)).1
  · rw [hnext]
    unfold socketlistAdd
    dsimp only
    split_ifs
    · rw [update_of_ne hy, update_of_ne hy]
    · rw [update_of_ne hy]
  all_goals unfold adopt childsocket Sockets.socket
  · simp [update_of_ne h1, update_of_ne h2]
  · simp [update_of_ne hne, socketlistAdd]
  · simp [update_of_ne hne.symm, update_of_ne hne]
  · simp

/-- **A child is made**, of a listener with room, for a peer that has none. -/
theorem Tree.adopt (h : s.Tree rs) (hl : s.Root l) (hroom : (s.node l).acceptedNum < (s.node l).backlog)
    (hx : s.live x = false) {peer : Sockaddr} (hpeer : ∀ y, s.Kid l y → (s.node y).remote ≠ peer) :
    (s.adopt l x peer).Tree rs := by
  have hne : l ≠ x := by
    rintro rfl
    rw [hl.1] at hx
    cases hx
  have hs := adopt_spec (s := s) hne peer
  set s' := s.adopt l x peer
  have hnex : ∀ y, s.live y → y ≠ x := by
    rintro y hy rfl
    rw [hx] at hy
    cases hy
  have hlive : ∀ y, y ≠ x → s'.live y = s.live y := fun y hy => by rw [hs.live, update_of_ne hy]
  have hlivex : s'.live x = true := by rw [hs.live, update_self]
  have hkid : ∀ m y, y ≠ x → (s'.Kid m y ↔ s.Kid m y) := by
    intro m y hy
    unfold Kid
    rw [hlive y hy]
    by_cases hyl : y = l
    · rw [hyl, hs.father]
    · rw [hs.other y hyl hy]
  have hkidx : ∀ m, s'.Kid m x ↔ m = l := fun m => by
    unfold Kid
    rw [hlivex, hs.child]
    simp [eq_comm]
  have hroot : ∀ m, s'.Root m ↔ s.Root m := by
    intro m
    unfold Root
    by_cases hm : m = x
    · subst hm
      rw [hs.child, hx]
      simp
    · rw [hlive m hm]
      by_cases hml : m = l
      · rw [hml, hs.father]
      · rw [hs.other m hml hm]
  have hport : ∀ y, y ≠ x → (s'.node y).port = (s.node y).port ∧ (s'.node y).father = (s.node y).father ∧
      (s'.node y).protocol = (s.node y).protocol ∧ (s'.node y).remote = (s.node y).remote ∧
      (s'.node y).backlog = (s.node y).backlog ∧ (s'.node y).closing = (s.node y).closing := by
    intro y hy
    by_cases hyl : y = l
    · rw [hyl, hs.father]
      exact ⟨rfl, rfl, rfl, rfl, rfl, rfl⟩
    · rw [hs.other y hyl hy]
      exact ⟨rfl, rfl, rfl, rfl, rfl, rfl⟩
  refine ⟨?_, fun a ha => ?_, fun m hm => ?_, fun m y hy => ?_, fun m hm hc => ?_⟩
  · have hxs : ∀ y ∈ rs, y ≠ x := fun y hy => hnex y ((h.listed.mem y).mp hy).1
    refine h.listed.of_eq (congrFun hs.conns _) (fun y hy => hs.next y (hxs y hy)) (fun y => ?_) fun y hy =>
      (hport y (hxs y hy)).1
    by_cases hy : y = x
    · subst hy
      refine iff_of_false (fun hb => ?_) fun hb => hnex y hb.1 rfl
      have hf := hb.2.1
      rw [hs.child] at hf
      cases hf
    · obtain ⟨h1, h2, h3, -⟩ := hport y hy
      unfold Bound
      rw [hlive y hy, h1, h2, h3]
  · by_cases hax : a = x
    · rw [hax, hs.child]
      rfl
    · rw [(hport a hax).2.2.1]
      exact h.protocol a (hlive a hax ▸ ha)
  · obtain ⟨ks, hks⟩ := h.family m ((hroot m).mp hm)
    have hkx : ∀ y ∈ ks, y ≠ x := fun y hy => hnex y ((hks.mem y).mp hy).1
    have hremote : ks.map (fun y => (s'.node y).remote) = ks.map fun y => (s.node y).remote :=
      map_congr_left fun y hy => (hport y (hkx y hy)).2.2.2.1
    by_cases hml : m = l
    · subst hml
      have hxk : x ∉ ks := fun hm => hkx x hm rfl
      have hlt := lt_iff_toNat_lt.mp hroom
      have hbound := (s.node m).backlog.toNat_lt
      refine ⟨x :: ks, ?_, fun y => ?_, ?_, ?_, ?_⟩
      · rw [hs.father]
        exact hs.link ks hks.chain hxk
      · rw [mem_cons]
        by_cases hy : y = x
        · subst hy
          simp [hkidx]
        · rw [hks.mem, hkid m y hy]
          exact or_iff_right hy
      · rw [hs.father]
        show ((s.node m).acceptedNum + 1).toNat = _
        rw [UInt8.toNat_add, toNat_one, Nat.mod_eq_of_lt (by omega), hks.num, length_cons]
      · rw [hs.father, length_cons, ← hks.num]
        exact hlt
      · rw [map_cons, hremote, hs.child, nodup_cons]
        refine ⟨fun hp => ?_, hks.peers⟩
        obtain ⟨y, hy, he⟩ := List.mem_map.mp hp
        exact hpeer y ((hks.mem y).mp hy) he
    · have hmx := hnex m ((hroot m).mp hm).1
      have hkidm : ∀ y, s'.Kid m y ↔ s.Kid m y := by
        intro y
        by_cases hy : y = x
        · subst hy
          rw [hkidx]
          exact iff_of_false hml fun hk => hnex y hk.1 rfl
        · exact hkid m y hy
      exact ⟨ks, hks.of_eq (by rw [hs.other m hml hmx]) (by rw [hs.other m hml hmx]) (by rw [hs.other m hml hmx])
        (fun y hy => hs.next y (hkx y hy)) hkidm fun y hy => (hport y (hkx y hy)).2.2.2.1⟩
  · by_cases hyx : y = x
    · subst hyx
      obtain rfl := (hkidx m).mp hy
      exact ⟨(hroot m).mpr hl, by rw [hs.child]; rfl⟩
    · have hk := (hkid m y hyx).mp hy
      obtain ⟨h1, h2⟩ := h.father m y hk
      exact ⟨(hroot m).mpr h1, by rw [(hport y hyx).2.2.2.2.1]; exact h2⟩
  · by_cases hmx : m = x
    · subst hmx
      rw [hs.child] at hc
      cases hc
    · rw [(hport m hmx).2.2.2.2.2] at hc
      obtain ⟨h1, h2⟩ := h.closing m (hlive m hmx ▸ hm) hc
      refine ⟨(hroot m).mpr h1, ?_⟩
      by_cases hml : m = l
      · subst hml
        have hlt := lt_iff_toNat_lt.mp hroom
        have hbound := (s.node m).backlog.toNat_lt
        rw [hs.father]
        show 0 < (s.node m).acceptedNum + 1
        rw [lt_iff_toNat_lt, UInt8.toNat_add, toNat_one, Nat.mod_eq_of_lt (by omega)]
        exact Nat.succ_pos _
      · rw [hs.other m hml hmx]
        exact h2

/-! ### A child is closed -/

/-- The part of `vsfip_close` that takes a child from its father. -/
theorem leave_spec (hc : Chain s.next (s.node l).child ks) (hx : x ∈ ks) : ∃ s' c, s.leave l x = some s' ∧
    s'.node = Function.update s.node l { s.node l with child := c, acceptedNum := (s.node l).acceptedNum - 1 } ∧
    Chain s'.next c (ks.erase x) ∧ (∀ y, y ∉ ks ∨ y = x → s'.next y = s.next y) ∧ s'.live = s.live ∧
    s'.conns = s.conns := by
  obtain ⟨r, hr, hrem⟩ := socketlistRemove_spec hc x
  have hfound : r.1 = true := by
    rw [hrem.found]
    exact decide_eq_true hx
  unfold leave
  rw [hr]
  refine ⟨_, r.2.1, rfl, ?_, hrem.chain, hrem.frame, rfl, rfl⟩
  simp only [hfound, if_true]

theorem freeSocket_kid (hf : (s.node x).father = some l) (hc : Chain s.next (s.node l).child ks) :
    ∃ s' c, s.freeSocket x = some s' ∧ s'.node = Function.update s.node l { s.node l with child := c } ∧
      Chain s'.next c (ks.erase x) ∧ (∀ y, y ∉ ks ∨ y = x → s'.next y = s.next y) ∧
      s'.live = Function.update s.live x false ∧ s'.conns = s.conns := by
  obtain ⟨r, hr, hrem⟩ := socketlistRemove_spec hc x
  unfold freeSocket
  rw [hf]
  dsimp only
  rw [hr]
  exact ⟨_, r.2.1, rfl, rfl, hrem.chain, hrem.frame, rfl, rfl⟩

/-- The last child of a listener that is being closed. -/
def Last (s : Sockets) (l x : Addr) (ks : List Addr) : Prop := (s.node l).closing ∧ ks = [x]

instance : Decidable (Last s l x ks) := inferInstanceAs (Decidable (_ ∧ _))

/-- The child `x` of `l` was closed, and `l` freed if closing and childless. -/
structure Orphaned (s : Sockets) (rs : List Addr) (l x : Addr) (ks : List Addr) (s' : Sockets) : Prop where
  other : ∀ y, y ≠ l → s'.node y = s.node y
  father : ∃ c, s'.node l = { s.node l with child := c, acceptedNum := (s.node l).acceptedNum - 1 } ∧
    Chain s'.next c (ks.erase x)
  next : ∀ y, (y ∉ ks ∨ y = x) → (y ∉ rs ∨ y = l) → s'.next y = s.next y
  live : ∀ y, s'.live y ↔ s.live y ∧ y ≠ x ∧ ¬ (y = l ∧ s.Last l x ks)
  listed : Listed s' .tcp (if s.Last l x ks then rs.erase l else rs)

/-- Nobody reads a child's link or use in the list of the roots. -/
theorem Tree.listed_of (h : s.Tree rs) (hl : s.Root l) {n : Node} (hf : s.Family l ks) (hconns : s'.conns = s.conns)
    (hnext : ∀ y, y ∉ ks → s'.next y = s.next y) (hlive : ∀ y, s.Root y → s'.live y = s.live y)
    (hdead : ∀ y, s'.live y → s.live y)
    (hnode : s'.node = Function.update s.node l n) (hport : n.port = (s.node l).port) (hfather : n.father = none)
    (hproto : n.protocol = .tcp) : Listed s' .tcp rs := by
  have hn : ∀ y, y ≠ l → s'.node y = s.node y := fun y hy => by rw [hnode, update_of_ne hy]
  have hself : s'.node l = n := by rw [hnode, update_self]
  refine h.listed.of_eq (congrFun hconns _) (fun y hy => hnext y fun hm => hf.not_mem_roots h y hm hy) (fun y => ?_)
    fun y _ => ?_
  · unfold Bound
    by_cases hy : y = l
    · subst hy
      rw [hself, hport, hfather, hproto, hlive y hl, hl.2, h.protocol y hl.1]
    · rw [hn y hy]
      constructor
      · exact fun hb => ⟨hdead y hb.1, hb.2⟩
      · exact fun hb => ⟨(hlive y ⟨hb.1, hb.2.1⟩).trans hb.1, hb.2⟩
  · by_cases hy : y = l
    · rw [hy, hself, hport]
    · rw [hn y hy]

/-- **`vsfip_close` of a child.** -/
theorem Tree.close_child (h : s.Tree rs) (hk : s.Kid l x) (hf : s.Family l ks) :
    ∃ s', s.close x = some s' ∧ s.Orphaned rs l x ks s' := by
  obtain ⟨hl, hbacklog⟩ := h.father l x hk
  have hxk : x ∈ ks := (hf.mem x).mpr hk
  have hxl : x ≠ l := hk.ne_root hl
  have hproto := h.protocol l hl.1
  have hnd := hf.chain.nodup
  -- how many children are left
  have hleft : (s.node l).acceptedNum - 1 = 0 ↔ ks = [x] := by
    have hnum := hf.num
    have hlt := (s.node l).acceptedNum.toNat_lt
    rw [← UInt8.toNat_inj, UInt8.toNat_sub, toNat_one, UInt8.toNat_zero]
    constructor
    · intro h0
      obtain ⟨y, hy⟩ := length_eq_one_iff.mp (show ks.length = 1 by omega)
      rw [hy] at hxk ⊢
      rw [mem_singleton.mp hxk]
    · intro he
      rw [he, length_singleton] at hnum
      omega
  obtain ⟨s1, c1, h1, hnode1, hchain1, hframe1, hlive1, hconns1⟩ := leave_spec hf.chain hxk
  have hself1 : s1.node l = { s.node l with child := c1, acceptedNum := (s.node l).acceptedNum - 1 } := by
    rw [hnode1, update_self]
  have hlisted1 : Listed s1 .tcp rs :=
    h.listed_of hl hf hconns1 (fun y hy => hframe1 y (.inl hy)) (fun y _ => by rw [hlive1]) (fun y hy => hlive1 ▸ hy) hnode1
      rfl hl.2 hproto
  -- the father
  obtain ⟨s2, h2, hnode2, hlive2, hframe2, hnext2, hlisted2⟩ : ∃ s2,
      (if (s1.node l).closing ∧ (s1.node l).acceptedNum = 0 then s1.freeSocket l else some s1) = some s2 ∧
      s2.node = s1.node ∧ (∀ y, s2.live y ↔ s.live y ∧ ¬ (y = l ∧ s.Last l x ks)) ∧
      (∀ y, y ∉ rs ∨ y = l → s2.next y = s1.next y) ∧ (∀ y ∈ ks, s2.next y = s1.next y) ∧
      Listed s2 .tcp (if s.Last l x ks then rs.erase l else rs) := by
    have hlast : ((s1.node l).closing ∧ (s1.node l).acceptedNum = 0) ↔ s.Last l x ks := by
      rw [hself1]
      exact and_congr_right fun _ => hleft
    by_cases hd : s.Last l x ks
    · have hfrees : Listed s1 (s1.node l).protocol rs := by
        rw [hself1]
        exact hproto ▸ hlisted1
      obtain ⟨s2, hfree, hnode, hlive, -, hframe, hlisted⟩ := hfrees.free (by rw [hself1]; exact hl.2)
      rw [if_pos (hlast.mpr hd), if_pos hd]
      refine ⟨s2, hfree, hnode, fun y => ?_, hframe, fun y hy => hframe y (.inl (hf.not_mem_roots h y hy)), hlisted _ _ hlisted1⟩
      rw [hlive, hlive1]
      by_cases hy : y = l
      · simp [hy, hd]
      · simp [hy]
    · rw [if_neg fun hc => hd (hlast.mp hc), if_neg hd]
      exact ⟨s1, rfl, rfl, fun y => by simp [hlive1, hd], fun _ _ => rfl, fun _ _ => rfl, hlisted1⟩
  -- the child
  have hfx : (s2.node x).father = some l := by
    rw [hnode2, hnode1, update_of_ne hxl]
    exact hk.2
  have hchain2 : Chain s2.next (s2.node l).child (ks.erase x) := by
    rw [hnode2, hself1]
    exact hchain1.congr fun y hy => hnext2 y (mem_of_mem_erase hy)
  obtain ⟨s3, c3, h3, hnode3, hchain3, hframe3, hlive3, hconns3⟩ := freeSocket_kid hfx hchain2
  have hxe : x ∉ ks.erase x := fun hm => (hnd.mem_erase_iff.mp hm).1 rfl
  rw [erase_of_not_mem hxe] at hchain3
  have hother3 : ∀ y, y ≠ l → s3.node y = s.node y := fun y hy => by
    rw [hnode3, update_of_ne hy, hnode2, hnode1, update_of_ne hy]
  have hself3 : s3.node l = { s.node l with child := c3, acceptedNum := (s.node l).acceptedNum - 1 } := by
    rw [hnode3, update_self, hnode2, hself1]
  have hlive : ∀ y, s3.live y ↔ s.live y ∧ y ≠ x ∧ ¬ (y = l ∧ s.Last l x ks) := by
    intro y
    rw [hlive3]
    by_cases hy : y = x
    · simp [hy]
    · rw [update_of_ne hy, hlive2]
      simp [hy]
  refine ⟨s3, ?_, hother3, ⟨c3, hself3, hchain3⟩, fun y hyk hyr => ?_, hlive, ?_⟩
  · unfold close
    rw [if_neg (by rw [hbacklog]; exact fun hp => absurd hp.1 (by decide)), hk.2]
    dsimp only
    rw [h1, bind_eq_bind, bind_some]
    split_ifs at h2 ⊢
    · rw [h2]
      exact h3
    · obtain rfl := some.inj h2
      exact h3
  · have hy3 : y ∉ ks.erase x ∨ y = x := hyk.imp_left fun hn hm => hn (mem_of_mem_erase hm)
    rw [hframe3 y hy3, hframe2 y hyr, hframe1 y hyk]
  · refine hlisted2.of_eq (congrFun hconns3 _) (fun y hy => hframe3 y (.inl fun hm => ?_)) (fun y => ?_) fun y _ => ?_
    · have hyr : y ∈ rs := by
        split_ifs at hy
        · exact mem_of_mem_erase hy
        · exact hy
      exact hf.not_mem_roots h y (mem_of_mem_erase hm) hyr
    · unfold Bound
      by_cases hy : y = x
      · subst hy
        rw [hother3 y hxl, hnode2, hnode1, update_of_ne hxl, hk.2]
        simp
      · rw [hlive3, update_of_ne hy]
        by_cases hyl : y = l
        · rw [hyl, hself3, hnode2, hself1]
        · rw [hother3 y hyl, hnode2, hnode1, update_of_ne hyl]
    · by_cases hyl : y = l
      · rw [hyl, hself3, hnode2, hself1]
      · rw [hother3 y hyl, hnode2, hnode1, update_of_ne hyl]

theorem Orphaned.kid (ho : s.Orphaned rs l x ks s') (hl : s.Root l) (y : Addr) : s'.Kid m y ↔ s.Kid m y ∧ y ≠ x := by
  unfold Kid
  rw [ho.live]
  by_cases hy : y = l
  · obtain ⟨c, hc, -⟩ := ho.father
    rw [hy, hc, hl.2]
    simp
  · rw [ho.other y hy]
    simp [hy, and_comm, and_left_comm]

theorem Orphaned.accepted (ho : s.Orphaned rs l x ks s') (y : Addr) : (s'.node y).accepted = (s.node y).accepted := by
  by_cases hy : y = l
  · obtain ⟨c, hc, -⟩ := ho.father
    rw [hy, hc]
  · rw [ho.other y hy]

theorem Orphaned.root (ho : s.Orphaned rs l x ks s') (hk : s.Kid l x) (hm : m ≠ l ∨ ¬ s.Last l x ks) :
    s'.Root m ↔ s.Root m := by
  unfold Root
  rw [ho.live]
  have hnode : (s'.node m).father = (s.node m).father := by
    by_cases hml : m = l
    · obtain ⟨c, hc, -⟩ := ho.father
      rw [hml, hc]
    · rw [ho.other m hml]
  have hx : (s.node m).father = none → m ≠ x := by
    rintro hf rfl
    have hk := hk.2
    rw [hf] at hk
    cases hk
  have hgone : ¬ (m = l ∧ s.Last l x ks) := fun ⟨h1, h2⟩ => hm.elim (fun hn => hn h1) fun hn => hn h2
  rw [hnode]
  exact ⟨fun h => ⟨h.1.1, h.2⟩, fun h => ⟨⟨h.1, hx h.2, hgone⟩, h.2⟩⟩

theorem Orphaned.family (ho : s.Orphaned rs l x ks s') (hl : s.Root l) (hx : x ∈ ks) (hf : s.Family l ks) :
    s'.Family l (ks.erase x) := by
  obtain ⟨c, hc, hchain⟩ := ho.father
  have hnd := hf.chain.nodup
  have hlen := length_erase_of_mem hx
  have hpos := length_pos_of_mem hx
  have hnum := hf.num
  have hlt := (s.node l).acceptedNum.toNat_lt
  refine ⟨?_, fun y => ?_, ?_, ?_, ?_⟩
  · rw [hc]
    exact hchain
  · rw [hnd.mem_erase_iff, ho.kid hl, hf.mem, and_comm]
  · rw [hc, hlen]
    show ((s.node l).acceptedNum - 1).toNat = _
    rw [UInt8.toNat_sub, toNat_one]
    omega
  · rw [hc, hlen]
    exact (Nat.sub_le _ _).trans hf.room
  · have hremote : (ks.erase x).map (fun y => (s'.node y).remote) = (ks.erase x).map fun y => (s.node y).remote :=
      map_congr_left fun y hy => by
        rw [ho.other y (((hf.mem y).mp (mem_of_mem_erase hy)).ne_root hl)]
    rw [hremote]
    exact hf.peers.sublist (erase_sublist.map _)

/-- **Closing a child keeps the tree.** -/
theorem Orphaned.tree (ho : s.Orphaned rs l x ks s') (h : s.Tree rs) (hk : s.Kid l x) (hf : s.Family l ks) :
    s'.Tree (if s.Last l x ks then rs.erase l else rs) := by
  have hl := (h.father l x hk).1
  have hx : x ∈ ks := (hf.mem x).mpr hk
  have hlive : ∀ y, s'.live y → s.live y := fun y hy => ((ho.live y).mp hy).1
  have hroot : ∀ m, s'.Root m → s.Root m := by
    intro m hm
    by_cases hml : m = l
    · exact hml ▸ hl
    · exact (ho.root hk (.inl hml)).mp hm
  have hfields : ∀ y, (s'.node y).protocol = (s.node y).protocol ∧ (s'.node y).backlog = (s.node y).backlog ∧
      (s'.node y).closing = (s.node y).closing ∧ (s'.node y).remote = (s.node y).remote := by
    intro y
    by_cases hy : y = l
    · obtain ⟨c, hc, -⟩ := ho.father
      rw [hy, hc]
      exact ⟨rfl, rfl, rfl, rfl⟩
    · rw [ho.other y hy]
      exact ⟨rfl, rfl, rfl, rfl⟩
  have hstays : s'.live l → ¬ s.Last l x ks := fun h1 h2 => ((ho.live l).mp h1).2.2 ⟨rfl, h2⟩
  refine ⟨ho.listed, fun a ha => ?_, fun m hm => ?_, fun m y hy => ?_, fun m hm hc => ?_⟩
  · rw [(hfields a).1]
    exact h.protocol a (hlive a ha)
  · by_cases hml : m = l
    · subst hml
      exact ⟨_, ho.family hl hx hf⟩
    · obtain ⟨ms, hms⟩ := h.family m (hroot m hm)
      have hnot := hf.disjoint hms (fun he => hml he.symm)
      have hnode := ho.other m hml
      refine ⟨ms, hms.of_eq (by rw [hnode]) (by rw [hnode]) (by rw [hnode]) (fun y hy => ?_) (fun y => ?_) fun y _ =>
        (hfields y).2.2.2⟩
      · exact ho.next y (.inl (hnot y hy)) (.inl (hms.not_mem_roots h y hy))
      · rw [ho.kid hl]
        refine and_iff_left_of_imp fun hy => ?_
        rintro rfl
        exact hnot y ((hms.mem y).mpr hy) hx
  · obtain ⟨hy', hyx⟩ := (ho.kid hl y).mp hy
    obtain ⟨h1, h2⟩ := h.father m y hy'
    refine ⟨(ho.root hk ?_).mpr h1, by rw [(hfields y).2.1]; exact h2⟩
    by_cases hml : m = l
    · refine .inr fun hlast => hyx ?_
      rw [hml] at hy'
      have hmem := (hf.mem y).mpr hy'
      rw [hlast.2] at hmem
      exact mem_singleton.mp hmem
    · exact .inl hml
  · rw [(hfields m).2.2.1] at hc
    obtain ⟨h1, h2⟩ := h.closing m (hlive m hm) hc
    by_cases hml : m = l
    · subst hml
      have hnot := hstays hm
      refine ⟨(ho.root hk (.inr hnot)).mpr h1, ?_⟩
      have hfam := ho.family hl hx hf
      rw [lt_iff_toNat_lt, hfam.num]
      refine length_pos_iff.mpr fun hnil => hnot ⟨hc, ?_⟩
      obtain ⟨as, bs, rfl⟩ := append_of_mem hx
      have hnd := nodup_append.mp hf.chain.nodup
      have hxas : x ∉ as := fun hm => hnd.2.2 x hm x mem_cons_self rfl
      rw [erase_append_right _ hxas, erase_cons_head, append_eq_nil_iff] at hnil
      rw [hnil.1, hnil.2]
      rfl
    · refine ⟨(ho.root hk (.inl hml)).mpr h1, ?_⟩
      rw [ho.other m hml]
      exact h2

/-- A walk that stands on a child of `l` goes on as before, also if it was closed. -/
theorem Orphaned.rest {as bs : List Addr} (ho : s.Orphaned rs l x ks s') (h : s.Tree rs) (hf : s.Family l ks)
    (hks : ks = as ++ x :: bs) : Chain s'.next (s'.next x) bs := by
  have hnd := nodup_append.mp (hks ▸ hf.chain.nodup)
  have hxas : x ∉ as := fun hm => hnd.2.2 x hm x mem_cons_self rfl
  have hxk : x ∈ ks := hks ▸ mem_append_right _ mem_cons_self
  obtain ⟨c, -, hchain⟩ := ho.father
  rw [hks, erase_append_right _ hxas, erase_cons_head] at hchain
  obtain ⟨p, -, hp⟩ := chain_append.mp hchain
  obtain ⟨q, -, hq⟩ := chain_append.mp (hks ▸ hf.chain)
  have hnext : s'.next x = p := by
    rw [ho.next x (.inr rfl) (.inl (hf.not_mem_roots h x hxk)), (chain_cons.mp hq).2.head?, hp.head?]
  rw [hnext]
  exact hp

/-- A walk that stands on `l` goes on as before, also if `l` was freed. -/
theorem Orphaned.rest_roots {as bs : List Addr} (ho : s.Orphaned rs l x ks s') (h : s.Tree rs) (hl : s.Root l) (hf : s.Family l ks)
    (hrs : rs = as ++ l :: bs) : Chain s'.next (s'.next l) bs := by
  have hnd := nodup_append.mp (hrs ▸ h.listed.chain.nodup)
  have hlas : l ∉ as := fun hm => hnd.2.2 l hm l mem_cons_self rfl
  have hlk : l ∉ ks := fun hm => ((hf.mem l).mp hm).ne_root hl rfl
  obtain ⟨q, -, hq⟩ := chain_append.mp (hrs ▸ h.listed.chain)
  have hchain := ho.listed.chain
  split_ifs at hchain
  · rw [hrs, erase_append_right _ hlas, erase_cons_head] at hchain
    obtain ⟨p, -, hp⟩ := chain_append.mp hchain
    have hnext : s'.next l = p := by
      rw [ho.next l (.inl hlk) (.inr rfl), (chain_cons.mp hq).2.head?, hp.head?]
    rw [hnext]
    exact hp
  · rw [hrs] at hchain
    obtain ⟨p, -, hp⟩ := chain_append.mp hchain
    exact (chain_cons.mp hp).2

/-! ### Who is freed -/

/-- Sockets are freed, none made; a root exactly if closing and its last child freed. -/
structure Deaths (s s' : Sockets) : Prop where
  live : ∀ a, s'.live a → s.live a
  father : ∀ a, (s'.node a).father = (s.node a).father
  closing : ∀ a, (s'.node a).closing = (s.node a).closing
  exact : ∀ l, s.Root l → (s'.live l = false ↔ (s.node l).closing ∧ ∀ x, s.Kid l x → s'.live x = false)

theorem Tree.has_kid (h : s.Tree rs) (hl : s.Root l) (hc : (s.node l).closing) : ∃ x, s.Kid l x := by
  obtain ⟨ks, hks⟩ := h.family l hl
  have hpos := (h.closing l hl.1 hc).2
  rw [lt_iff_toNat_lt, hks.num] at hpos
  obtain ⟨x, hx⟩ := exists_mem_of_length_pos hpos
  exact ⟨x, (hks.mem x).mp hx⟩

theorem Tree.deaths_of_eq (h : s.Tree rs) (hlive : s'.live = s.live) (hfather : ∀ a, (s'.node a).father = (s.node a).father)
    (hclosing : ∀ a, (s'.node a).closing = (s.node a).closing) : Deaths s s' := by
  refine ⟨fun a ha => hlive ▸ ha, hfather, hclosing, fun l hl => ?_⟩
  rw [hlive]
  refine iff_of_false (by rw [hl.1]; simp) fun ⟨hc, hall⟩ => ?_
  obtain ⟨x, hx⟩ := h.has_kid hl hc
  have hdead := hall x hx
  rw [hx.1] at hdead
  cases hdead

theorem Deaths.trans (h : Deaths s s') (h' : Deaths s' s'') : Deaths s s'' := by
  have hdead : ∀ a, s'.live a = false → s''.live a = false := fun a ha => by
    by_contra hb
    have hl := h'.live a (by simpa using hb)
    rw [ha] at hl
    cases hl
  refine ⟨fun a ha => h.live a (h'.live a ha), fun a => (h'.father a).trans (h.father a),
    fun a => (h'.closing a).trans (h.closing a), fun l hl => ?_⟩
  by_cases hl' : s'.live l
  · have hroot : s'.Root l := ⟨hl', (h.father l).trans hl.2⟩
    rw [h'.exact l hroot, h.closing]
    refine and_congr_right fun _ => ⟨fun hall x hx => ?_, fun hall x hx => ?_⟩
    · by_cases hx' : s'.live x
      · exact hall x ⟨hx', (h.father x).trans hx.2⟩
      · exact hdead x (by simpa using hx')
    · exact hall x ⟨h.live x hx.1, (h.father x).symm.trans hx.2⟩
  · have hl' : s'.live l = false := by simpa using hl'
    obtain ⟨hc, hall⟩ := (h.exact l hl).mp hl'
    exact iff_of_true (hdead l hl') ⟨hc, fun x hx => hdead x (hall x hx)⟩

/-- Closing a child frees its father exactly if it has to. -/
theorem Orphaned.deaths (ho : s.Orphaned rs l x ks s') (h : s.Tree rs) (hk : s.Kid l x) (hf : s.Family l ks) : Deaths s s' := by
  have hl := (h.father l x hk).1
  have hfields : ∀ a, (s'.node a).father = (s.node a).father ∧ (s'.node a).closing = (s.node a).closing := by
    intro a
    by_cases ha : a = l
    · obtain ⟨c, hc, -⟩ := ho.father
      rw [ha, hc]
      exact ⟨rfl, rfl⟩
    · rw [ho.other a ha]
      exact ⟨rfl, rfl⟩
  have hfalse : ∀ a, s'.live a = false ↔ ¬ s'.live a := fun a => by simp
  refine ⟨fun a ha => ((ho.live a).mp ha).1, fun a => (hfields a).1, fun a => (hfields a).2, fun m hm => ?_⟩
  have hmx : m ≠ x := fun he => hk.ne_root hm he.symm
  rw [hfalse, ho.live]
  have hgone : ∀ y, s.Kid m y → (s'.live y = false ↔ y = x) := by
    intro y hy
    have hyl : y ≠ l := hy.ne_root hl
    rw [hfalse, ho.live]
    simp [hy.1, hyl]
  constructor
  · intro hdead
    have hlast : m = l ∧ s.Last l x ks := by
      by_contra hn
      exact hdead ⟨hm.1, hmx, hn⟩
    obtain ⟨rfl, hlast⟩ := hlast
    refine ⟨hlast.1, fun y hy => (hgone y hy).mpr ?_⟩
    have hmem := (hf.mem y).mpr hy
    rw [hlast.2] at hmem
    exact mem_singleton.mp hmem
  · rintro ⟨hc, hall⟩ ⟨-, -, hn⟩
    have hone : ∀ y, s.Kid m y → y = x := fun y hy => (hgone y hy).mp (hall y hy)
    by_cases hml : m = l
    · subst hml
      refine hn ⟨rfl, hc, ?_⟩
      have hrep := eq_replicate_of_mem fun y hy => hone y ((hf.mem y).mp hy)
      have hcount := nodup_iff_count_le_one.mp hf.chain.nodup x
      have hpos := length_pos_of_mem ((hf.mem x).mpr hk)
      rw [hrep, count_replicate_self] at hcount
      rw [hrep, show ks.length = 1 by omega]
      rfl
    · obtain ⟨y, hy⟩ := h.has_kid hm hc
      have hyx := hone y hy
      rw [hyx] at hy
      exact hml (some.inj (hy.2.symm.trans hk.2))

/-! ### A root is closed -/

/-- **`vsfip_close` of a root** waits for its children, or frees it. -/
theorem Tree.close_root (h : s.Tree rs) (ha : s.Root a) (hf : s.Family a ks) : ∃ s', s.close a = some s' ∧
    (∃ rs', s'.Tree rs') ∧
    (∀ y, (s'.node y).father = (s.node y).father ∧ (s'.node y).accepted = (s.node y).accepted) ∧
    ((ks ≠ [] ∧ s'.live = s.live ∧ (∀ y, (s'.node y).closing = if y = a then true else (s.node y).closing)) ∨
      ks = [] ∧ s'.live = Function.update s.live a false ∧ s'.node = s.node) := by
  have hproto := h.protocol a ha.1
  by_cases hnum : 0 < (s.node a).acceptedNum
  · have hroom := hf.room
    have hks : ks ≠ [] := length_pos_iff.mp (hf.num ▸ lt_iff_toNat_lt.mp hnum)
    have hbacklog : (s.node a).backlog > 0 := by
      show 0 < (s.node a).backlog
      rw [lt_iff_toNat_lt]
      exact lt_of_lt_of_le (length_pos_iff.mpr hks) hroom
    have hnode : ∀ y, y ≠ a → Function.update s.node a { s.node a with closing := true } y = s.node y := fun y hy =>
      update_of_ne hy _ _
    refine ⟨_, if_pos ⟨hbacklog, hnum⟩, ⟨rs, h.of_root ha ?_ hnode rfl (fun _ _ _ _ _ => rfl) ?_ fun _ => .inr hnum⟩,
      fun y => ?_, .inl ⟨hks, rfl, fun y => ?_⟩⟩
    · refine h.listed_of ha hf rfl (fun _ _ => rfl) (fun _ _ => rfl) (fun _ hy => hy) rfl rfl ha.2 hproto
    · have hself : Function.update s.node a { s.node a with closing := true } a = { s.node a with closing := true } :=
        update_self ..
      dsimp only
      rw [hself]
      exact ⟨ha.2, hproto, rfl, rfl, le_refl _⟩
    · by_cases hy : y = a
      · rw [hy]
        simp
      · simp only [hnode y hy, and_self]
    · by_cases hy : y = a
      · rw [hy]
        simp
      · simp only [hnode y hy, if_neg hy]
  · have hks : ks = [] := by
      refine length_eq_zero_iff.mp ?_
      rw [← hf.num]
      exact Nat.eq_zero_of_not_pos fun hp => hnum (lt_iff_toNat_lt.mpr hp)
    have hfrees : Listed s (s.node a).protocol rs := hproto ▸ h.listed
    obtain ⟨s', hfree, hnode, hlive, -, hframe, hlisted⟩ := hfrees.free ha.2
    have hkid : ∀ m y, s'.Kid m y ↔ s.Kid m y := by
      intro m y
      unfold Kid
      rw [hlive, hnode]
      by_cases hy : y = a
      · rw [hy, ha.2]
        simp
      · rw [update_of_ne hy]
    have hroot : ∀ m, s'.Root m ↔ s.Root m ∧ m ≠ a := by
      intro m
      unfold Root
      rw [hlive, hnode]
      by_cases hm : m = a
      · simp [hm]
      · simp [hm]
    have hne : ∀ m, s'.live m → s.live m ∧ m ≠ a := by
      intro m hm
      rw [hlive] at hm
      by_cases hma : m = a
      · simp [hma] at hm
      · exact ⟨by simpa [hma] using hm, hma⟩
    refine ⟨s', ?_, ⟨rs.erase a, hlisted _ _ h.listed, fun m hm => ?_, fun m hm => ?_, fun m y hy => ?_, fun m hm hc => ?_⟩,
      fun y => by rw [hnode]; exact ⟨rfl, rfl⟩, .inr ⟨hks, hlive, hnode⟩⟩
    · unfold close
      rw [if_neg fun hp => hnum hp.2, ha.2]
      exact hfree
    · rw [hnode]
      exact h.protocol m (hne m hm).1
    · obtain ⟨ms, hms⟩ := h.family m ((hroot m).mp hm).1
      exact ⟨ms, hms.of_eq (by rw [hnode]) (by rw [hnode]) (by rw [hnode])
        (fun y hy => hframe y (.inl (hms.not_mem_roots h y hy))) (hkid m) fun y _ => by rw [hnode]⟩
    · have hk := (hkid m y).mp hy
      obtain ⟨h1, h2⟩ := h.father m y hk
      refine ⟨(hroot m).mpr ⟨h1, ?_⟩, by rw [hnode]; exact h2⟩
      rintro rfl
      have hm := (hf.mem y).mpr hk
      rw [hks] at hm
      exact not_mem_nil hm
    · rw [hnode] at hc ⊢
      obtain ⟨h1, h2⟩ := h.closing m (hne m hm).1 hc
      exact ⟨(hroot m).mpr ⟨h1, (hne m hm).2⟩, h2⟩

end Sockets
end Vsf
