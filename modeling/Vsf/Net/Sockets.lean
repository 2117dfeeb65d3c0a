/-
# The lists of sockets

`vsfip.udpconns`, `vsfip.tcpconns`, the children of each listener, and the functions on them; all
lists share the field `next`. A socket given to `release_socket` keeps its contents until
`get_socket` returns it again. A walk that does not end is `none` (`socketlistRemove_spec`,
`bindLoop_spec`).
-/
import Mathlib
import Vsf.Lib.Chain
import Vsf.Buffer.Queue
import Vsf.Net.Output

namespace Vsf

open Linked Ip List

/-- The protocols with ports. -/
inductive Proto
  | udp
  | tcp
deriving DecidableEq

/-- `struct vsfip_socket_t` as far as the lists go, without its `next`. -/
structure Node where
  protocol : Proto
  localAddr : UInt32
  port : UInt16
  remote : Sockaddr
  canRx : Bool
  child : Option Addr
  backlog : UInt8
  acceptedNum : UInt8
  closing : Bool
  accepted : Bool
  father : Option Addr

/-- What `vsfip_socket` makes of the memory of a socket. -/
def Node.new (protocol : Proto) : Node where
  protocol := protocol
  localAddr := 0
  port := 0
  remote := ⟨0, 0⟩
  canRx := protocol = .tcp
  child := none
  backlog := 0
  acceptedNum := 0
  closing := false
  accepted := false
  father := none

/-- The sockets in use, the heads of both lists, and both port counters. -/
structure Sockets where
  node : Addr → Node
  next : Addr → Option Addr
  live : Addr → Bool
  conns : Proto → Option Addr
  ports : Proto → UInt16

/-! ### One list -/

/-- `vsfip_socketlist_add`: the head and the links afterwards. -/
def socketlistAdd (next : Addr → Option Addr) (head : Option Addr) (a : Addr) : Option Addr × (Addr → Option Addr) :=
  (some a, if head.isSome then Function.update next a head else next)

/-- The loop of `vsfip_socketlist_remove`. -/
def socketlistRemoveLoop (a : Addr) : ℕ → (Addr → Option Addr) → Addr → Option (Bool × (Addr → Option Addr))
  | 0, _, _ => none
  | f + 1, next, tmp =>
    if next tmp = some a then some (true, Function.update next tmp (next a))
    else
      match next tmp with
      | none => some (false, next)
      | some n => socketlistRemoveLoop a f next n

/-- `vsfip_socketlist_remove`: if it was found, the head, and the links. -/
def socketlistRemove (next : Addr → Option Addr) (head : Option Addr) (a : Addr) :
    Option (Bool × Option Addr × (Addr → Option Addr)) :=
  match head with
  | none => some (false, none, next)
  | some p =>
    if p = a then some (true, next p, next)
    else (socketlistRemoveLoop a walkFuel next p).map fun r => (r.1, some p, r.2)

/-- The result of taking `a` from the chain `xs`; other links stay. -/
structure Removed (next : Addr → Option Addr) (xs : List Addr) (a : Addr)
    (r : Bool × Option Addr × (Addr → Option Addr)) : Prop where
  found : r.1 = decide (a ∈ xs)
  chain : Chain r.2.2 r.2.1 (xs.erase a)
  frame : ∀ x, x ∉ xs ∨ x = a → r.2.2 x = next x

theorem socketlistRemoveLoop_spec (a : Addr) : ∀ (f : ℕ) (next : Addr → Option Addr) (p : Option Addr)
    (as : List Addr) (y : Addr) (bs : List Addr), Chain next p (as ++ y :: bs) → a ∉ as → a ≠ y → bs.length < f →
    ∃ r, socketlistRemoveLoop a f next y = some r ∧ Removed next (as ++ y :: bs) a (r.1, p, r.2) := by
  intro f
  induction f with
  | zero => intro next p as y bs _ _ _ hf; omega
  | succ f ih =>
    intro next p as y bs h has hay hf
    obtain ⟨r, -, -, hy⟩ := chain_append.mp h
    have herase : (as ++ y :: bs).erase a = as ++ y :: bs.erase a := by
      rw [erase_append_right _ has, erase_cons_tail (by simpa using Ne.symm hay)]
    have hmem : a ∈ as ++ y :: bs ↔ a ∈ bs := by
      rw [mem_append, mem_cons]
      exact ⟨fun hm => (hm.resolve_left has).resolve_left hay, fun hm => .inr (.inr hm)⟩
    unfold socketlistRemoveLoop
    cases bs with
    | nil =>
      have hnone : next y = none := hy
      refine ⟨(false, next), by simp [hnone], ⟨?_, by rw [herase]; exact h, fun _ _ => rfl⟩⟩
      exact (decide_eq_false fun hm => absurd (hmem.mp hm) not_mem_nil).symm
    | cons x bs =>
      obtain ⟨hx, hbs⟩ := chain_cons.mp hy
      by_cases hxa : x = a
      · subst hxa
        refine ⟨_, if_pos hx, ⟨?_, ?_, fun z hz => Function.update_of_ne ?_ _ _⟩⟩
        · simp
        · rw [herase, erase_cons_head]
          exact h.unlink
        · rintro rfl
          rcases hz with hz | rfl
          · exact hz (mem_append_right _ mem_cons_self)
          · exact hay rfl
      · have hstep : as ++ y :: x :: bs = (as ++ [y]) ++ x :: bs := by simp
        have hasy : a ∉ as ++ [y] := by
          rw [mem_append, mem_singleton]
          exact fun hm => hm.elim has hay
        obtain ⟨r', h1, h2⟩ := ih next p (as ++ [y]) x bs (hstep ▸ h) hasy (fun he => hxa he.symm)
          (by simp only [length_cons] at hf; omega)
        have hne : next y ≠ some a := fun he => hxa (Option.some.inj (hx.symm.trans he))
        exact ⟨r', by rw [if_neg hne, hx]; exact h1, hstep ▸ h2⟩

variable {next : Addr → Option Addr} {head : Option Addr} {xs : List Addr}

/-- **`vsfip_socketlist_remove` takes its socket out**, if it is in the list. -/
theorem socketlistRemove_spec
    (h : Chain next head xs) (a : Addr) : ∃ r, socketlistRemove next head a = some r ∧ Removed next xs a r := by
  cases xs with
  | nil =>
    obtain rfl : head = none := h
    exact ⟨_, rfl, ⟨by simp, rfl, fun _ _ => rfl⟩⟩
  | cons y bs =>
    obtain ⟨rfl, hbs⟩ := chain_cons.mp h
    unfold socketlistRemove
    by_cases hya : y = a
    · subst hya
      exact ⟨_, if_pos rfl, ⟨by simp, by rw [erase_cons_head]; exact hbs, fun _ _ => rfl⟩⟩
    · have hf : bs.length < walkFuel := by
        have := h.length_le
        simp only [length_cons] at this
        exact this
      obtain ⟨r, h1, h2⟩ := socketlistRemoveLoop_spec a walkFuel next (some y) [] y bs h not_mem_nil
        (fun he => hya he.symm) hf
      exact ⟨(r.1, some y, r.2), by simp [hya, h1], h2⟩

/-- **`vsfip_socketlist_add` puts its socket in front**; the first one points nowhere already. -/
theorem socketlistAdd_spec (h : Chain next head xs) {a : Addr} (ha : a ∉ xs) (hn : next a = none) :
    Chain (socketlistAdd next head a).2 (socketlistAdd next head a).1 (a :: xs) ∧
      ∀ x, x ≠ a → (socketlistAdd next head a).2 x = next x := by
  unfold socketlistAdd
  cases head with
  | none =>
    cases xs with
    | nil => exact ⟨⟨rfl, hn⟩, fun _ _ => rfl⟩
    | cons y ys => exact absurd h.1 (by simp)
  | some p => exact ⟨h.push ha, fun x hx => Function.update_of_ne hx _ _⟩

namespace Sockets

/-! ### The functions -/

/-- `vsfip_socket`, with what `get_socket` returned, and a control block or not. -/
def socket (s : Sockets) (protocol : Proto) (a : Option Addr) (pcb : Bool) : Sockets :=
  match a with
  | none => s
  | some a => { s with
      node := Function.update s.node a (Node.new protocol)
      next := Function.update s.next a none
      live := Function.update s.live a (protocol = .udp || pcb) }

/-- The part of `vsfip_childsocket` after `vsfip_socket` returned `a`. -/
def childsocket (s : Sockets) (father : Addr) (sockaddr : Sockaddr) (a : Addr) : Sockets :=
  let node := Function.update s.node a { s.node a with
    canRx := (s.node father).canRx
    remote := sockaddr
    localAddr := (s.node father).localAddr
    port := (s.node father).port
    father := some father }
  let r := socketlistAdd s.next (node father).child a
  { s with node := Function.update node father { node father with child := r.1 }, next := r.2 }

/-- `vsfip_free_socket`: the socket leaves the list it should be in. -/
def freeSocket (s : Sockets) (a : Addr) : Option Sockets :=
  match (s.node a).father with
  | some f => (socketlistRemove s.next (s.node f).child a).map fun r => { s with
      node := Function.update s.node f { s.node f with child := r.2.1 }
      next := r.2.2
      live := Function.update s.live a false }
  | none => (socketlistRemove s.next (s.conns (s.node a).protocol) a).map fun r => { s with
      conns := Function.update s.conns (s.node a).protocol r.2.1
      next := r.2.2
      live := Function.update s.live a false }

/-- The part of `vsfip_close` that takes a child from its father. -/
def leave (s : Sockets) (f a : Addr) : Option Sockets :=
  (socketlistRemove s.next (s.node f).child a).map fun r => { s with
    node := Function.update s.node f { s.node f with
      child := r.2.1
      acceptedNum := if r.1 then (s.node f).acceptedNum - 1 else (s.node f).acceptedNum }
    next := r.2.2 }

/-- `vsfip_close`. -/
def close (s : Sockets) (a : Addr) : Option Sockets :=
  if (s.node a).backlog > 0 ∧ (s.node a).acceptedNum > 0 then
    some { s with node := Function.update s.node a { s.node a with closing := true } }
  else
    match (s.node a).father with
    | none => s.freeSocket a
    | some f => do
      let s ← s.leave f a
      let s ← if (s.node f).closing ∧ (s.node f).acceptedNum = 0 then s.freeSocket f else some s
      s.freeSocket a

/-- The loop of `vsfip_bind`: whether the port is bound already. -/
def bindLoop (s : Sockets) (port : UInt16) : ℕ → Option Addr → Option Bool
  | _, none => some false
  | 0, some _ => none
  | f + 1, some tmp => if (s.node tmp).port = port then some true else s.bindLoop port f (s.next tmp)

/-- `vsfip_bind`; `false` is `VSFERR_FAIL`. -/
def bind (s : Sockets) (a : Addr) (port : UInt16) : Option (Bool × Sockets) :=
  let p := (s.node a).protocol
  (s.bindLoop port walkFuel (s.conns p)).map fun bound =>
    if bound then (false, s)
    else (true, { s with
      next := Function.update s.next a (s.conns p)
      conns := Function.update s.conns p (some a)
      node := Function.update s.node a { s.node a with port := port } })

/-- `vsfip_get_port`. -/
def getPort (s : Sockets) (p : Proto) : UInt16 × Sockets :=
  (s.ports p, { s with ports := Function.update s.ports p (s.ports p + 1) })

/-- The automatic bind of a socket without a port; `false` is an error. -/
def autoBind (s : Sockets) (p : Proto) (a : Addr) : Option (Bool × Sockets) :=
  if (s.node a).port = 0 then
    let r := s.getPort p
    r.2.bind a r.1
  else some (true, s)

/-- `vsfip_listen`; `false` is an error. -/
def listen (s : Sockets) (a : Addr) (backlog : UInt8) : Bool × Sockets :=
  let s := { s with node := Function.update s.node a { s.node a with canRx := true } }
  if (s.node a).protocol = .tcp then
    if backlog = 0 then (false, s)
    else if (s.node a).backlog > 0 then (false, s)
    else (true, { s with node := Function.update s.node a { s.node a with backlog := backlog } })
  else (true, s)

theorem bindLoop_spec (s : Sockets) (port : UInt16) : ∀ (f : ℕ) (p : Option Addr) (xs : List Addr),
    Chain s.next p xs → xs.length ≤ f →
    s.bindLoop port f p = some (decide (∃ x ∈ xs, (s.node x).port = port))
  | f, p, [], h, _ => by
    obtain rfl : p = none := h
    cases f <;> simp [bindLoop]
  | 0, p, x :: xs, h, hf => by simp at hf
  | f + 1, p, x :: xs, h, hf => by
    obtain ⟨rfl, hxs⟩ := chain_cons.mp h
    have ih := bindLoop_spec s port f (s.next x) xs hxs (by simpa using hf)
    unfold bindLoop
    by_cases hx : (s.node x).port = port
    · simp [hx]
    · rw [if_neg hx, ih]
      simp [hx]

end Sockets
end Vsf
