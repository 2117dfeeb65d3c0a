/-
# The intrusive queue of buffer.c

`struct vsfq_t` with its node memory: `append` puts a node at the tail, `enqueue` before the first
one whose `addr` is not smaller, `remove` unlinks one anywhere and `dequeue` takes the head.
`enqueue` never writes `tail` once the queue is not empty, so the representation (`Rep`) is kept
just as long as none lands behind the last node.
-/
import Mathlib
import Vsf.Lib.Chain

namespace Vsf

open Linked

/-- An address of the 32-bit machine; `none` is `NULL`. -/
abbrev Addr := UInt32

/-- The iterations a walk over a chain of addresses can take. -/
def walkFuel : ℕ := 2 ^ 32

/-- `struct vsfq_t` and its nodes, one map for each field of a node. -/
structure Queue where
  head : Option Addr
  tail : Option Addr
  addr : Addr → UInt32
  next : Addr → Option Addr

namespace Queue

/-- `n->next = v`. -/
def setNext (q : Queue) (n : Addr) (v : Option Addr) : Queue :=
  { q with next := Function.update q.next n v }

@[simp] theorem setNext_head (q : Queue) (n : Addr) (v : Option Addr) : (q.setNext n v).head = q.head := rfl
@[simp] theorem setNext_tail (q : Queue) (n : Addr) (v : Option Addr) : (q.setNext n v).tail = q.tail := rfl
@[simp] theorem setNext_addr (q : Queue) (n : Addr) (v : Option Addr) : (q.setNext n v).addr = q.addr := rfl
@[simp] theorem setNext_next (q : Queue) (n : Addr) (v : Option Addr) :
    (q.setNext n v).next = Function.update q.next n v := rfl

/-! ### The operations -/

/-- `vsfq_init`: the node memory is whatever it was. -/
def init (q : Queue) : Queue := { q with head := none, tail := none }

/-- `vsfq_append`. -/
def append (q : Queue) (n : Addr) : Queue :=
  let q := q.setNext n none
  match q.tail with
  | none => { q with head := some n, tail := some n }
  | some t => { q.setNext t (some n) with tail := some n }

/-- The loop of `vsfq_remove`, at the node `head`. -/
def removeLoop (n : Addr) : ℕ → Queue → Addr → Option Queue
  | 0, _, _ => none
  | f + 1, q, head =>
    match q.next head with
    | none => some q
    | some x =>
      if x = n then
        let q := q.setNext head (q.next x)
        some (if q.next head = none then { q with tail := some head } else q)
      else removeLoop n f q x

/-- `vsfq_remove`. -/
def remove (q : Queue) (n : Addr) : Option Queue :=
  match q.head with
  | none => some q
  | some h =>
    if h = n then
      let q := { q with head := q.next h }
      some (if q.head = none then { q with tail := none } else q)
    else removeLoop n walkFuel q h

/-- The loop of `vsfq_enqueue`, at `tmp`. The `break` is in front of the last assignment, which then runs
again. -/
def enqueueLoop (n : Addr) : ℕ → Queue → Addr → Option Queue
  | 0, _, _ => none
  | f + 1, q, tmp =>
    match q.next tmp with
    | none => some (q.setNext tmp (some n))
    | some x =>
      if q.addr n ≤ q.addr x then
        some (((q.setNext n (some x)).setNext tmp (some n)).setNext tmp (some n))
      else enqueueLoop n f q x

/-- `vsfq_enqueue`. -/
def enqueue (q : Queue) (n : Addr) : Option Queue :=
  let tmp := q.head
  let q := q.setNext n none
  match tmp with
  | none => some { q with head := some n, tail := some n }
  | some h =>
    if q.addr n ≤ q.addr h then some { q.setNext n (some h) with head := some n }
    else enqueueLoop n walkFuel q h

/-- `vsfq_dequeue`: the node taken, and the queue left. -/
def dequeue (q : Queue) : Option Addr × Queue :=
  match q.head with
  | none => (none, q)
  | some h =>
    let q := { q with head := q.next h }
    (some h, if q.head = none then { q with tail := none } else q)

/-! ### Removing a node -/

theorem getLast?_cons_ne {α : Type*} {x : α} {xs : List α} (h : xs ≠ []) :
    (x :: xs).getLast? = xs.getLast? := by
  obtain ⟨y, ys, rfl⟩ := List.exists_cons_of_ne_nil h
  rw [List.getLast?_cons_cons]

/-- The loop looks at what follows `y` in the chain; `n` is not `y` itself. -/
theorem removeLoop_spec (n : Addr) : ∀ (f : ℕ) (q : Queue) (as : List Addr) (y : Addr) (bs : List Addr),
    Chain q.next q.head (as ++ y :: bs) → n ≠ y → bs.length < f →
    ∃ q', removeLoop n f q y = some q' ∧ Chain q'.next q'.head (as ++ y :: bs.erase n) ∧
      q'.addr = q.addr ∧
      (q.tail = (y :: bs).getLast? → q'.tail = (y :: bs.erase n).getLast?) := by
  intro f
  induction f with
  | zero => intro q as y bs _ _ hf; omega
  | succ f ih =>
    intro q as y bs h hny hf
    obtain ⟨r, -, -, hy⟩ := chain_append.mp h
    cases bs with
    | nil =>
      have hnone : q.next y = none := hy
      exact ⟨q, by simp [removeLoop, hnone], by simpa using h, rfl, by simp⟩
    | cons x bs =>
      obtain ⟨hx, hbs⟩ := chain_cons.mp hy
      by_cases hxn : x = n
      · subst hxn
        have hlast : bs.head? = none ↔ bs = [] := List.head?_eq_none_iff
        have hnext : q.next x = bs.head? := hbs.head?
        refine ⟨_, by simp [removeLoop, hx]; rfl, ?_, ?_, ?_⟩
        · rw [List.erase_cons_head]
          split <;> exact h.unlink
        · split <;> rfl
        · rw [List.erase_cons_head]
          intro ht
          by_cases hb : bs = []
          · rw [if_pos (hnext.trans (hlast.mpr hb)), hb]; rfl
          · rw [if_neg (by rw [hnext, hlast]; exact hb), setNext_tail, ht,
              getLast?_cons_ne (List.cons_ne_nil x bs), getLast?_cons_ne hb, getLast?_cons_ne hb]
      · have hstep : as ++ y :: x :: bs = (as ++ [y]) ++ x :: bs := by simp
        obtain ⟨q', h1, h2, h3, h4⟩ := ih q (as ++ [y]) x bs (hstep ▸ h) (fun he => hxn he.symm)
          (by simp only [List.length_cons] at hf; omega)
        refine ⟨q', by simp [removeLoop, hx, hxn, h1], ?_, h3, ?_⟩
        · rw [List.erase_cons_tail (by simpa using hxn)]
          simpa using h2
        · rw [List.erase_cons_tail (by simpa using hxn), List.getLast?_cons_cons, List.getLast?_cons_cons]
          exact h4

variable {q : Queue} {xs : List Addr} {s : Run}

/-- **`vsfq_remove` unlinks its node**; a `tail` that was it stays. -/
theorem remove_spec (h : Chain q.next q.head xs) (n : Addr) :
    ∃ q', remove q n = some q' ∧ Chain q'.next q'.head (xs.erase n) ∧ q'.addr = q.addr ∧
      (q.tail = xs.getLast? → q'.tail = (xs.erase n).getLast?) := by
  cases xs with
  | nil =>
    have hh : q.head = none := h
    exact ⟨q, by simp [remove, hh], h, rfl, id⟩
  | cons y bs =>
    obtain ⟨hh, hbs⟩ := chain_cons.mp h
    by_cases hny : y = n
    · subst hny
      have hnext : q.next y = bs.head? := hbs.head?
      refine ⟨_, by simp [remove, hh]; rfl, ?_, ?_, ?_⟩
      · rw [List.erase_cons_head]; split <;> exact hbs
      · split <;> rfl
      · rw [List.erase_cons_head]
        intro ht
        by_cases hb : bs = []
        · subst hb; rw [if_pos (show q.next y = none from hnext)]; rfl
        · rw [if_neg (by rw [hnext, List.head?_eq_none_iff]; exact hb)]
          simpa [getLast?_cons_ne hb] using ht
    · have hf : bs.length < walkFuel := by
        have := h.length_le
        simp only [List.length_cons] at this
        exact this
      obtain ⟨q', h1, h2, h3, h4⟩ := removeLoop_spec n walkFuel q [] y bs h (fun he => hny he.symm) hf
      refine ⟨q', by simp [remove, hh, hny, h1], ?_, h3, ?_⟩
      · rw [List.erase_cons_tail (by simpa using hny)]; exact h2
      · rw [List.erase_cons_tail (by simpa using hny)]; exact h4

/-! ### Inserting a node in order -/

/-- The order of the queue: by `addr`. -/
abbrev AddrLe (q : Queue) (a b : Addr) : Prop := q.addr a ≤ q.addr b

/-- The loop is at `y`, and `n` belongs behind `y`. -/
theorem enqueueLoop_spec (n : Addr) : ∀ (f : ℕ) (q : Queue) (as : List Addr) (y : Addr) (bs : List Addr),
    Chain q.next q.head (as ++ y :: bs) → n ∉ as ++ y :: bs → q.next n = none → bs.length < f →
    ∃ q', enqueueLoop n f q y = some q' ∧
      Chain q'.next q'.head (as ++ y :: bs.orderedInsert q.AddrLe n) ∧
      q'.addr = q.addr ∧ q'.tail = q.tail ∧ q'.head = q.head := by
  intro f
  induction f with
  | zero => intro q as y bs _ _ _ hf; omega
  | succ f ih =>
    intro q as y bs h hn hnn hf
    obtain ⟨r, -, -, hy⟩ := chain_append.mp h
    cases bs with
    | nil =>
      have hnone : q.next y = none := hy
      refine ⟨q.setNext y (some n), by simp [enqueueLoop, hnone], ?_, rfl, rfl, rfl⟩
      have hl := h.link hn
      rw [List.head?_nil, ← hnn, Function.update_eq_self] at hl
      exact hl
    | cons x bs =>
      obtain ⟨hx, hbs⟩ := chain_cons.mp hy
      by_cases hle : q.addr n ≤ q.addr x
      · refine ⟨((q.setNext n (some x)).setNext y (some n)).setNext y (some n),
          by simp [enqueueLoop, hx, hle], ?_, rfl, rfl, rfl⟩
        rw [List.orderedInsert_cons, if_pos hle]
        simpa using h.link hn
      · have hstep : as ++ y :: x :: bs = (as ++ [y]) ++ x :: bs := by simp
        obtain ⟨q', h1, h2, h3⟩ := ih q (as ++ [y]) x bs (hstep ▸ h) (hstep ▸ hn) hnn
          (by simp only [List.length_cons] at hf; omega)
        refine ⟨q', by simp [enqueueLoop, hx, hle, h1], ?_, h3⟩
        rw [List.orderedInsert_cons, if_neg hle]
        simpa using h2

/-- **`vsfq_enqueue` inserts in order**; it writes `tail` only when the queue was empty. -/
theorem enqueue_spec (h : Chain q.next q.head xs) {n : Addr} (hn : n ∉ xs) :
    ∃ q', enqueue q n = some q' ∧ Chain q'.next q'.head (xs.orderedInsert q.AddrLe n) ∧
      q'.addr = q.addr ∧ q'.tail = if xs = [] then some n else q.tail := by
  have h0 : Chain (q.setNext n none).next q.head xs := h.update hn
  cases xs with
  | nil =>
    have hh : q.head = none := h
    refine ⟨{ q.setNext n none with head := some n, tail := some n }, by simp [enqueue, hh], ?_, rfl, rfl⟩
    exact ⟨rfl, by simp [seg_nil]⟩
  | cons y bs =>
    obtain ⟨hh, hbs⟩ := chain_cons.mp h
    by_cases hle : q.addr n ≤ q.addr y
    · refine ⟨{ (q.setNext n none).setNext n (some y) with head := some n },
        by simp [enqueue, hh, hle], ?_, rfl, rfl⟩
      rw [List.orderedInsert_cons, if_pos hle]
      simpa [hh] using h.push hn
    · have hf : bs.length < walkFuel := by
        have := h.length_le
        simp only [List.length_cons] at this
        exact this
      obtain ⟨q', h1, h2, h3, h4, h5⟩ := enqueueLoop_spec n walkFuel (q.setNext n none) [] y bs h0 hn
        (by simp) hf
      refine ⟨q', by simp [enqueue, hh, hle, h1], ?_, h3, h4⟩
      rw [List.orderedInsert_cons, if_neg hle]
      exact h2

/-! ### Runs

A run starts with `vsfq_init` on any memory. The caller owns the nodes: it may
write a node's `addr` at any time, and it inserts only a node that is not in
the queue. `live` keeps the nodes inserted and not removed since. -/

/-- One call on the queue, or the caller's write of a node's `addr`. -/
inductive Op where
  | append (n : Addr)
  | enqueue (n : Addr)
  | remove (n : Addr)
  | dequeue
  | setAddr (n : Addr) (a : UInt32)
deriving DecidableEq

/-- A queue and the nodes inserted and not removed. -/
structure Run where
  queue : Queue
  live : List Addr

/-- `vsfq_init` on the memory of `q`. -/
def start (q : Queue) : Run := ⟨init q, []⟩

/-- One step of a run; `none` when a walk does not end. -/
def step (s : Run) : Op → Option Run
  | .append n => some ⟨s.queue.append n, n :: s.live⟩
  | .enqueue n => (s.queue.enqueue n).map fun q => ⟨q, n :: s.live⟩
  | .remove n => (s.queue.remove n).map fun q => ⟨q, s.live.erase n⟩
  | .dequeue => some ⟨s.queue.dequeue.2, s.queue.dequeue.1.elim s.live s.live.erase⟩
  | .setAddr n a => some ⟨{ s.queue with addr := Function.update s.queue.addr n a }, s.live⟩

/-- A node is inserted only while it is not in the queue. -/
def legalOp (s : Run) : Op → Bool
  | .append n => n ∉ s.live
  | .enqueue n => n ∉ s.live
  | _ => true

/-- Every step of the run is legal in the state it is taken from. -/
def legal (s : Run) : List Op → Bool
  | [] => true
  | op :: ops => legalOp s op && (step s op).all fun s' => legal s' ops

/-- An `enqueue` that does not land behind the last node. -/
def landsInside (s : Run) : Op → Bool
  | .enqueue n => s.live = [] ∨ ∃ x ∈ s.live, s.queue.addr n ≤ s.queue.addr x
  | _ => true

/-- No `enqueue` of the run lands behind the last node. -/
def noTailInsert (s : Run) : List Op → Bool
  | [] => true
  | op :: ops => landsInside s op && (step s op).all fun s' => noTailInsert s' ops

/-- The chain from `head` holds the live nodes, and `tail` is its last one. -/
structure Rep (s : Run) (xs : List Addr) : Prop where
  chain : Chain s.queue.next s.queue.head xs
  nodup : xs.Nodup
  mem : ∀ n, n ∈ xs ↔ n ∈ s.live
  empty : s.queue.tail = none ↔ xs = []
  last : ∀ h : xs ≠ [], s.queue.tail = some (xs.getLast h)

/-- Everywhere in the run the queue is represented, calls return, and an `append` appends. -/
def Represented (s : Run) : List Op → Prop
  | [] => ∃ xs, Rep s xs
  | op :: ops => ∃ xs s', Rep s xs ∧ step s op = some s' ∧
      (∀ n, op = .append n → Rep s' (xs ++ [n])) ∧ Represented s' ops

/-- The chain holds the live nodes in some order, and `tail` is its last. -/
structure Inv (s : Run) (xs : List Addr) : Prop where
  chain : Chain s.queue.next s.queue.head xs
  perm : xs.Perm s.live
  tail : s.queue.tail = xs.getLast?

theorem Inv.rep (h : Inv s xs) : Rep s xs where
  chain := h.chain
  nodup := h.chain.nodup
  mem _ := h.perm.mem_iff
  empty := by rw [h.tail, List.getLast?_eq_none_iff]
  last hne := by rw [h.tail, List.getLast?_eq_some_getLast hne]

theorem start_inv (q : Queue) : Inv (start q) [] := ⟨rfl, List.Perm.refl _, rfl⟩

theorem append_inv (h : Inv s xs) {n : Addr} (hn : n ∉ s.live) :
    Inv ⟨s.queue.append n, n :: s.live⟩ (xs ++ [n]) := by
  have hnx : n ∉ xs := fun hm => hn (h.perm.mem_iff.mp hm)
  have hperm : (xs ++ [n]).Perm (n :: s.live) :=
    (List.perm_append_singleton n xs).trans (h.perm.cons n)
  rcases List.eq_nil_or_concat' xs with rfl | ⟨as, t, rfl⟩
  · have ht : s.queue.tail = none := h.tail
    refine ⟨?_, hperm, ?_⟩
    · simp [append, ht, chain_cons, chain_nil]
    · simp [append, ht]
  · have ht : s.queue.tail = some t := by rw [h.tail]; simp
    refine ⟨?_, hperm, ?_⟩
    · have hl := h.chain.link hnx
      simpa [append, ht] using hl
    · simp [append, ht]

theorem remove_inv (h : Inv s xs) (n : Addr) :
    ∃ q, s.queue.remove n = some q ∧ Inv ⟨q, s.live.erase n⟩ (xs.erase n) := by
  obtain ⟨q, h1, h2, -, h4⟩ := remove_spec h.chain n
  exact ⟨q, h1, h2, h.perm.erase n, h4 h.tail⟩

theorem dequeue_inv (h : Inv s xs) :
    Inv ⟨s.queue.dequeue.2, s.queue.dequeue.1.elim s.live s.live.erase⟩ xs.tail := by
  cases xs with
  | nil =>
    have hh : s.queue.head = none := h.chain
    simpa [dequeue, hh] using h
  | cons y bs =>
    obtain ⟨hh, hbs⟩ := chain_cons.mp h.chain
    have hnext : s.queue.next y = bs.head? := hbs.head?
    have hp : bs.Perm (s.live.erase y) := by simpa using h.perm.erase y
    by_cases hb : bs = []
    · subst hb
      have hnone : s.queue.next y = none := hnext
      have hl : s.live.erase y = [] := hp.symm.eq_nil
      refine ⟨?_, ?_, ?_⟩ <;> simp [dequeue, hh, hnone, hl, chain_nil]
    · have hsome : s.queue.next y ≠ none := by rw [hnext, ne_eq, List.head?_eq_none_iff]; exact hb
      refine ⟨?_, ?_, ?_⟩
      · simpa [dequeue, hh, hsome] using hbs
      · simpa [dequeue, hh] using hp
      · simpa [dequeue, hh, hsome, getLast?_cons_ne hb] using h.tail

theorem getLast?_orderedInsert {n : Addr} : ∀ {xs : List Addr},
    (∃ x ∈ xs, q.addr n ≤ q.addr x) → (xs.orderedInsert q.AddrLe n).getLast? = xs.getLast?
  | [], ⟨_, h, _⟩ => by cases h
  | y :: ys, ⟨x, hx, hle⟩ => by
    rw [List.orderedInsert_cons]
    split_ifs with hy
    · rw [List.getLast?_cons_cons]
    · have hx' : x ∈ ys := by
        rcases List.mem_cons.mp hx with rfl | hx
        · exact absurd hle hy
        · exact hx
      have hne : ys ≠ [] := List.ne_nil_of_mem hx'
      have hne' : ys.orderedInsert q.AddrLe n ≠ [] := List.ne_nil_of_length_pos (by
        rw [List.orderedInsert_length]; omega)
      rw [getLast?_cons_ne hne, getLast?_cons_ne hne', getLast?_orderedInsert ⟨x, hx', hle⟩]

theorem orderedInsert_eq_append {n : Addr} : ∀ {xs : List Addr},
    (∀ x ∈ xs, ¬ q.addr n ≤ q.addr x) → xs.orderedInsert q.AddrLe n = xs ++ [n]
  | [], _ => rfl
  | y :: ys, h => by
    rw [List.orderedInsert_cons, if_neg (h y List.mem_cons_self),
      orderedInsert_eq_append fun x hx => h x (List.mem_cons_of_mem _ hx)]
    rfl

theorem enqueue_inv (h : Inv s xs) {n : Addr} (hn : n ∉ s.live) : ∃ q, s.queue.enqueue n = some q ∧
      (landsInside s (.enqueue n) = true → ∃ ys, Inv ⟨q, n :: s.live⟩ ys) ∧
      (landsInside s (.enqueue n) = false → ¬ ∃ ys, Rep ⟨q, n :: s.live⟩ ys) := by
  have hnx : n ∉ xs := fun hm => hn (h.perm.mem_iff.mp hm)
  obtain ⟨q, h1, h2, -, h4⟩ := enqueue_spec h.chain hnx
  have hperm : (xs.orderedInsert s.queue.AddrLe n).Perm (n :: s.live) :=
    (List.perm_orderedInsert _ n xs).trans (h.perm.cons n)
  refine ⟨q, h1, fun hin => ⟨_, h2, hperm, ?_⟩, fun hout => ?_⟩
  · have hin' : xs = [] ∨ ∃ x ∈ xs, s.queue.addr n ≤ s.queue.addr x := by
      rcases of_decide_eq_true hin with he | ⟨x, hx, hle⟩
      · left; exact (he ▸ h.perm).eq_nil
      · right; exact ⟨x, h.perm.mem_iff.mpr hx, hle⟩
    rw [h4]
    rcases hin' with rfl | hx
    · rfl
    · rw [if_neg (by rintro rfl; obtain ⟨_, hx, _⟩ := hx; cases hx), getLast?_orderedInsert hx, h.tail]
  -- the tail is still the node that was last, and that node is not `n`
  · have hout' := of_decide_eq_false hout
    push Not at hout'
    obtain ⟨hne, hall⟩ := hout'
    have hxs : xs ≠ [] := by rintro rfl; exact hne (h.perm.symm.eq_nil)
    rw [orderedInsert_eq_append fun x hx => hall x (h.perm.mem_iff.mp hx)] at h2
    rintro ⟨ys, hr⟩
    obtain rfl : ys = xs ++ [n] := hr.chain.unique h2
    have ht := hr.last (by simp)
    rw [show (⟨q, n :: s.live⟩ : Run).queue.tail = q.tail from rfl, h4, if_neg hxs, h.tail,
      List.getLast?_eq_some_getLast hxs, List.getLast_append_singleton] at ht
    have hmem := List.getLast_mem hxs
    rw [Option.some.inj ht] at hmem
    exact hnx hmem

/-- A legal step keeps the invariant, or is an `enqueue` behind the last node, which breaks it. -/
theorem step_inv (h : Inv s xs) {op : Op} (hl : legalOp s op = true) : ∃ s', step s op = some s' ∧
      (landsInside s op = true → ∃ ys, Inv s' ys ∧ ∀ n, op = .append n → ys = xs ++ [n]) ∧
      (landsInside s op = false → ¬ ∃ ys, Rep s' ys) := by
  cases op with
  | append n =>
    refine ⟨_, rfl, fun _ => ⟨_, append_inv h (of_decide_eq_true hl), ?_⟩, fun hc => by cases hc⟩
    rintro m ⟨⟩; rfl
  | enqueue n =>
    obtain ⟨q, h1, h2, h3⟩ := enqueue_inv h (of_decide_eq_true hl)
    refine ⟨_, by simp only [step, h1]; rfl, fun hin => ?_, h3⟩
    obtain ⟨ys, hy⟩ := h2 hin
    exact ⟨ys, hy, fun m hm => by cases hm⟩
  | remove n =>
    obtain ⟨q, h1, h2⟩ := remove_inv h n
    exact ⟨_, by simp only [step, h1]; rfl, fun _ => ⟨_, h2, fun m hm => by cases hm⟩, fun hc => by cases hc⟩
  | dequeue =>
    exact ⟨_, rfl, fun _ => ⟨_, dequeue_inv h, fun m hm => by cases hm⟩, fun hc => by cases hc⟩
  | setAddr n a =>
    refine ⟨_, rfl, fun _ => ⟨xs, ⟨h.chain, h.perm, h.tail⟩, fun m hm => by cases hm⟩, fun hc => by cases hc⟩

theorem represented_iff_of_inv : ∀ (ops : List Op) {s : Run} {xs : List Addr}, Inv s xs →
    legal s ops = true → (Represented s ops ↔ noTailInsert s ops = true)
  | [], s, xs, h, _ => ⟨fun _ => rfl, fun _ => ⟨xs, h.rep⟩⟩
  | op :: ops, s, xs, h, hl => by
    simp only [legal, Bool.and_eq_true] at hl
    obtain ⟨s', hs, hin, hout⟩ := step_inv h hl.1
    have hl' : legal s' ops = true := by simpa [hs] using hl.2
    simp only [noTailInsert, hs, Option.all_some, Bool.and_eq_true]
    constructor
    · rintro ⟨ys, t, -, ht, -, hrest⟩
      obtain rfl : s' = t := Option.some.inj (hs.symm.trans ht)
      have hland : landsInside s op = true := by
        by_contra hc
        refine hout (by simpa using hc) ?_
        cases ops with
        | nil => exact hrest
        | cons _ _ => obtain ⟨zs, _, hz, -⟩ := hrest; exact ⟨zs, hz⟩
      obtain ⟨zs, hz, -⟩ := hin hland
      exact ⟨hland, (represented_iff_of_inv ops hz hl').mp hrest⟩
    · rintro ⟨hland, hrest⟩
      obtain ⟨zs, hz, happ⟩ := hin hland
      refine ⟨xs, s', h.rep, hs, fun n hn => ?_, (represented_iff_of_inv ops hz hl').mpr hrest⟩
      exact happ n hn ▸ hz.rep

/-- **The queue is represented along a run exactly when no `enqueue` lands behind the last node.** Such an
`enqueue` leaves `tail` behind. -/
theorem represented_iff (q : Queue) (ops : List Op) (h : legal (start q) ops = true) :
    Represented (start q) ops ↔ noTailInsert (start q) ops = true :=
  represented_iff_of_inv ops (start_inv q) h

/-- A memory of nodes whose `addr` is their address. -/
def exampleMem : Queue := ⟨none, none, id, fun _ => none⟩

theorem represented_iff_example :
    legal (start exampleMem) [.append 3, .enqueue 1, .enqueue 2, .remove 3, .append 3, .dequeue] = true ∧
    Represented (start exampleMem)
      [.append 3, .enqueue 1, .enqueue 2, .remove 3, .append 3, .dequeue] :=
  ⟨by decide, (represented_iff exampleMem _ (by decide)).mpr (by decide)⟩

/-- Two nodes enqueued in order: the second lands behind the first, `tail` stays. -/
theorem enqueue_leaves_stale_tail : legal (start exampleMem) [.enqueue 1, .enqueue 2] = true ∧
    ¬ Represented (start exampleMem) [.enqueue 1, .enqueue 2] := by
  refine ⟨by decide, fun h => ?_⟩
  have := (represented_iff_of_inv _ (start_inv exampleMem) (by decide)).mp h
  exact absurd this (by decide)

end Queue
end Vsf
