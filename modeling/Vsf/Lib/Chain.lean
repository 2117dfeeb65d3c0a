/-
# Singly linked chains

Nodes linked by one nullable pointer are a function `next : α → Option α`. `Seg next p xs q` says
that following it from `p` visits `xs` and arrives at `q`; `Chain next p xs` ends at null. A pointer
has at most one chain (`Chain.unique`), without repetition (`Chain.nodup`). The edits are
`Chain.unlink`, `Chain.link` and `Chain.push`; `Seg.congr` carries a segment to a memory that agrees
on its nodes.
-/
import Mathlib

namespace Linked

open List Function

variable {α : Type*}

/-- Following `next` from `p` visits `xs` in order and arrives at `q`. -/
def Seg (next : α → Option α) : Option α → List α → Option α → Prop
  | p, [], q => p = q
  | p, x :: xs, q => p = some x ∧ Seg next (next x) xs q

/-- The chain from `p`: its nodes are `xs`, and the last one points nowhere. -/
def Chain (next : α → Option α) (p : Option α) (xs : List α) : Prop := Seg next p xs none

/-! ### Segments -/

variable {next next' : α → Option α} {p q v : Option α} {x y : α} {xs as bs : List α}

theorem seg_nil : Seg next p [] q ↔ p = q := Iff.rfl

theorem seg_cons : Seg next p (x :: xs) q ↔ p = some x ∧ Seg next (next x) xs q := Iff.rfl

theorem chain_nil : Chain next p [] ↔ p = none := Iff.rfl

theorem chain_cons : Chain next p (x :: xs) ↔ p = some x ∧ Chain next (next x) xs := Iff.rfl

/-- A segment of a concatenation is one of each part, meeting at a pointer. -/
theorem seg_append {next : α → Option α} : ∀ {p q : Option α} {xs ys : List α},
    Seg next p (xs ++ ys) q ↔ ∃ r, Seg next p xs r ∧ Seg next r ys q
  | p, q, [], ys => by simp [Seg]
  | p, q, x :: xs, ys => by
    have ih := @seg_append next (next x) q xs ys
    rw [cons_append, seg_cons, ih]
    constructor
    · rintro ⟨h1, r, h2, h3⟩; exact ⟨r, ⟨h1, h2⟩, h3⟩
    · rintro ⟨r, ⟨h1, h2⟩, h3⟩; exact ⟨h1, r, h2, h3⟩

theorem chain_append {ys : List α} :
    Chain next p (xs ++ ys) ↔ ∃ r, Seg next p xs r ∧ Chain next r ys := seg_append

theorem Seg.congr : ∀ {p q : Option α} {xs : List α},
    Seg next p xs q → (∀ x ∈ xs, next' x = next x) → Seg next' p xs q
  | _, _, [], h, _ => h
  | _, _, x :: xs, ⟨h1, h2⟩, hn => by
    refine ⟨h1, ?_⟩
    rw [hn x mem_cons_self]
    exact h2.congr fun y hy => hn y (mem_cons_of_mem _ hy)

theorem Chain.congr (h : Chain next p xs) (hn : ∀ x ∈ xs, next' x = next x) : Chain next' p xs :=
  Seg.congr h hn

theorem Chain.head? : ∀ {xs : List α}, Chain next p xs → p = xs.head?
  | [], h => h
  | _ :: _, h => h.1

theorem Chain.next_getD {next : α → Option α} (d : α) : ∀ {p : Option α} {xs : List α} {i : ℕ},
    Chain next p xs → i + 1 < xs.length → next (xs.getD i d) = some (xs.getD (i + 1) d)
  | _, [], _, _, hi => absurd hi (Nat.not_lt_zero _)
  | _, [_], _, _, hi => absurd (Nat.lt_of_succ_lt_succ hi) (Nat.not_lt_zero _)
  | _, _ :: _ :: _, 0, h, _ => h.2.1
  | _, _ :: y :: ys, i + 1, h, hi => @Chain.next_getD next d _ (y :: ys) i h.2 (Nat.lt_of_succ_lt_succ hi)

/-! ### A chain is unique and meets no node twice -/

theorem Chain.unique : ∀ {p : Option α} {xs ys : List α}, Chain next p xs → Chain next p ys → xs = ys
  | _, [], [], _, _ => rfl
  | _, [], _ :: _, h, h' => by have h1 := h.symm.trans h'.1; cases h1
  | _, _ :: _, [], h, h' => by have h1 := h'.symm.trans h.1; cases h1
  | _, x :: xs, y :: ys, ⟨hx, h⟩, ⟨hy, h'⟩ => by
    obtain rfl : x = y := Option.some.inj (hx.symm.trans hy)
    rw [Chain.unique h h']

/-- If a node came back, the chain from it would have two lengths. -/
theorem Chain.nodup : ∀ {p : Option α} {xs : List α}, Chain next p xs → xs.Nodup
  | _, [], _ => nodup_nil
  | _, x :: xs, ⟨_, h⟩ => by
    refine nodup_cons.mpr ⟨fun hx => ?_, Chain.nodup h⟩
    obtain ⟨as, bs, rfl⟩ := append_of_mem hx
    obtain ⟨r, -, hr, h2⟩ := chain_append.mp h
    have hlen := congrArg List.length (Chain.unique h h2)
    simp only [length_append, length_cons] at hlen
    omega

/-- A chain of 32-bit addresses is no longer than the address space. -/
theorem Chain.length_le {next : UInt32 → Option UInt32} {p : Option UInt32} {xs : List UInt32}
    (h : Chain next p xs) : xs.length ≤ 2 ^ 32 := by
  have hnd : (xs.map UInt32.toNat).Nodup :=
    h.nodup.map fun a b hab => UInt32.toNat_inj.mp hab
  have hsub : xs.map UInt32.toNat ⊆ List.range (2 ^ 32) := fun n hn => by
    obtain ⟨a, -, rfl⟩ := mem_map.mp hn
    exact List.mem_range.mpr a.toNat_lt
  have := (hnd.subperm hsub).length_le
  simpa using this

/-! ### Edits

Each edit is a chain again for the memory it leaves, written with
`Function.update`. -/

variable [DecidableEq α]

theorem Seg.update (h : Seg next p xs q) (hy : y ∉ xs) : Seg (Function.update next y v) p xs q :=
  h.congr fun x hx => update_of_ne (fun he : x = y => hy (he ▸ hx)) _ _

theorem Chain.update (h : Chain next p xs) (hy : y ∉ xs) : Chain (Function.update next y v) p xs :=
  Seg.update h hy

/-- Redirecting `y` to a chain without it replaces what follows `y`. -/
theorem Chain.splice {cs : List α} (h : Chain next p (as ++ y :: bs)) (hv : Chain next v cs) (hy : y ∉ cs) :
    Chain (Function.update next y v) p (as ++ y :: cs) := by
  have hya : y ∉ as := fun hm => by
    have hd := (nodup_append.mp h.nodup).2.2 y hm y mem_cons_self
    exact hd rfl
  obtain ⟨r, h1, hr, -⟩ := chain_append.mp h
  refine chain_append.mpr ⟨r, Seg.update h1 hya, hr, ?_⟩
  rw [update_self]
  exact hv.update hy

/-- **Unlink.** Pointing `y` past `x` drops `x` from the chain. -/
theorem Chain.unlink (h : Chain next p (as ++ y :: x :: bs)) :
    Chain (Function.update next y (next x)) p (as ++ y :: bs) := by
  have hnd := (nodup_append.mp h.nodup).2.1
  obtain ⟨r, -, -, -, hx⟩ := chain_append.mp h
  refine h.splice hx fun hm => ?_
  exact (nodup_cons.mp hnd).1 (mem_cons_of_mem _ hm)

/-- **Push.** A new node that points at the head of a chain starts a longer one. -/
theorem Chain.push {n : α}
    (h : Chain next p xs) (hn : n ∉ xs) : Chain (Function.update next n p) (some n) (n :: xs) := by
  refine ⟨rfl, ?_⟩
  rw [update_self]
  exact h.update hn

/-- **Link**: `n` to what follows `y`, then `y` to `n`. -/
theorem Chain.link {n : α} (h : Chain next p (as ++ y :: bs)) (hn : n ∉ as ++ y :: bs) :
    Chain (Function.update (Function.update next n bs.head?) y (some n)) p (as ++ y :: n :: bs) := by
  obtain ⟨r, -, h2⟩ := chain_append.mp h
  have hb : Chain next (next y) bs := (chain_cons.mp h2).2
  have hnb : n ∉ bs := fun hm => hn (mem_append_right _ (mem_cons_of_mem _ hm))
  have hny : n ≠ y := fun he => hn (he ▸ mem_append_right _ mem_cons_self)
  have hyb : y ∉ bs := (nodup_cons.mp (nodup_append.mp h.nodup).2.1).1
  refine Chain.splice (h.update hn) (hb.head? ▸ hb.push hnb) fun hm => ?_
  rcases mem_cons.mp hm with he | hm
  · exact hny he.symm
  · exact hyb hm

end Linked
