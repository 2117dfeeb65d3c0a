/-
# Blocks of memory

A block comes from the allocator or not, lies apart from those in use, and can be given back once.
The allocator is a choice function that may look at the number of the call and the blocks in use, so
a result for every allocator is one for every order of failures.
-/
import Mathlib

namespace Malloc

open List

/-- The bytes from `addr` on. -/
structure Block where
  addr : ℕ
  size : ℕ
deriving DecidableEq

/-- No byte is in both. -/
def Block.Apart (b c : Block) : Prop := b.addr + b.size ≤ c.addr ∨ c.addr + c.size ≤ b.addr

/-- Call `n` for `size` bytes, when the blocks `bs` are in use. -/
structure Allocator where
  pick : ℕ → List Block → ℕ → Option ℕ
  inside : ∀ {n bs size a}, pick n bs size = some a → 0 < a ∧ 4 ∣ a ∧ a + size ≤ 2 ^ 32
  apart : ∀ {n bs size a}, pick n bs size = some a → ∀ b ∈ bs, Block.Apart ⟨a, size⟩ b

instance (b c : Block) : Decidable (b.Apart c) := by
  unfold Block.Apart
  infer_instance

/-- Call `n` gets a block at `place n`, or nothing where that is taken. -/
def Allocator.placed (place : ℕ → ℕ) : Allocator where
  pick n bs size :=
    if 0 < place n ∧ 4 ∣ place n ∧ place n + size ≤ 2 ^ 32 ∧ ∀ b ∈ bs, Block.Apart ⟨place n, size⟩ b then some (place n) else none
  inside := by
    intro n bs size a h
    split_ifs at h with hok
    obtain rfl := Option.some.inj h
    exact ⟨hok.1, hok.2.1, hok.2.2.1⟩
  apart := by
    intro n bs size a h
    split_ifs at h with hok
    obtain rfl := Option.some.inj h
    exact hok.2.2.2

/-- The blocks in use, the number of calls, and how often something else was given back. -/
structure Heap where
  live : List Block
  calls : ℕ
  strays : ℕ

namespace Heap

def empty : Heap := ⟨[], 0, 0⟩

/-- A call for `size` bytes; there is no block of 0 bytes. -/
def malloc (A : Allocator) (size : ℕ) (h : Heap) : Option ℕ × Heap :=
  match if size = 0 then none else A.pick h.calls h.live size with
  | some a => (some a, { h with live := ⟨a, size⟩ :: h.live, calls := h.calls + 1 })
  | none => (none, { h with calls := h.calls + 1 })

/-- The block at `a` is given back. -/
def free (a : ℕ) (h : Heap) : Heap :=
  if ∃ b ∈ h.live, b.addr = a then { h with live := h.live.filter fun b => b.addr ≠ a }
  else { h with strays := h.strays + 1 }

/-- The blocks at `xs` are given back, in this order. -/
def freeAll (xs : List ℕ) (h : Heap) : Heap := xs.foldl (fun h a => h.free a) h

/-- There is a block at `a`. -/
def At (h : Heap) (a : ℕ) : Prop := ∃ b ∈ h.live, b.addr = a

/-- The blocks in use lie in the memory, and apart. -/
structure Ok (h : Heap) : Prop where
  inside : ∀ b ∈ h.live, 0 < b.addr ∧ 0 < b.size ∧ 4 ∣ b.addr ∧ b.addr + b.size ≤ 2 ^ 32
  apart : h.live.Pairwise Block.Apart

variable {A : Allocator} {w : Heap} {a size : ℕ} {b c : Block}

instance : Std.Symm Block.Apart := ⟨fun _ _ h => h.elim .inr .inl⟩

theorem Ok.empty : empty.Ok := ⟨nofun, List.Pairwise.nil⟩

theorem Ok.ext (h : w.Ok) (hb : b ∈ w.live) (hc : c ∈ w.live) (heq : b.addr = c.addr) : b = c := by
  by_contra hne
  have hapart : Block.Apart b c := h.apart.forall hb hc hne
  have hbs := (h.inside b hb).2.1
  have hcs := (h.inside c hc).2.1
  rcases hapart with hle | hle <;> omega

theorem Ok.apart_of_ne (h : w.Ok) (hb : b ∈ w.live) (hc : c ∈ w.live) (hne : b.addr ≠ c.addr) : Block.Apart b c :=
  h.apart.forall hb hc fun heq => hne (congrArg Block.addr heq)

theorem Ok.nodup (h : w.Ok) : w.live.Nodup := by
  refine h.apart.imp_of_mem ?_
  rintro b c hb - happart rfl
  have hpos := (h.inside b hb).2.1
  rcases happart with hle | hle <;> omega

theorem malloc_cases (A : Allocator) (size : ℕ) (w : Heap) :
    (∃ a, (w.malloc A size).1 = some a ∧ 0 < size ∧ A.pick w.calls w.live size = some a ∧
      (w.malloc A size).2 = { w with live := ⟨a, size⟩ :: w.live, calls := w.calls + 1 }) ∨
    (w.malloc A size).1 = none ∧ (w.malloc A size).2 = { w with calls := w.calls + 1 } := by
  unfold malloc
  by_cases hs : size = 0
  · rw [if_pos hs]
    exact .inr ⟨rfl, rfl⟩
  · rw [if_neg hs]
    cases hp : A.pick w.calls w.live size with
    | none => exact .inr ⟨rfl, rfl⟩
    | some a => exact .inl ⟨a, rfl, pos_of_ne_zero hs, rfl, rfl⟩

theorem Ok.malloc (h : w.Ok) (hs : 0 < size) (hp : A.pick w.calls w.live size = some a) :
    Ok { w with live := ⟨a, size⟩ :: w.live, calls := w.calls + 1 } := by
  obtain ⟨hpos, hdvd, hle⟩ := A.inside hp
  exact ⟨forall_mem_cons.mpr ⟨⟨hpos, hs, hdvd, hle⟩, h.inside⟩, pairwise_cons.mpr ⟨A.apart hp, h.apart⟩⟩

theorem free_at (hat : w.At a) : w.free a = { w with live := w.live.filter fun b => b.addr ≠ a } := if_pos hat

theorem mem_free (hat : w.At a) : b ∈ (w.free a).live ↔ b ∈ w.live ∧ b.addr ≠ a := by
  rw [free_at hat]
  simp

theorem Ok.free (h : w.Ok) (a : ℕ) : (w.free a).Ok := by
  unfold Heap.free
  split_ifs
  · exact ⟨fun b hb => h.inside b (mem_of_mem_filter hb), h.apart.sublist (filter_sublist ..)⟩
  · exact ⟨h.inside, h.apart⟩

theorem Ok.free_malloc (h : w.Ok) (hs : 0 < size) (hp : A.pick w.calls w.live size = some a) (n : ℕ) :
    let w' := Heap.free a { w with live := ⟨a, size⟩ :: w.live, calls := n }
    w'.Ok ∧ (∀ b, b ∈ w'.live ↔ b ∈ w.live) ∧ w'.strays = w.strays := by
  have hok := h.malloc hs hp
  have hok' : Ok { w with live := ⟨a, size⟩ :: w.live, calls := n } := ⟨hok.inside, hok.apart⟩
  have hat : At { w with live := ⟨a, size⟩ :: w.live, calls := n } a := ⟨_, mem_cons_self, rfl⟩
  refine ⟨hok'.free a, fun b => ?_, by rw [free_at hat]⟩
  rw [mem_free hat, mem_cons]
  constructor
  · rintro ⟨rfl | hb, hne⟩
    · exact absurd rfl hne
    · exact hb
  · intro hb
    refine ⟨.inr hb, ?_⟩
    rintro rfl
    have hbpos := (h.inside b hb).2.1
    rcases A.apart hp b hb with hle | hle <;> dsimp only at hle <;> omega

theorem freeAll_append (xs ys : List ℕ) (w : Heap) : w.freeAll (xs ++ ys) = (w.freeAll xs).freeAll ys := foldl_append

theorem Ok.freeAll (xs : List ℕ) (h : w.Ok) : (w.freeAll xs).Ok := by
  induction xs generalizing w with
  | nil => exact h
  | cons x xs ih => exact ih (h.free x)

theorem freeAll_spec {xs : List ℕ} (hat : ∀ x ∈ xs, w.At x) (hnodup : xs.Nodup) :
    (∀ b, b ∈ (w.freeAll xs).live ↔ b ∈ w.live ∧ b.addr ∉ xs) ∧ (w.freeAll xs).strays = w.strays := by
  induction xs generalizing w with
  | nil => simp [freeAll]
  | cons x xs ih =>
    obtain ⟨hx, hrest⟩ := forall_mem_cons.mp hat
    obtain ⟨hnot, hxs⟩ := nodup_cons.mp hnodup
    have hat' : ∀ y ∈ xs, (w.free x).At y := by
      intro y hy
      obtain ⟨b, hb, rfl⟩ := hrest y hy
      refine ⟨b, (mem_free hx).mpr ⟨hb, ?_⟩, rfl⟩
      rintro rfl
      exact hnot hy
    obtain ⟨hlive, hstrays⟩ := ih hat' hxs
    constructor
    · intro b
      calc b ∈ (w.freeAll (x :: xs)).live ↔ b ∈ (w.free x).live ∧ b.addr ∉ xs := hlive b
        _ ↔ (b ∈ w.live ∧ b.addr ≠ x) ∧ b.addr ∉ xs := by rw [mem_free hx]
        _ ↔ b ∈ w.live ∧ b.addr ∉ x :: xs := by rw [mem_cons, not_or, and_assoc]
    · exact hstrays.trans (by rw [free_at hx])

theorem Ok.nodup_addr (h : w.Ok) : (w.live.map Block.addr).Nodup := h.nodup.map_on fun _ hb _ hc heq => h.ext hb hc heq

/-- **Blocks of one's own**, given back in this order, leave those of the others. -/
theorem Ok.freeAll_own {mine others : List Block} (h : w.Ok) (hlive : w.live.Perm (mine ++ others)) :
    (∀ b, b ∈ (w.freeAll (mine.map Block.addr)).live ↔ b ∈ others) ∧ (w.freeAll (mine.map Block.addr)).strays = w.strays := by
  have hperm := (hlive.map Block.addr).nodup_iff.mp h.nodup_addr
  rw [map_append] at hperm
  obtain ⟨hown, -, hother⟩ := nodup_append.mp hperm
  have hat : ∀ a ∈ mine.map Block.addr, w.At a := by
    intro a ha
    obtain ⟨b, hb, rfl⟩ := mem_map.mp ha
    exact ⟨b, hlive.mem_iff.mpr (mem_append_left _ hb), rfl⟩
  obtain ⟨hmem, hstrays⟩ := freeAll_spec hat hown
  refine ⟨fun b => ?_, hstrays⟩
  rw [hmem, hlive.mem_iff, mem_append]
  constructor
  · rintro ⟨hb | hb, hnot⟩
    · exact absurd (mem_map_of_mem hb) hnot
    · exact hb
  · intro hb
    exact ⟨.inr hb, fun ha => hother _ ha _ (mem_map_of_mem hb) rfl⟩

/-! ### An address inside a block -/

/-- The block that the address `p` is in is given back. -/
def freeIn (p : ℕ) (h : Heap) : Heap :=
  if ∃ b ∈ h.live, b.addr ≤ p ∧ p < b.addr + b.size then
    { h with live := h.live.filter fun b => ¬(b.addr ≤ p ∧ p < b.addr + b.size) }
  else { h with strays := h.strays + 1 }

theorem Ok.freeIn_eq (h : w.Ok) (hb : b ∈ w.live) {p : ℕ} (hp : b.addr ≤ p ∧ p < b.addr + b.size) : w.freeIn p = w.free b.addr := by
  have hin : ∀ c ∈ w.live, c.addr ≤ p ∧ p < c.addr + c.size ↔ c.addr = b.addr := by
    intro c hc
    constructor
    · intro hcp
      by_contra hne
      rcases h.apart_of_ne hc hb hne with hle | hle <;> omega
    · intro heq
      rw [h.ext hc hb heq]
      exact hp
  have hfilter : (w.live.filter fun c => ¬(c.addr ≤ p ∧ p < c.addr + c.size)) = w.live.filter fun c => c.addr ≠ b.addr :=
    filter_congr fun c hc => decide_eq_decide.mpr (not_congr (hin c hc))
  rw [free_at ⟨b, hb, rfl⟩, freeIn, if_pos ⟨b, hb, hp⟩, hfilter]

/-- Blocks that are given back by an address in each. -/
theorem Ok.foldl_freeIn : ∀ (xs : List (Block × ℕ)) {w : Heap}, w.Ok →
    (∀ x ∈ xs, x.1 ∈ w.live ∧ x.1.addr ≤ x.2 ∧ x.2 < x.1.addr + x.1.size) → (xs.map fun x => x.1.addr).Nodup →
    (xs.map Prod.snd).foldl (fun h p => h.freeIn p) w = w.freeAll (xs.map fun x => x.1.addr)
  | [], _, _, _, _ => rfl
  | x :: xs, w, h, hin, hnodup => by
    obtain ⟨⟨hmem, hp⟩, hrest⟩ := forall_mem_cons.mp hin
    obtain ⟨hnot, hxs⟩ := nodup_cons.mp hnodup
    have hkeep : ∀ y ∈ xs, y.1 ∈ (w.free x.1.addr).live ∧ y.1.addr ≤ y.2 ∧ y.2 < y.1.addr + y.1.size := by
      intro y hy
      obtain ⟨hlive, hyp⟩ := hrest y hy
      exact ⟨(mem_free ⟨_, hmem, rfl⟩).mpr ⟨hlive, fun heq => hnot (mem_map.mpr ⟨y, hy, heq⟩)⟩, hyp⟩
    have ih := foldl_freeIn xs (h.free x.1.addr) hkeep hxs
    rw [map_cons, foldl_cons, h.freeIn_eq hmem hp, ih]
    rfl

/-- The same for blocks of one's own, given back by an address in each. -/
theorem Ok.foldl_freeIn_own {xs : List (Block × ℕ)} {others : List Block} (h : w.Ok) (hlive : w.live.Perm (xs.map Prod.fst ++ others))
    (hin : ∀ x ∈ xs, x.1.addr ≤ x.2 ∧ x.2 < x.1.addr + x.1.size) :
    (∀ b, b ∈ ((xs.map Prod.snd).foldl (fun h p => h.freeIn p) w).live ↔ b ∈ others) ∧
      ((xs.map Prod.snd).foldl (fun h p => h.freeIn p) w).strays = w.strays := by
  have hperm := (hlive.map Block.addr).nodup_iff.mp h.nodup_addr
  rw [map_append, map_map] at hperm
  have hmem : ∀ x ∈ xs, x.1 ∈ w.live ∧ x.1.addr ≤ x.2 ∧ x.2 < x.1.addr + x.1.size := fun x hx =>
    ⟨hlive.mem_iff.mpr (mem_append_left _ (mem_map_of_mem hx)), hin x hx⟩
  have hown := h.freeAll_own hlive
  rw [map_map] at hown
  rw [Ok.foldl_freeIn xs h hmem (nodup_append.mp hperm).1]
  exact hown

/-! ### Calls one after another -/

/-- Whether calls for these sizes all succeed, up to the first that fails. -/
def mallocAll (A : Allocator) : List ℕ → Heap → Bool × Heap
  | [], h => (true, h)
  | n :: ns, h =>
    match h.malloc A n with
    | (some _, h) => mallocAll A ns h
    | (none, h) => (false, h)

variable {n : ℕ} {ns : List ℕ}

theorem mallocAll_none (h : (w.malloc A n).1 = none) : mallocAll A (n :: ns) w = (false, (w.malloc A n).2) := by
  rw [mallocAll, ← Prod.mk.eta (p := w.malloc A n), h]

theorem mallocAll_some (h : (w.malloc A n).1 = some a) :
    mallocAll A (n :: ns) w = mallocAll A ns (w.malloc A n).2 := by
  rw [mallocAll, ← Prod.mk.eta (p := w.malloc A n), h]

theorem mallocAll_append (A : Allocator) : ∀ (xs ys : List ℕ) (w : Heap),
    mallocAll A (xs ++ ys) w = if (mallocAll A xs w).1 then mallocAll A ys (mallocAll A xs w).2 else mallocAll A xs w
  | [], _, _ => rfl
  | x :: xs, ys, w => by
    have ih := mallocAll_append A xs ys (w.malloc A x).2
    rw [cons_append]
    cases h : (w.malloc A x).1 with
    | none =>
      rw [mallocAll_none h, mallocAll_none h]
      rfl
    | some a => rw [mallocAll_some h, mallocAll_some h, ih]

end Heap
end Malloc
