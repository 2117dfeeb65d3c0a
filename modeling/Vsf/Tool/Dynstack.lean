/-
# A stack in a dynamic array

`vsf_dynstack_push` puts an item behind the others in a dynamic array; `vsf_dynstack_get` counts
from the last one, and `vsf_dynstack_pop` moves the end back. The position is a `uint16_t`, so the
stack is a list as long as it is not deeper than 65536 (`dynstack_right`).
-/
import Mathlib
import Vsf.Tool.DynarrRun

namespace Vsf

open ByteMem Malloc List Option UInt32

/-- `struct vsf_dynstack_t`. -/
structure Dynstack where
  var : Dynarr
  sp : UInt32

namespace Dynstack

open Dynarr (Config)

inductive Err
  | none
  | fail
deriving DecidableEq

variable (c : Config) (A : Allocator) (s : Dynstack)

/-- `memcpy`. -/
def memcpy (m : Mem) (a : ℕ) (item : List UInt8) : Mem := fun i => if a ≤ i then (item[i - a]?).getD (m i) else m i

/-- `vsf_dynstack_get`, with the position in 16 bits. -/
def get (offset : UInt32) : Option ℕ :=
  if s.sp ≤ offset then none
  else
    let id : UInt16 := (s.sp - offset - 1).toUInt16
    s.var.get c id.toUInt32

/-- `vsf_dynstack_pop`. -/
def pop (num : UInt32) : Option ℕ × Dynstack :=
  if num ≤ s.sp ∧ 0 < num then (s.get c (num - 1), { s with sp := s.sp - num }) else (none, s)

/-- The loop of `vsf_dynstack_push`. -/
def pushLoop (item : List UInt8) : ℕ → Dynstack → Dynstack
  | 0, s => s
  | n + 1, s =>
    let dest := (s.get c (UInt32.ofNat (n + 1) - 1)).getD 0
    pushLoop item n { s with var := { s.var with mem := memcpy s.var.mem dest item } }

/-- `vsf_dynstack_push`, of the bytes at `item`. -/
def push (item : List UInt8) (num : UInt32) : Option (Err × Dynstack) :=
  (if s.var.length < s.sp + num then s.var.setSize c A (s.sp + num) else some (.none, s.var)).map fun r =>
    match r with
    | (.none, var) => (.none, pushLoop c item num.toNat { var, sp := s.sp + num })
    | (.notEnoughResources, var) => (.fail, { s with var })

end Dynstack

/-- The stack, and what is on it, the last item first. -/
structure DynstackUse where
  stack : Dynstack
  items : List (List UInt8)

namespace DynstackUse

open Dynarr (Config)

/-- An item is pushed, or some are popped. -/
inductive Op
  | push (item : List UInt8)
  | pop (num : UInt32)

variable (c : Config) (A : Allocator) (u : DynstackUse)

/-- What is left of an operation, and of a list when it is used as a stack. -/
def exec : Op → Option DynstackUse
  | .push item => (u.stack.push c A item 1).map fun r => ⟨r.2, if r.1 = .none then item :: u.items else u.items⟩
  | .pop num => some ⟨(u.stack.pop c num).2, if num.toNat ≤ u.items.length then u.items.drop num.toNat else u.items⟩

/-- `memcpy` copies an item as it is in the array. -/
def Legal : Op → Prop
  | .push item => item.length = c.stride.toNat
  | .pop _ => True

/-- All runs, with an allocator. -/
def system : System DynstackUse Op where
  start u := ∃ root m, 0 < root ∧ 4 ∣ root ∧ root + 4 ≤ 2 ^ 32 ∧ u = ⟨⟨Dynarr.init root m, 0⟩, []⟩
  step u op u' := Legal c op ∧ u.exec c A op = some u'

end DynstackUse

namespace Dynstack

open Dynarr (Config Good Inv Keeps item)

variable {c : Config} {A : Allocator} {s s' : Dynstack} {u u' : DynstackUse} {x : List UInt8} {xs : List (List UInt8)} {ts bs : List ℕ}

/-! ### Bytes -/

theorem holds_memcpy (m : Mem) (a : ℕ) (x : List UInt8) : Holds (memcpy m a x) a x := by
  intro i hi
  simp [memcpy, hi]

theorem memcpy_out {m : Mem} {a i : ℕ} (h : i < a ∨ a + x.length ≤ i) : memcpy m a x i = m i := by
  unfold memcpy
  split_ifs with hle
  · rw [getElem?_eq_none (by omega), getD_none]
  · rfl

theorem holds_congr {m m' : Mem} {a : ℕ} (h : Holds m a x) (hm : ∀ i, a ≤ i → i < a + x.length → m' i = m i) : Holds m' a x := by
  intro i hi
  rw [hm (a + i) (by omega) (by omega)]
  exact h i hi

/-! ### What is on the stack -/

/-- The items `xs` are in the array, the last one first. -/
structure Held (c : Config) (s : Dynstack) (xs : List (List UInt8)) : Prop where
  sp : s.sp.toNat = xs.length
  le : s.sp ≤ s.var.length
  size : ∀ x ∈ xs, x.length = c.stride.toNat
  held : ∀ pos x, xs.reverse[pos]? = some x → ∃ q, s.var.get c (UInt32.ofNat pos) = some q ∧ Holds s.var.mem q x

theorem get_eq (hdepth : s.sp.toNat ≤ 2 ^ 16) {offset : UInt32} (h : offset < s.sp) :
    s.get c offset = s.var.get c (UInt32.ofNat (s.sp.toNat - 1 - offset.toNat)) := by
  rw [lt_iff_toNat_lt] at h
  have hid : (s.sp - offset - 1).toUInt16.toUInt32 = UInt32.ofNat (s.sp.toNat - 1 - offset.toNat) := by
    apply UInt32.toNat_inj.mp
    have hsub : (s.sp - offset).toNat = s.sp.toNat - offset.toNat :=
      UInt32.toNat_sub_of_le _ _ (by rw [le_iff_toNat_le]; omega)
    have hone : (1 : UInt32) ≤ s.sp - offset := by
      rw [le_iff_toNat_le, hsub, show (1 : UInt32).toNat = 1 from rfl]
      omega
    rw [UInt16.toNat_toUInt32, toNat_toUInt16, UInt32.toNat_sub_of_le _ _ hone, hsub, toNat_ofNat',
      show (1 : UInt32).toNat = 1 from rfl]
    omega
  rw [get, if_neg (by rw [le_iff_toNat_le]; omega)]
  dsimp only
  rw [hid]

theorem Held.getElem (h : Held c s xs) {i : ℕ} (hi : i < xs.length) :
    ∃ q, s.var.get c (UInt32.ofNat (s.sp.toNat - 1 - i)) = some q ∧ Holds s.var.mem q xs[i] := by
  refine h.held _ _ ?_
  rw [h.sp, getElem?_reverse (by omega), show xs.length - 1 - (xs.length - 1 - i) = i by omega]
  exact getElem?_eq_getElem hi

theorem Held.keeps (h : Held c s xs) {v : Dynarr} (hkeeps : Keeps c s.var v) (hle : s.sp ≤ v.length) (hdepth : s.sp.toNat ≤ 2 ^ 16) :
    Held c { s with var := v } xs := by
  refine ⟨h.sp, hle, h.size, fun pos x hx => ?_⟩
  have hpos : pos < s.sp.toNat := by
    have hlt := (List.getElem?_eq_some_iff.mp hx).1
    rwa [length_reverse, ← h.sp] at hlt
  have hnat : (UInt32.ofNat pos).toNat = pos := by
    rw [toNat_ofNat']
    omega
  have hmem : x ∈ xs := mem_reverse.mp (mem_of_getElem? hx)
  have hsp := h.le
  rw [le_iff_toNat_le] at hsp hle
  obtain ⟨q, hq, hholds⟩ := h.held pos x hx
  obtain ⟨hget, hbytes⟩ := hkeeps (UInt32.ofNat pos) (by rw [lt_iff_toNat_lt, hnat]; omega) (by rw [lt_iff_toNat_lt, hnat]; omega)
  refine ⟨q, hget.trans hq, holds_congr hholds fun i hlo hhi => hbytes q hq i hlo ?_⟩
  rwa [h.size x hmem] at hhi

/-- **An item is written** behind the others. -/
theorem Held.put {v : Dynarr} {sp : UInt32} (h : Held c ⟨v, sp⟩ xs) (hgood : Good c v ts bs) (hfits : c.Fits) (hlt : sp < v.length)
    (hdepth : sp.toNat < 2 ^ 16) (hx : x.length = c.stride.toNat) : ∃ m, pushLoop c x 1 ⟨v, sp + 1⟩ = ⟨{ v with mem := m }, sp + 1⟩ ∧
      Good c { v with mem := m } ts bs ∧ Held c ⟨{ v with mem := m }, sp + 1⟩ (x :: xs) := by
  have hsucc : (sp + 1).toNat = sp.toNat + 1 := by
    rw [UInt32.toNat_add, show (1 : UInt32).toNat = 1 from rfl, Nat.mod_eq_of_lt (by omega)]
  have hget : ∀ pos : UInt32, pos < v.length → v.get c pos = some (item c bs pos.toNat) := fun pos hpos =>
    hgood.inv.get hfits hgood.le_mul.1 hpos
  have hplace : ∀ pos : UInt32, pos < v.length → pos.toNat < bs.length * c.perBuffer := fun pos hpos =>
    lt_of_lt_of_le (lt_iff_toNat_lt.mp hpos) hgood.le_mul.1
  have hdest : Dynstack.get c ⟨v, sp + 1⟩ 0 = some (item c bs sp.toNat) := by
    have hpos : (0 : UInt32) < sp + 1 := by
      rw [lt_iff_toNat_lt, hsucc]
      exact Nat.succ_pos _
    rw [get_eq (by show (sp + 1).toNat ≤ 2 ^ 16; omega) hpos]
    show v.get c (UInt32.ofNat ((sp + 1).toNat - 1 - (0 : UInt32).toNat)) = _
    rw [hsucc, UInt32.toNat_zero, Nat.sub_zero, Nat.add_sub_cancel, UInt32.ofNat_toNat]
    exact hget sp hlt
  obtain ⟨hfirst, hlast⟩ := Dynarr.item_inside hfits bs sp.toNat
  have hmem := Dynarr.buffer_mem (hplace sp hlt)
  let m := memcpy v.mem (item c bs sp.toNat) x
  have hinv : Inv c { v with mem := m } ts bs := hgood.inv.write hfits hmem fun a ha => memcpy_out (by omega)
  have hgood' : Good c { v with mem := m } ts bs := ⟨hinv, hgood.tight, hgood.buffers, hgood.length⟩
  have hget' : ∀ pos : UInt32, pos < v.length → Dynarr.get c { v with mem := m } pos = some (item c bs pos.toNat) := fun pos hpos =>
    hinv.get hfits hgood.le_mul.1 hpos
  refine ⟨m, ?_, hgood', ⟨?_, ?_, forall_mem_cons.mpr ⟨hx, h.size⟩, ?_⟩⟩
  · rw [pushLoop, pushLoop, show UInt32.ofNat (0 + 1) - 1 = 0 from rfl, hdest]
    rfl
  · show (sp + 1).toNat = (x :: xs).length
    rw [hsucc, length_cons, ← h.sp]
  · rw [lt_iff_toNat_lt] at hlt
    show sp + 1 ≤ v.length
    rw [le_iff_toNat_le, hsucc]
    exact hlt
  · intro pos y hy
    rw [reverse_cons] at hy
    rcases lt_or_ge pos xs.reverse.length with hold | hnew
    · rw [getElem?_append_left hold] at hy
      obtain ⟨q, hq, hholds⟩ := h.held pos y hy
      have hlen : pos < sp.toNat := by
        rw [length_reverse, ← h.sp] at hold
        exact hold
      have hnat : (UInt32.ofNat pos).toNat = pos := by
        rw [toNat_ofNat']
        omega
      have hpos : UInt32.ofNat pos < v.length := by
        rw [lt_iff_toNat_lt] at hlt ⊢
        omega
      have hsize := h.size y (mem_reverse.mp (mem_of_getElem? hy))
      have happart := hgood.inv.items_apart hfits (hplace _ hpos) (hplace sp hlt) (by omega)
      rw [hget _ hpos] at hq
      obtain rfl := some.inj hq
      exact ⟨_, hget' _ hpos, holds_congr hholds fun i hlo hhi => memcpy_out (by omega)⟩
    · have hpos : pos = sp.toNat := by
        have hlt := (List.getElem?_eq_some_iff.mp hy).1
        have hsp := h.sp
        rw [length_append, length_reverse, length_singleton] at hlt
        rw [length_reverse] at hnew
        dsimp only at hsp
        omega
      obtain rfl : y = x := by
        rw [getElem?_append_right hnew, hpos, length_reverse, ← h.sp, Nat.sub_self] at hy
        exact (some.inj hy).symm
      rw [hpos, UInt32.ofNat_toNat]
      exact ⟨_, hget' sp hlt, holds_memcpy v.mem _ y⟩

/-! ### Pushing and popping -/

/-- The array of a stack: one that can grow, or one that never does. -/
def Stored (c : Config) (v : Dynarr) : Prop := (c.Fits ∧ ∃ ts bs, Good c v ts bs) ∨ (c.Void ∧ Inv c v [] [] ∧ v.length = 0)

theorem Stored.init (hc : c.Fits ∨ c.Void) {root : ℕ} (hpos : 0 < root) (hdvd : 4 ∣ root) (hle : root + 4 ≤ 2 ^ 32) (m : Mem) :
    Stored c (Dynarr.init root m) := by
  have hinit := Inv.init c hpos hdvd hle m
  rcases hc with hfits | hvoid
  · exact .inl ⟨hfits, [], [], hinit.good rfl hfits.items⟩
  · exact .inr ⟨hvoid, hinit, rfl⟩

theorem Stored.bitlen {v : Dynarr} (h : Stored c v) : c.itemNumBitlen.toNat < 32 := h.elim (fun h => h.1.items) fun h => h.1.1

/-- **The array grows** by what is asked for, or keeps what it has. -/
theorem Stored.setSize {v : Dynarr} (h : Stored c v) {size : UInt32} (hlt : v.length < size) (hsize : size.toNat + c.perBuffer - 1 < 2 ^ 32) :
    ∃ e v', v.setSize c A size = some (e, v') ∧ Stored c v' ∧ Keeps c v v' ∧
      (e = .none ∧ v'.length = size ∧ (c.Fits ∧ ∃ ts bs, Good c v' ts bs) ∨ e = .notEnoughResources ∧ v.length ≤ v'.length) := by
  rcases h with ⟨hfits, ts, bs, hgood⟩ | ⟨hvoid, hinv, hlen⟩
  · rw [lt_iff_toNat_lt] at hlt
    have hone : ts.length ≤ c.tableNum ((size.toNat + c.perBuffer - 1) / c.perBuffer) + 1 := by
      rw [hgood.tight.tables hgood.inv.laid.room, hgood.buffers]
      refine (Nat.div_le_div_right ?_).trans (Nat.le_succ _)
      have hmono : (v.length.toNat + c.perBuffer - 1) / c.perBuffer ≤ (size.toNat + c.perBuffer - 1) / c.perBuffer :=
        Nat.div_le_div_right (by omega)
      omega
    obtain ⟨e, v', hset, ⟨hnone, hfail⟩, hgood', hkeeps⟩ := hgood.setSize (A := A) hfits hsize hone
    refine ⟨e, v', hset, .inl ⟨hfits, hgood'⟩, hkeeps, ?_⟩
    cases e with
    | none => exact .inl ⟨rfl, hnone rfl, hfits, hgood'⟩
    | notEnoughResources => exact .inr ⟨rfl, hfail rfl⟩
  · obtain ⟨e, v', hset, hnone, hinv', hlen'⟩ := hinv.setSize_void (A := A) hlen hvoid hsize
    refine ⟨e, v', hset, .inr ⟨hvoid, hinv', hlen'⟩, ?_, ?_⟩
    · intro pos hpos
      rw [hlen] at hpos
      exact absurd hpos UInt32.not_lt_zero
    · cases e with
      | none =>
        rw [← hnone rfl, hlen', hlen] at hlt
        exact absurd hlt UInt32.not_lt_zero
      | notEnoughResources => exact .inr ⟨rfl, by rw [hlen, hlen']; exact UInt32.le_refl _⟩

/-- There is room for another item, or it can not be had. -/
def Room (c : Config) (A : Allocator) (s : Dynstack) : Prop := s.sp.toNat < 2 ^ 16 ∨
  s.var.length < s.sp + 1 ∧ ∃ v, s.var.setSize c A (s.sp + 1) = some (.notEnoughResources, v)

/-- **An item is pushed**, or the stack is as it was. -/
theorem Held.push (h : Held c s xs) (hstored : Stored c s.var) (hdepth : xs.length ≤ 2 ^ 16) (hx : x.length = c.stride.toNat)
    (hroom : Room c A s) : ∃ e s', s.push c A x 1 = some (e, s') ∧ Stored c s'.var ∧
      (e = .none ∧ xs.length < 2 ^ 16 ∧ Held c s' (x :: xs) ∨ e = .fail ∧ s'.sp = s.sp ∧ Held c s' xs) := by
  have hsp := h.sp
  have hsucc : (s.sp + 1).toNat = s.sp.toNat + 1 := by
    rw [UInt32.toNat_add, show (1 : UInt32).toNat = 1 from rfl, Nat.mod_eq_of_lt (by omega)]
  unfold Dynstack.push
  by_cases hgrow : s.var.length < s.sp + 1
  · have hB : c.perBuffer ≤ 2 ^ 31 := Nat.pow_le_pow_right (by decide) (Nat.le_of_lt_succ hstored.bitlen)
    obtain ⟨e, v, hset, hstored', hkeeps, ⟨rfl, hlen, hfits, ts, bs, hgood⟩ | ⟨rfl, hle⟩⟩ :=
      hstored.setSize (A := A) hgrow (by rw [hsucc]; omega)
    · have hshallow : s.sp.toNat < 2 ^ 16 := by
        rcases hroom with hlt | ⟨-, v', hfail⟩
        · exact hlt
        · rw [hset] at hfail
          cases hfail
      have hle : s.sp ≤ v.length := by
        rw [hlen, le_iff_toNat_le, hsucc]
        exact Nat.le_succ _
      have hlt : s.sp < v.length := by
        rw [hlen, lt_iff_toNat_lt, hsucc]
        exact Nat.lt_succ_self _
      obtain ⟨m, hloop, hgood', hheld⟩ := (h.keeps hkeeps hle (by omega)).put hgood hfits hlt hshallow hx
      rw [if_pos hgrow, hset]
      exact ⟨.none, _, congrArg (fun s => some (Err.none, s)) hloop, .inl ⟨hfits, ts, bs, hgood'⟩, .inl ⟨rfl, by omega, hheld⟩⟩
    · rw [if_pos hgrow, hset]
      exact ⟨.fail, _, rfl, hstored', .inr ⟨rfl, rfl, h.keeps hkeeps (UInt32.le_trans h.le hle) (by omega)⟩⟩
  · have hlt : s.sp < s.var.length := by
      rw [lt_iff_toNat_lt] at hgrow ⊢
      omega
    have hshallow : s.sp.toNat < 2 ^ 16 := by
      rcases hroom with hlt | ⟨hlen, -⟩
      · exact hlt
      · exact absurd hlen hgrow
    rcases hstored with ⟨hfits, ts, bs, hgood⟩ | ⟨-, -, hlen⟩
    · obtain ⟨m, hloop, hgood', hheld⟩ := h.put hgood hfits hlt hshallow hx
      rw [if_neg hgrow]
      exact ⟨.none, _, congrArg (fun s => some (Err.none, s)) hloop, .inl ⟨hfits, ts, bs, hgood'⟩, .inl ⟨rfl, by omega, hheld⟩⟩
    · rw [hlen] at hlt
      exact absurd hlt UInt32.not_lt_zero

/-- **Items are popped**: the array stays. -/
theorem Held.pop (h : Held c s xs) (num : UInt32) : (s.pop c num).2.var = s.var ∧
    Held c (s.pop c num).2 (if num.toNat ≤ xs.length then xs.drop num.toNat else xs) := by
  unfold Dynstack.pop
  have hsp := h.sp
  split_ifs with hpop hle hle
  · obtain ⟨hnum, -⟩ := hpop
    have hsub := UInt32.toNat_sub_of_le _ _ hnum
    rw [le_iff_toNat_le] at hnum
    refine ⟨rfl, ?_, ?_, fun x hx => h.size x (mem_of_mem_drop hx), fun pos x hx => h.held pos x ?_⟩
    · rw [length_drop, ← hsp]
      exact hsub
    · have hold := h.le
      rw [le_iff_toNat_le] at hold ⊢
      dsimp only
      omega
    · rw [reverse_drop, getElem?_take] at hx
      split_ifs at hx
      exact hx
  · rw [le_iff_toNat_le] at hpop
    omega
  · have hzero : num.toNat = 0 := by
      rw [le_iff_toNat_le, lt_iff_toNat_lt] at hpop
      by_contra hne
      exact hpop ⟨by omega, pos_of_ne_zero hne⟩
    rw [hzero, drop_zero]
    exact ⟨rfl, h⟩
  · exact ⟨rfl, h⟩

/-! ### Runs -/

/-- No item is pushed on a stack of 65536, unless it can not be had. -/
def Shallow (c : Config) (A : Allocator) (u : DynstackUse) : DynstackUse.Op → Prop
  | .push _ => Room c A u.stack
  | .pop _ => True

/-- The stack is the list: its depth, where items are, what a pop gives, and a push ends. -/
structure Right (c : Config) (A : Allocator) (u : DynstackUse) : Prop where
  depth : u.stack.sp.toNat = u.items.length
  get : ∀ offset x, u.items[offset.toNat]? = some x → ∃ q, u.stack.get c offset = some q ∧ Holds u.stack.var.mem q x
  beyond : ∀ offset, u.items.length ≤ offset.toNat → u.stack.get c offset = none
  pop : ∀ num x, 0 < num → u.items[num.toNat - 1]? = some x →
    ∃ q, u.stack.pop c num = (some q, { u.stack with sp := u.stack.sp - num }) ∧ Holds u.stack.var.mem q x
  under : ∀ num, num = 0 ∨ u.items.length < num.toNat → u.stack.pop c num = (none, u.stack)
  push : ∀ x, x.length = c.stride.toNat → Room c A u.stack → ∃ e s, u.stack.push c A x 1 = some (e, s) ∧ (e = .fail → s.sp = u.stack.sp)

theorem Held.right (h : Held c u.stack u.items) (hstored : Stored c u.stack.var) (hdepth : u.items.length ≤ 2 ^ 16) : Right c A u := by
  have hsp := h.sp
  have hget : ∀ offset x, u.items[offset.toNat]? = some x → ∃ q, u.stack.get c offset = some q ∧ Holds u.stack.var.mem q x := by
    intro offset x hx
    obtain ⟨hlt, rfl⟩ := List.getElem?_eq_some_iff.mp hx
    rw [get_eq (by omega) (by rw [lt_iff_toNat_lt]; omega)]
    exact h.getElem hlt
  refine ⟨hsp, hget, ?_, ?_, ?_, ?_⟩
  · intro offset hle
    apply if_pos
    rw [le_iff_toNat_le]
    omega
  · intro num x hpos hx
    have hlt := (List.getElem?_eq_some_iff.mp hx).1
    have hnat : 0 < num.toNat := lt_iff_toNat_lt.mp hpos
    have hpred : (num - 1).toNat = num.toNat - 1 :=
      UInt32.toNat_sub_of_le _ _ (by rw [le_iff_toNat_le]; exact hnat)
    obtain ⟨q, hq, hholds⟩ := hget (num - 1) x (by rwa [hpred])
    refine ⟨q, ?_, hholds⟩
    rw [Dynstack.pop, if_pos ⟨by rw [le_iff_toNat_le]; omega, hpos⟩, hq]
  · intro num hnum
    apply if_neg
    rintro ⟨hle, hpos⟩
    rw [le_iff_toNat_le] at hle
    rw [lt_iff_toNat_lt] at hpos
    rcases hnum with rfl | hlt
    · exact lt_irrefl _ hpos
    · omega
  · intro x hx hroom
    obtain ⟨e, s, hpush, -, hcases⟩ := h.push hstored hdepth hx hroom
    refine ⟨e, s, hpush, ?_⟩
    rintro rfl
    rcases hcases with ⟨he, -⟩ | ⟨-, hsame, -⟩
    · cases he
    · exact hsame

theorem reach_held (hc : c.Fits ∨ c.Void) (hr : ((DynstackUse.system c A).restrict (Shallow c A)).Reach u) :
    Held c u.stack u.items ∧ Stored c u.stack.var ∧ u.items.length ≤ 2 ^ 16 := by
  refine hr.invariant (P := fun u => Held c u.stack u.items ∧ Stored c u.stack.var ∧ u.items.length ≤ 2 ^ 16) ?_ ?_
  · rintro _ ⟨root, m, hpos, hdvd, hle, rfl⟩
    exact ⟨⟨rfl, UInt32.le_refl _, nofun, nofun⟩, .init hc hpos hdvd hle m, Nat.zero_le _⟩
  · rintro u op u' - ⟨h, hstored, hdepth⟩ ⟨hshallow, hl, he⟩
    cases op with
    | push x =>
      obtain ⟨e, s, hpush, hstored', ⟨rfl, hlt, hheld⟩ | ⟨rfl, -, hheld⟩⟩ := h.push hstored hdepth hl hshallow
      · rw [DynstackUse.exec, hpush] at he
        obtain rfl := some.inj he
        exact ⟨hheld, hstored', hlt⟩
      · rw [DynstackUse.exec, hpush] at he
        obtain rfl := some.inj he
        exact ⟨hheld, hstored', hdepth⟩
    | pop num =>
      obtain rfl := some.inj he
      obtain ⟨hvar, hheld⟩ := h.pop num
      refine ⟨hheld, by rw [hvar]; exact hstored, ?_⟩
      dsimp only
      split_ifs
      · rw [length_drop]
        omega
      · exact hdepth

/-- **The dynamic stack** is a list, in every run that is shallow. -/
theorem dynstack_right (hc : c.Fits ∨ c.Void) (hr : ((DynstackUse.system c A).restrict (Shallow c A)).Reach u) : Right c A u := by
  obtain ⟨h, hstored, hdepth⟩ := reach_held hc hr
  exact h.right hstored hdepth

theorem dynstack_right_two : ∃ u u', DynstackUse.exec ⟨4, 1, 1⟩ (.placed fun n => 0x1000 * (n + 1)) ⟨⟨Dynarr.init 0x100 fun _ => 0xFF, 0⟩, []⟩
      (.push [1, 2, 3, 4]) = some u ∧ u.exec ⟨4, 1, 1⟩ (.placed fun n => 0x1000 * (n + 1)) (.push [5, 6, 7, 8]) = some u' ∧
    u'.items = [[5, 6, 7, 8], [1, 2, 3, 4]] ∧ Right ⟨4, 1, 1⟩ (.placed fun n => 0x1000 * (n + 1)) u' := by
  let c : Config := ⟨4, 1, 1⟩
  let A : Allocator := .placed fun n => 0x1000 * (n + 1)
  have h : ((DynstackUse.exec c A ⟨⟨Dynarr.init 0x100 fun _ => 0xFF, 0⟩, []⟩ (.push [1, 2, 3, 4])).bind fun u =>
      (u.exec c A (.push [5, 6, 7, 8])).map fun u' => (u.stack.sp, u'.items)) = some (1, [[5, 6, 7, 8], [1, 2, 3, 4]]) := by
    decide +kernel
  obtain ⟨u, hu, h⟩ := bind_eq_some_iff.mp h
  obtain ⟨u', hu', h⟩ := map_eq_some_iff.mp h
  obtain ⟨hsp, hitems⟩ := Prod.ext_iff.mp h
  have hstart : ((DynstackUse.system c A).restrict (Shallow c A)).Reach ⟨⟨Dynarr.init 0x100 fun _ => 0xFF, 0⟩, []⟩ :=
    .start ⟨_, _, by decide, by decide, by decide, rfl⟩
  have hlegal : ∀ x : List UInt8, x.length = 4 → DynstackUse.Legal c (.push x) := fun x hx => hx.trans (by decide)
  have hreach : ((DynstackUse.system c A).restrict (Shallow c A)).Reach u :=
    hstart.step (i := .push [1, 2, 3, 4]) ⟨.inl (by decide), hlegal _ rfl, hu⟩
  have hroom : u.stack.sp.toNat < 2 ^ 16 := by
    rw [show u.stack.sp = 1 from hsp]
    decide
  exact ⟨u, u', hu, hu', hitems, dynstack_right (.inl ⟨by decide, by decide, by decide, by decide⟩)
    (hreach.step (i := .push [5, 6, 7, 8]) ⟨.inl hroom, hlegal _ rfl, hu'⟩)⟩

/-! ### A deep stack -/

theorem Held.push_same (h : Held c s xs) (hgood : Good c s.var ts bs) (hfits : c.Fits) (hlen : s.var.length = s.sp)
    (hdepth : s.sp.toNat < 2 ^ 16) (hx : x.length = c.stride.toNat) (hsame : (s.sp.toNat + 1 + c.perBuffer - 1) / c.perBuffer = bs.length) :
    ∃ s', s.push c A x 1 = some (.none, s') ∧ Held c s' (x :: xs) ∧ Good c s'.var ts bs ∧ s'.var.length = s'.sp := by
  have hB : c.perBuffer ≤ 2 ^ 31 := Nat.pow_le_pow_right (by decide) (Nat.le_of_lt_succ hfits.items)
  have hsucc : (s.sp + 1).toNat = s.sp.toNat + 1 := by
    rw [UInt32.toNat_add, show (1 : UInt32).toNat = 1 from rfl, Nat.mod_eq_of_lt (by omega)]
  have hlt : s.sp < s.sp + 1 := by
    rw [lt_iff_toNat_lt, hsucc]
    exact Nat.lt_succ_self _
  obtain ⟨hset, hgood'⟩ : s.var.setSize c A (s.sp + 1) = some (.none, { s.var with length := s.sp + 1 }) ∧
      Good c { s.var with length := s.sp + 1 } ts bs :=
    hgood.setSize_same hfits (by rw [hsucc]; omega) (by rw [hsucc]; exact hsame)
  have hheld : Held c ⟨{ s.var with length := s.sp + 1 }, s.sp⟩ xs :=
    h.keeps (hgood.keeps hgood' hfits (fun _ _ _ => rfl) fun _ _ _ _ _ => rfl) (UInt32.le_of_lt hlt) (by omega)
  obtain ⟨m, hloop, hgood'', hheld'⟩ := hheld.put hgood' hfits hlt hdepth hx
  refine ⟨_, ?_, hheld', hgood'', rfl⟩
  rw [Dynstack.push, if_pos (by rw [hlen]; exact hlt), hset]
  exact congrArg (fun s => some (Err.none, s)) hloop

/-- The last and the first of 65537 items have the same place. -/
theorem get_wraps (v : Dynarr) : Dynstack.get c ⟨v, 0x10001⟩ 0 = v.get c 0 ∧ Dynstack.get c ⟨v, 0x10001⟩ 0x10000 = v.get c 0 := by
  constructor
  · have hid : ((0x10001 : UInt32) - 0 - 1).toUInt16.toUInt32 = 0 := by decide
    rw [Dynstack.get, if_neg (by show ¬(0x10001 : UInt32) ≤ 0; decide)]
    exact congrArg (v.get c) hid
  · have hid : ((0x10001 : UInt32) - 0x10000 - 1).toUInt16.toUInt32 = 0 := by decide
    rw [Dynstack.get, if_neg (by show ¬(0x10001 : UInt32) ≤ 0x10000; decide)]
    exact congrArg (v.get c) hid

/-- **The item after the 65536th** is written to where the first one is. -/
theorem Held.push_wraps (h : Held c s xs) (hgood : Good c s.var ts bs) (hfits : c.Fits) (hlen : s.var.length = s.sp)
    (hdepth : s.sp = 0x10000) (hx : x.length = c.stride.toNat) (hsame : (0x10001 + c.perBuffer - 1) / c.perBuffer = bs.length) :
    ∃ s' q, s.push c A x 1 = some (.none, s') ∧ s'.get c 0x10000 = some q ∧ Holds s'.var.mem q x := by
  have hB : c.perBuffer ≤ 2 ^ 31 := Nat.pow_le_pow_right (by decide) (Nat.le_of_lt_succ hfits.items)
  obtain ⟨v, sp⟩ := s
  obtain rfl : sp = 0x10000 := hdepth
  have hsize : (0x10001 : UInt32).toNat = 0x10001 := rfl
  obtain ⟨hset, hgood'⟩ : v.setSize c A 0x10001 = some (.none, { v with length := 0x10001 }) ∧ Good c { v with length := 0x10001 } ts bs :=
    hgood.setSize_same hfits (by rw [hsize]; omega) (by rw [hsize]; exact hsame)
  have hpos : (0 : UInt32) < 0x10001 := by decide
  have hget : Dynarr.get c { v with length := 0x10001 } 0 = some (item c bs (0 : UInt32).toNat) :=
    hgood'.inv.get hfits hgood'.le_mul.1 hpos
  obtain ⟨hfirst, hlast⟩ := Dynarr.item_inside hfits bs 0
  have hplace : 0 < bs.length * c.perBuffer := lt_of_lt_of_le (by decide : 0 < (0x10001 : UInt32).toNat) hgood'.le_mul.1
  let m := memcpy v.mem (item c bs 0) x
  have hinv : Inv c { v with length := 0x10001, mem := m } ts bs :=
    hgood'.inv.write hfits (Dynarr.buffer_mem hplace) fun a ha => memcpy_out (by omega)
  have hget' : Dynarr.get c { v with length := 0x10001, mem := m } 0 = some (item c bs (0 : UInt32).toNat) :=
    hinv.get hfits hgood'.le_mul.1 hpos
  rw [UInt32.toNat_zero] at hget hget'
  have hloop : pushLoop c x 1 ⟨{ v with length := 0x10001 }, 0x10001⟩ = ⟨{ v with length := 0x10001, mem := m }, 0x10001⟩ := by
    rw [pushLoop, pushLoop, show UInt32.ofNat (0 + 1) - 1 = 0 from rfl, (get_wraps _).1, hget]
    rfl
  refine ⟨⟨{ v with length := 0x10001, mem := m }, 0x10001⟩, item c bs 0, ?_, (get_wraps _).2.trans hget', holds_memcpy v.mem _ x⟩
  have hlt : v.length < 0x10001 := by
    rw [show v.length = 0x10000 from hlen]
    decide
  rw [Dynstack.push, show (0x10000 : UInt32) + 1 = 0x10001 from rfl, if_pos hlt, hset]
  exact congrArg (fun s => some (Err.none, s)) hloop

/-- **The stack is not a list** when deep, with items of one word in one buffer. -/
theorem too_deep : ¬∀ (c : Config) (A : Allocator) (u : DynstackUse), c.Fits → (DynstackUse.system c A).Reach u → Right c A u := by
  intro hall
  let c : Config := ⟨4, 17, 0⟩
  let A : Allocator := .placed fun n => 0x1000 + 0x1000000 * n
  let zero : List UInt8 := [0, 0, 0, 0]
  let start : DynstackUse := ⟨⟨Dynarr.init 0x100 fun _ => 0xFF, 0⟩, []⟩
  have hfits : c.Fits := ⟨by decide, by decide, by decide, by decide⟩
  have hlegal : DynstackUse.Legal c (.push zero) := by
    show zero.length = c.stride.toNat
    decide
  have hstart : (DynstackUse.system c A).Reach start := .start ⟨_, _, by decide, by decide, by decide, rfl⟩
  -- After the first item there is one buffer, which has room for all the others.
  have hdeep : ∀ n < 0x10000, ∃ u ts bs, (DynstackUse.system c A).Reach u ∧ u.items = List.replicate (n + 1) zero ∧ Held c u.stack u.items ∧
      Good c u.stack.var ts bs ∧ u.stack.var.length = u.stack.sp ∧ bs.length = 1 := by
    intro n hn
    induction n with
    | zero =>
      have h : (start.stack.push c A zero 1).map (fun r => (r.1, r.2.var.length, r.2.sp)) = some (.none, 1, 1) := by
        decide +kernel
      obtain ⟨⟨e, s'⟩, hpush, h⟩ := map_eq_some_iff.mp h
      obtain ⟨rfl, hlen, hsp⟩ : e = .none ∧ s'.var.length = 1 ∧ s'.sp = 1 := by simpa using h
      have hheld : Held c start.stack [] := ⟨rfl, UInt32.le_refl _, nofun, nofun⟩
      have hinit := (Inv.init c (by decide : 0 < 0x100) (by decide) (by decide) fun _ => 0xFF).good rfl hfits.items
      obtain ⟨e, s1, hpush', hstored, hcases⟩ := hheld.push (A := A) (.inl ⟨hfits, [], [], hinit⟩) (by decide) (x := zero) (by decide)
        (.inl (by decide))
      rw [hpush] at hpush'
      cases hpush'
      obtain ⟨-, -, hheld'⟩ | ⟨he, -⟩ := hcases
      · obtain ⟨-, ts, bs, hgood⟩ | ⟨-, -, hzero⟩ := hstored
        · refine ⟨⟨s', [zero]⟩, ts, bs, hstart.step (i := .push zero) ⟨hlegal, ?_⟩, rfl, hheld', hgood, hlen.trans hsp.symm, ?_⟩
          · rw [DynstackUse.exec, hpush]
            rfl
          · rw [hgood.buffers, hlen]
            exact Nat.div_eq_of_lt_le (by decide) (by decide)
        · rw [hlen] at hzero
          cases hzero
      · cases he
    | succ n ih =>
      obtain ⟨u, ts, bs, hreach, hitems, hheld, hgood, hlen, hone⟩ := ih (Nat.lt_of_succ_lt hn)
      have hsp : u.stack.sp.toNat = n + 1 := by
        rw [hheld.sp, hitems, length_replicate]
      obtain ⟨s', hpush, hheld', hgood', hlen'⟩ := hheld.push_same (A := A) (x := zero) hgood hfits hlen (by omega) (by decide) (by
        rw [hsp, hone]
        exact Nat.div_eq_of_lt_le (by show 1 * 131072 ≤ _ + 131072 - 1; omega) (by show _ + 131072 - 1 < 2 * 131072; omega))
      refine ⟨⟨s', zero :: u.items⟩, ts, bs, hreach.step (i := .push zero) ⟨hlegal, ?_⟩, ?_, hheld', hgood', hlen', hone⟩
      · rw [DynstackUse.exec, hpush]
        rfl
      · rw [hitems]
        rfl
  obtain ⟨u, ts, bs, hreach, hitems, hheld, hgood, hlen, hone⟩ := hdeep 0xFFFF (by decide)
  have hsp : u.stack.sp = 0x10000 := by
    apply UInt32.toNat_inj.mp
    rw [hheld.sp, hitems, length_replicate]
    rfl
  have hlegal' : DynstackUse.Legal c (.push [1, 0, 0, 0]) := by
    show [1, 0, 0, 0].length = c.stride.toNat
    decide
  obtain ⟨s', q, hpush, hget, hone⟩ := hheld.push_wraps (A := A) (x := [1, 0, 0, 0]) hgood hfits hlen hsp (by decide) (by
    rw [hone]
    exact Nat.div_eq_of_lt_le (by decide) (by decide))
  have hnext : (DynstackUse.system c A).Reach ⟨s', [1, 0, 0, 0] :: u.items⟩ := by
    refine hreach.step (i := .push [1, 0, 0, 0]) ⟨hlegal', ?_⟩
    rw [DynstackUse.exec, hpush]
    rfl
  have hfirst : ([1, 0, 0, 0] :: u.items)[(0x10000 : UInt32).toNat]? = some zero := by
    rw [show (0x10000 : UInt32).toNat = 0xFFFF + 1 from rfl, getElem?_cons_succ, hitems, getElem?_replicate, if_pos (by decide)]
  obtain ⟨q', hq', hzero⟩ := (hall c A _ hfits hnext).get 0x10000 zero hfirst
  obtain rfl : q = q' := some.inj (hget.symm.trans hq')
  have h1 := hone 0 (by decide)
  have h0 := hzero 0 (by decide)
  rw [h1] at h0
  cases h0

end Dynstack
end Vsf
