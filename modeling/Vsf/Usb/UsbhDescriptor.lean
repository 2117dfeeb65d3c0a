/-
# A descriptor behind another

`vsfusbh_get_extra_descriptor` goes from descriptor to descriptor until it comes to one of a type.
The type is looked at before the length, so one that is cut off by the end of the buffer is given as
found (`UsbhDescriptor.loop_spec`).
-/
import Mathlib
import Vsf.Lib.ByteMem
import Vsf.Lib.Loop

namespace Vsf
namespace UsbhDescriptor

open ByteMem List

/-- `buf` and `size`, and the addresses that were read. -/
structure Scan where
  buf : ℕ
  size : UInt16
  reads : List ℕ

/-- `*ptr` where it is `VSFERR_NONE`, and the addresses that were read. -/
structure Result where
  ptr : Option ℕ
  reads : List ℕ
deriving DecidableEq

/-- A turn of the loop. -/
def next (m : Mem) (type : UInt8) (s : Scan) : Result ⊕ Scan :=
  if 2 ≤ s.size.toNat then
    let bLength := m s.buf
    if bLength < 2 then .inl ⟨none, s.reads ++ [s.buf]⟩
    else
      let reads := s.reads ++ [s.buf, s.buf + 1]
      if m (s.buf + 1) = type then .inl ⟨some s.buf, reads⟩
      else if s.size.toNat < bLength.toNat then .inl ⟨none, reads⟩
      else .inr ⟨s.buf + bLength.toNat, s.size - bLength.toUInt16, reads⟩
  else .inl ⟨none, s.reads⟩

/-- `vsfusbh_get_extra_descriptor` returns; `ptr` if there is a place for what is found. -/
def Returns (m : Mem) (buf : Option ℕ) (size : UInt16) (type : UInt8) (ptr : Bool) (r : Result) : Prop :=
  match buf, ptr with
  | some buf, true => Loop.Ends (next m type) ⟨buf, size, []⟩ r
  | _, _ => r = ⟨none, []⟩

/-! ### What is asked of it -/

/-- There is a whole descriptor in the `n` bytes at `p`. -/
def Whole (m : Mem) (p n : ℕ) : Prop := 2 ≤ (m p).toNat ∧ (m p).toNat ≤ n

instance (m : Mem) (p n : ℕ) : Decidable (Whole m p n) := by
  unfold Whole
  infer_instance

/-- The chain of whole descriptors in the `n` bytes at `p`. -/
def chain (m : Mem) (p n : ℕ) : List ℕ :=
  if _h : Whole m p n then p :: chain m (p + (m p).toNat) (n - (m p).toNat) else []
termination_by n
decreasing_by
  obtain ⟨h2, hn⟩ := _h
  omega

/-- Where the chain ends, and what is left of the bytes there. -/
def stop (m : Mem) (p n : ℕ) : ℕ × ℕ :=
  if _h : Whole m p n then stop m (p + (m p).toNat) (n - (m p).toNat) else (p, n)
termination_by n
decreasing_by
  obtain ⟨h2, hn⟩ := _h
  omega

/-- The first whole descriptor of the type. -/
def first (m : Mem) (type : UInt8) (p n : ℕ) : Option ℕ := (chain m p n).find? fun d => m (d + 1) = type

/-- It returns, with the first whole descriptor of the type or none, and reads only `n` bytes at `p`. -/
def Right (m : Mem) (type : UInt8) (p n : ℕ) (returns : Result → Prop) : Prop :=
  ∃ r, returns r ∧ (∀ r', returns r' → r' = r) ∧ (∀ a ∈ r.reads, p ≤ a ∧ a < p + n) ∧ r.ptr = first m type p n

/-- The chain ends at a descriptor that is cut off, and is of the type. -/
def Cut (m : Mem) (type : UInt8) (p n : ℕ) : Prop :=
  let (q, left) := stop m p n
  2 ≤ left ∧ left < (m q).toNat ∧ m (q + 1) = type

instance (m : Mem) (type : UInt8) (p n : ℕ) : Decidable (Cut m type p n) := by
  unfold Cut
  infer_instance

/-- Where the chain ends at one cut off of the type, there is a whole one of it. -/
def Meets (m : Mem) (type : UInt8) (p n : ℕ) : Prop := Cut m type p n → ∃ d ∈ chain m p n, m (d + 1) = type

variable {m : Mem} {type : UInt8} {p n : ℕ}

theorem chain_whole (h : Whole m p n) : chain m p n = p :: chain m (p + (m p).toNat) (n - (m p).toNat) := by
  rw [chain, dif_pos h]

theorem chain_stop (h : ¬Whole m p n) : chain m p n = [] := by
  rw [chain, dif_neg h]

theorem cut_whole (h : Whole m p n) : Cut m type p n ↔ Cut m type (p + (m p).toNat) (n - (m p).toNat) := by
  rw [Cut, stop, dif_pos h]
  rfl

theorem cut_stop (h : ¬Whole m p n) : Cut m type p n ↔ 2 ≤ n ∧ n < (m p).toNat ∧ m (p + 1) = type := by
  rw [Cut, stop, dif_neg h]

/-! ### The loop -/

/-- What the loop finds: a whole descriptor, or the one that is cut off. -/
def found (m : Mem) (type : UInt8) (p n : ℕ) : Option ℕ :=
  match first m type p n with
  | some d => some d
  | none => if Cut m type p n then some (stop m p n).1 else none

theorem found_here (h : Whole m p n) (htype : m (p + 1) = type) : found m type p n = some p := by
  have hfirst : first m type p n = some p := by
    rw [first, chain_whole h, find?_cons_of_pos (by simpa using htype)]
  rw [found, hfirst]

theorem found_whole (h : Whole m p n) (htype : m (p + 1) ≠ type) :
    found m type p n = found m type (p + (m p).toNat) (n - (m p).toNat) := by
  have hfirst : first m type p n = first m type (p + (m p).toNat) (n - (m p).toNat) := by
    rw [first, chain_whole h, find?_cons_of_neg (by simpa using htype), first]
  have hstop : stop m p n = stop m (p + (m p).toNat) (n - (m p).toNat) := by
    rw [stop, dif_pos h]
  simp only [found, hfirst, cut_whole h, hstop]

theorem found_stop (h : ¬Whole m p n) :
    found m type p n = if 2 ≤ n ∧ n < (m p).toNat ∧ m (p + 1) = type then some p else none := by
  have hfirst : first m type p n = none := by
    rw [first, chain_stop h, find?_nil]
  have hstop : stop m p n = (p, n) := by
    rw [stop, dif_neg h]
  simp only [found, hfirst, cut_stop h, hstop]

/-- What is found is what is asked for, unless it is cut off. -/
theorem found_eq_iff : found m type p n = first m type p n ↔ Meets m type p n := by
  unfold found Meets
  cases hfirst : first m type p n with
  | some d =>
    have hmem := mem_of_find?_eq_some hfirst
    have htype := find?_some hfirst
    exact ⟨fun _ _ => ⟨d, hmem, of_decide_eq_true htype⟩, fun _ => rfl⟩
  | none =>
    have hnot : ¬∃ d ∈ chain m p n, m (d + 1) = type := by
      rintro ⟨d, hmem, htype⟩
      exact find?_eq_none.mp hfirst d hmem (decide_eq_true htype)
    dsimp only
    by_cases hcut : Cut m type p n
    · rw [if_pos hcut]
      exact ⟨nofun, fun hmeets => absurd (hmeets hcut) hnot⟩
    · rw [if_neg hcut]
      exact ⟨fun _ hc => absurd hc hcut, fun _ => rfl⟩

/-- **The loop** ends, and reads only the rest of the buffer, the induction's measure. -/
theorem loop_spec (m : Mem) (type : UInt8) (s : Scan) : ∃ reads,
    Loop.Ends (next m type) s ⟨found m type s.buf s.size.toNat, s.reads ++ reads⟩ ∧
      ∀ a ∈ reads, s.buf ≤ a ∧ a < s.buf + s.size.toNat := by
  induction hn : s.size.toNat using Nat.strong_induction_on generalizing s with
  | _ n ih =>
  subst hn
  by_cases hsize : 2 ≤ s.size.toNat
  · have hhere : ∀ a ∈ [s.buf, s.buf + 1], s.buf ≤ a ∧ a < s.buf + s.size.toNat := by
      intro a ha
      rcases mem_pair.mp ha with rfl | rfl <;> omega
    by_cases hlen : m s.buf < 2
    · -- malformed
      have hlt : (m s.buf).toNat < 2 := UInt8.lt_iff_toNat_lt.mp hlen
      have hnot : ¬Whole m s.buf s.size.toNat := fun h => absurd h.1 (by omega)
      refine ⟨[s.buf], ?_, fun a ha => hhere a (by rw [mem_singleton.mp ha]; exact mem_cons_self)⟩
      rw [found_stop hnot, if_neg (fun h => absurd h.2.1 (by omega))]
      refine (Loop.ends_inl ?_).mpr rfl
      unfold next
      rw [if_pos hsize]
      exact if_pos hlen
    · have hlen2 : 2 ≤ (m s.buf).toNat := not_lt.mp fun h => hlen (UInt8.lt_iff_toNat_lt.mpr h)
      by_cases htype : m (s.buf + 1) = type
      · -- of the type, whole or cut off
        refine ⟨[s.buf, s.buf + 1], ?_, hhere⟩
        have hfound : found m type s.buf s.size.toNat = some s.buf := by
          by_cases hfits : (m s.buf).toNat ≤ s.size.toNat
          · exact found_here ⟨hlen2, hfits⟩ htype
          · rw [found_stop fun h => hfits h.2, if_pos ⟨hsize, not_le.mp hfits, htype⟩]
        rw [hfound]
        refine (Loop.ends_inl ?_).mpr rfl
        unfold next
        rw [if_pos hsize]
        dsimp only
        rw [if_neg hlen, if_pos htype]
      · by_cases hfits : s.size.toNat < (m s.buf).toNat
        · -- cut off
          refine ⟨[s.buf, s.buf + 1], ?_, hhere⟩
          rw [found_stop fun h => absurd h.2 (by omega), if_neg fun h => htype h.2.2]
          refine (Loop.ends_inl ?_).mpr rfl
          unfold next
          rw [if_pos hsize]
          dsimp only
          rw [if_neg hlen, if_neg htype, if_pos hfits]
        · -- on to the next
          have hle : (m s.buf).toUInt16 ≤ s.size := UInt16.le_iff_toNat_le.mpr (by simpa using not_lt.mp hfits)
          have hleft : (s.size - (m s.buf).toUInt16).toNat = s.size.toNat - (m s.buf).toNat := by
            rw [UInt16.toNat_sub_of_le _ _ hle]
            simp
          have hnext : next m type s = .inr ⟨s.buf + (m s.buf).toNat, s.size - (m s.buf).toUInt16, s.reads ++ [s.buf, s.buf + 1]⟩ := by
            unfold next
            rw [if_pos hsize]
            dsimp only
            rw [if_neg hlen, if_neg htype, if_neg hfits]
          obtain ⟨reads, hends, hin⟩ := ih (s.size - (m s.buf).toUInt16).toNat (by omega)
            ⟨s.buf + (m s.buf).toNat, s.size - (m s.buf).toUInt16, s.reads ++ [s.buf, s.buf + 1]⟩ rfl
          refine ⟨[s.buf, s.buf + 1] ++ reads, (Loop.ends_inr hnext).mpr ?_, fun a ha => ?_⟩
          · rw [found_whole ⟨hlen2, not_lt.mp hfits⟩ htype, ← hleft, ← append_assoc]
            exact hends
          · rcases mem_append.mp ha with ha | ha
            · exact hhere a ha
            · obtain ⟨hle', hlt'⟩ := hin a ha
              dsimp only at hle' hlt'
              rw [hleft] at hlt'
              omega
  · refine ⟨[], ?_, nofun⟩
    have hnot : ¬Whole m s.buf s.size.toNat := fun h => absurd (h.1.trans h.2) hsize
    have hnext : next m type s = .inl ⟨none, s.reads⟩ := if_neg hsize
    rw [found_stop hnot, if_neg fun h => hsize h.1, append_nil]
    exact (Loop.ends_inl hnext).mpr rfl

/-- **A descriptor behind another** is right just when the chain does not end at one cut off of the type,
with no whole one before. -/
theorem getExtraDescriptor_iff (m : Mem) (type : UInt8) (p : ℕ) (size : UInt16) :
    Right m type p size.toNat (Returns m (some p) size type true) ↔ Meets m type p size.toNat := by
  obtain ⟨reads, hends, hin⟩ := loop_spec m type ⟨p, size, []⟩
  rw [← found_eq_iff]
  constructor
  · rintro ⟨r, hr, -, -, hptr⟩
    obtain rfl := hends.unique hr
    exact hptr
  · intro hfound
    exact ⟨_, hends, fun r' hr' => Loop.Ends.unique hr' hends, hin, hfound⟩

/-- Four bytes of a HID descriptor. -/
def short : Mem := fun a => [9, 0x21, 0x11, 1].getD a 0

theorem getExtraDescriptor_short : ¬∀ (m : Mem) (type : UInt8) (p : ℕ) (size : UInt16),
    Right m type p size.toNat (Returns m (some p) size type true) := by
  intro hall
  obtain ⟨r, hr, -, -, hptr⟩ := hall short 0x21 0 4
  have hends : Returns short (some 0) 4 0x21 true ⟨some 0, [0, 1]⟩ := ⟨1, rfl⟩
  have hnone : first short 0x21 0 4 = none := by
    rw [first, chain_stop (by decide), find?_nil]
  obtain rfl := Loop.Ends.unique hr hends
  rw [show ((4 : UInt16).toNat) = 4 from rfl, hnone] at hptr
  cases hptr

end UsbhDescriptor
end Vsf
