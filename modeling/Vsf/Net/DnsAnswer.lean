/-
# Answers from a name server

`vsfip_dns_decode_ans` goes over the questions and then over the answers, up to an address of 4
bytes. It looks at `dsize` in front of what it reads of a record, but not in front of a name, nor
behind one, and it does not skip the data of an address of another length. When it stays in the
message is `decode_inside_iff`.
-/
import Mathlib
import Vsf.Net.Dns

namespace Vsf

open ByteMem CStr Arp Receive Vsf.Frame Option

namespace Dns

/-! ### The functions -/

/-- `VSFERR_NONE` and `VSFERR_FAIL`. -/
inductive Err
  | none
  | fail
deriving DecidableEq

/-- `struct vsfip_ipaddr_t`. -/
structure IpAddr where
  size : UInt32
  addr : UInt32
deriving DecidableEq

/-- `pdat`, as an offset, and `dsize`; and whether `dsize` went below 0. -/
structure Scan where
  pdat : ℕ
  dsize : UInt16
  wrapped : Bool
deriving DecidableEq

/-- `pdat += n` and `dsize -= n`. -/
def Scan.skip (s : Scan) (n : ℕ) : Scan := ⟨s.pdat + n, s.dsize - UInt16.ofNat n, s.wrapped || decide (s.dsize.toNat < n)⟩

/-- `struct vsfip_dns_response_t`, as far as it is read. -/
structure Response where
  type : UInt16
  classtype : UInt16
  len : UInt16

/-- The fields of a record behind its name, if they are in the message. -/
def response (m : Mem) (size : UInt16) (p : ℕ) : Option Response :=
  if p + 10 ≤ size.toNat then some ⟨be16 m p, be16 m (p + 2), be16 m (p + 8)⟩ else none

def word (m : Mem) (size : UInt16) (p : ℕ) : Option UInt32 :=
  if p + 4 ≤ size.toNat then some (UInt32.ofNat (load32 m p)) else none

/-- What is returned, `*domainip`, and where it ended. -/
structure Decoded where
  err : Err
  ip : IpAddr
  last : Scan
deriving DecidableEq

/-- The loop over the questions. -/
def questions (m : Mem) (size : UInt16) : ℕ → Scan → Option (Err × Scan)
  | 0, s => some (.none, s)
  | n + 1, s =>
    (parseName m size s.pdat).bind fun nsize =>
      if s.dsize.toNat < nsize.toNat + 4 then some (.fail, s) else questions m size n (s.skip (nsize.toNat + 4))

/-- An answer behind its name; `next` is what is done at the next one. -/
def answer (m : Mem) (size : UInt16) (next : Scan → IpAddr → Option Decoded) (s : Scan) (ip : IpAddr) : Option Decoded :=
  if s.dsize < 10 then some ⟨.fail, ip, s⟩
  else
    (response m size s.pdat).bind fun atype =>
      if atype.classtype ≠ 1 ∨ atype.type ≠ 1 then
        let nsize := 10 + atype.len
        if s.dsize < nsize then some ⟨.fail, ip, s⟩ else next (s.skip nsize.toNat) ip
      else
        let ip := { ip with size := atype.len.toUInt32 }
        if s.dsize.toNat < 10 + atype.len.toNat then some ⟨.fail, ip, s⟩
        else
          let s := { s with pdat := s.pdat + 10 }
          if ip.size = 4 then (word m size s.pdat).map fun addr => ⟨.none, { ip with addr }, s⟩
          else next s ip

/-- The loop over the answers. -/
def answers (m : Mem) (size : UInt16) : ℕ → Scan → IpAddr → Option Decoded
  | 0, s, ip => some ⟨.fail, ip, s⟩
  | n + 1, s, ip => (parseName m size s.pdat).bind fun nsize => answer m size (answers m size n) (s.skip nsize.toNat) ip

/-- After the questions. -/
def afterQuestions (m : Mem) (size ac : UInt16) (ip : IpAddr) : Err × Scan → Option Decoded
  | (.fail, s) => some ⟨.fail, ip, s⟩
  | (.none, s) => answers m size ac.toNat s ip

/-- `vsfip_dns_decode_ans`; no result where it reads outside of the message. -/
def decodeAns (m : Mem) (size id : UInt16) (ip : IpAddr) : Option Decoded :=
  if size < 12 ∨ le16 m 0 ≠ id then some ⟨.fail, ip, ⟨0, size, false⟩⟩
  else
    let qc := be16 m 4
    let ac := be16 m 6
    (questions m size qc.toNat ⟨12, size - 12, false⟩).bind (afterQuestions m size ac ip)

/-! ### Where it stays inside -/

/-- It reads nothing outside, `dsize` stays above 0, and `pdat` inside. -/
def Bounded (size : UInt16) (r : Option Decoded) : Prop := ∃ d, r = some d ∧ d.last.wrapped = false ∧ d.last.pdat ≤ size.toNat

/-- A record behind its name: class IN, type A. -/
def IsA (m : Mem) (q : ℕ) : Prop := be16 m (q + 2) = 1 ∧ be16 m q = 1

instance (m : Mem) (q : ℕ) : Decidable (IsA m q) := inferInstanceAs (Decidable (_ ∧ _))

/-- An answer behind its name, at `q`, `k` bytes counted too many: its fields are inside, and so is its
address, or what is behind its data. Behind an address of another length it goes on in the data, 10 more
counted. -/
def AnswerInside (m : Mem) (size : UInt16) (next : ℕ → ℕ → Prop) (q k : ℕ) : Prop :=
  q + 10 ≤ size.toNat + k → q + 10 ≤ size.toNat ∧
    if IsA m q then
      q + 10 + (be16 m (q + 8)).toNat ≤ size.toNat + k → if be16 m (q + 8) = 4 then q + 14 ≤ size.toNat else next (q + 10) (k + 10)
    else q + (10 + be16 m (q + 8)).toNat ≤ size.toNat + k → next (q + (10 + be16 m (q + 8)).toNat) k

/-- The answers from `p` on: the name of each one ends in the message. -/
def AnswersInside (m : Mem) (size : UInt16) : ℕ → ℕ → ℕ → Prop
  | 0, p, _ => p ≤ size.toNat
  | n + 1, p, k => ∃ q, NameSpan m size p q ∧ q ≤ size.toNat ∧ AnswerInside m size (AnswersInside m size n) q k

/-- And the names of the questions in front of the answers. -/
def QuestionsInside (m : Mem) (size ac : UInt16) : ℕ → ℕ → Prop
  | 0, p => AnswersInside m size ac.toNat p 0
  | n + 1, p => ∃ q, NameSpan m size p q ∧ (q + 4 ≤ size.toNat → QuestionsInside m size ac n (q + 4))

def Inside (m : Mem) (size id : UInt16) : Prop :=
  size < 12 ∨ le16 m 0 ≠ id ∨ QuestionsInside m size (be16 m 6) (be16 m 4).toNat 12

variable {m : Mem} {size : UInt16} {n p q k : ℕ} {s : Scan} {ip : IpAddr}

theorem NameSpan.le (h : NameSpan m size p q) : q ≤ size.toNat + 1 := by
  induction h with
  | pointer hp _ => omega
  | last hp _ _ => omega
  | label _ _ _ _ ih => exact ih

theorem parseName_skip (h : NameSpan m size p q) (hp : 1 ≤ p) : ∃ nsize : UInt16, parseName m size p = some nsize ∧ nsize.toNat = q - p := by
  have hle := h.le
  have hsize := size.toNat_lt
  refine ⟨_, parseName_span h, ?_⟩
  rw [UInt16.toNat_ofNat']
  omega

theorem skip_dsize {x : ℕ} (h : x ≤ s.dsize.toNat) : (s.skip x).dsize.toNat = s.dsize.toNat - x := by
  have hlt := s.dsize.toNat_lt
  have hx : (UInt16.ofNat x).toNat = x := by
    rw [UInt16.toNat_ofNat']
    omega
  show (s.dsize - UInt16.ofNat x).toNat = _
  rw [UInt16.toNat_sub_of_le _ _ (by rw [UInt16.le_iff_toNat_le, hx]; exact h), hx]

theorem skip_wrapped {x : ℕ} (h : x ≤ s.dsize.toNat) : (s.skip x).wrapped = s.wrapped := by
  show (s.wrapped || decide (s.dsize.toNat < x)) = s.wrapped
  rw [decide_eq_false (not_lt.mpr h), Bool.or_false]

theorem bounded_some {d : Decoded} : Bounded size (some d) ↔ d.last.wrapped = false ∧ d.last.pdat ≤ size.toNat := by
  constructor
  · rintro ⟨d', hd, h⟩
    rw [some.inj hd]
    exact h
  · intro h
    exact ⟨d, rfl, h⟩

theorem not_bounded_none : ¬ Bounded size none := by
  rintro ⟨d, hd, -⟩
  cases hd

theorem toUInt32_eq_four {len : UInt16} : len.toUInt32 = 4 ↔ len = 4 := by
  rw [← UInt32.toNat_inj, ← UInt16.toNat_inj, UInt16.toNat_toUInt32]
  rfl

/-- The count of the bytes that are left, with `k` more. -/
structure Counts (size : UInt16) (s : Scan) (k : ℕ) : Prop where
  sum : s.dsize.toNat + s.pdat = size.toNat + k
  le : k ≤ s.pdat
  pos : 1 ≤ s.pdat
  wrapped : s.wrapped = false

theorem Counts.skip (h : Counts size s k) {x : ℕ} (hx : x ≤ s.dsize.toNat) : Counts size (s.skip x) k := by
  have hsum := h.sum
  have hle := h.le
  have hpos := h.pos
  have hpdat : (s.skip x).pdat = s.pdat + x := rfl
  have hdsize := skip_dsize hx
  exact ⟨by omega, by omega, by omega, (skip_wrapped hx).trans h.wrapped⟩

/-- **An answer behind its name** stays inside exactly if it and the next do. -/
theorem answer_inside {next : Scan → IpAddr → Option Decoded} {P : ℕ → ℕ → Prop} (h : Counts size s k) (hin : s.pdat ≤ size.toNat)
    (hnext : ∀ s ip k, Counts size s k → (Bounded size (next s ip) ↔ P s.pdat k)) :
    Bounded size (answer m size next s ip) ↔ AnswerInside m size P s.pdat k := by
  have hsum := h.sum
  have hfew : s.dsize < 10 ↔ ¬ s.pdat + 10 ≤ size.toNat + k := by
    rw [UInt16.lt_iff_toNat_lt]
    simp only [UInt16.reduceToNat]
    omega
  have hstop : ∀ ip, Bounded size (some ⟨.fail, ip, s⟩) := fun ip => bounded_some.mpr ⟨h.wrapped, hin⟩
  unfold answer AnswerInside
  by_cases h10 : s.pdat + 10 ≤ size.toNat + k
  · rw [if_neg (fun h => hfew.mp h h10), imp_iff_right h10, response]
    by_cases hfields : s.pdat + 10 ≤ size.toNat
    · rw [if_pos hfields, and_iff_right hfields, bind_some]
      dsimp only
      by_cases hA : IsA m s.pdat
      · rw [if_neg (by rw [hA.1, hA.2]; decide), if_pos hA]
        by_cases hdata : s.pdat + 10 + (be16 m (s.pdat + 8)).toNat ≤ size.toNat + k
        · rw [if_neg (by omega), imp_iff_right hdata]
          by_cases h4 : be16 m (s.pdat + 8) = 4
          · rw [if_pos (toUInt32_eq_four.mpr h4), if_pos h4, word]
            by_cases haddr : s.pdat + 14 ≤ size.toNat
            · rw [if_pos haddr, map_some, bounded_some]
              exact iff_of_true ⟨h.wrapped, hfields⟩ haddr
            · rw [if_neg haddr, map_none]
              exact iff_of_false not_bounded_none haddr
          · rw [if_neg (fun h => h4 (toUInt32_eq_four.mp h)), if_neg h4]
            have hle := h.le
            exact hnext _ _ _ ⟨by dsimp only; omega, by dsimp only; omega, by dsimp only; omega, h.wrapped⟩
        · rw [if_pos (by omega)]
          exact iff_of_true (hstop _) fun h => absurd h hdata
      · rw [if_pos (by unfold IsA at hA; tauto), if_neg hA]
        have hlt : s.dsize < 10 + be16 m (s.pdat + 8) ↔ ¬ s.pdat + (10 + be16 m (s.pdat + 8)).toNat ≤ size.toNat + k := by
          rw [UInt16.lt_iff_toNat_lt]
          omega
        by_cases hdata : s.pdat + (10 + be16 m (s.pdat + 8)).toNat ≤ size.toNat + k
        · rw [if_neg (fun h => hlt.mp h hdata), imp_iff_right hdata]
          exact hnext _ _ _ (h.skip (by omega))
        · rw [if_pos (hlt.mpr hdata)]
          exact iff_of_true (hstop _) fun h => absurd h hdata
    · rw [if_neg hfields, bind_none]
      exact iff_of_false not_bounded_none fun h => hfields h.1
  · rw [if_pos (hfew.mpr h10)]
    exact iff_of_true (hstop _) fun h => absurd h h10

theorem answer_outside (next : Scan → IpAddr → Option Decoded) (ip : IpAddr) (hout : ¬ s.pdat ≤ size.toNat) :
    ¬ Bounded size (answer m size next s ip) := by
  have hresp : response m size s.pdat = none := if_neg (by omega)
  unfold answer
  rw [hresp, bind_none]
  split_ifs
  · rw [bounded_some]
    exact fun h => hout h.2
  · exact not_bounded_none

/-- **The loop over the answers** stays inside exactly if they are. -/
theorem answers_inside (h : Counts size s k) (ip : IpAddr) : Bounded size (answers m size n s ip) ↔ AnswersInside m size n s.pdat k := by
  induction n generalizing s ip k with
  | zero =>
    rw [answers, bounded_some]
    exact and_iff_right h.wrapped
  | succ n ih =>
    rw [answers]
    by_cases hname : ∃ q, NameSpan m size s.pdat q
    · obtain ⟨q, hq⟩ := hname
      obtain ⟨nsize, hparse, hnsize⟩ := parseName_skip hq h.pos
      have hpq := hq.lt
      have hsum := h.sum
      have hpdat : (s.skip nsize.toNat).pdat = q := by
        show s.pdat + nsize.toNat = q
        omega
      rw [hparse, bind_some]
      by_cases hin : q ≤ size.toNat
      · rw [answer_inside (h.skip (by omega)) (by rw [hpdat]; exact hin) fun s ip k h => ih h ip, hpdat]
        constructor
        · exact fun hrest => ⟨q, hq, hin, hrest⟩
        · rintro ⟨q', hq', -, hrest⟩
          rw [hq.unique hq']
          exact hrest
      · refine iff_of_false (answer_outside _ ip (by rw [hpdat]; exact hin)) ?_
        rintro ⟨q', hq', hin', -⟩
        rw [hq.unique hq'] at hin
        exact hin hin'
    · rw [parseName_none (fun q hq => hname ⟨q, hq⟩), bind_none]
      refine iff_of_false not_bounded_none ?_
      rintro ⟨q, hq, -⟩
      exact hname ⟨q, hq⟩

/-- **The loop over the questions**, and what comes behind it. -/
theorem questions_inside (h : Counts size s 0) (ac : UInt16) (ip : IpAddr) :
    Bounded size ((questions m size n s).bind (afterQuestions m size ac ip)) ↔ QuestionsInside m size ac n s.pdat := by
  induction n generalizing s with
  | zero => exact answers_inside h ip
  | succ n ih =>
    rw [questions]
    by_cases hname : ∃ q, NameSpan m size s.pdat q
    · obtain ⟨q, hq⟩ := hname
      obtain ⟨nsize, hparse, hnsize⟩ := parseName_skip hq h.pos
      have hpq := hq.lt
      have hsum := h.sum
      have hinside : QuestionsInside m size ac (n + 1) s.pdat ↔ (q + 4 ≤ size.toNat → QuestionsInside m size ac n (q + 4)) := by
        constructor
        · rintro ⟨q', hq', hrest⟩
          rw [hq.unique hq']
          exact hrest
        · exact fun hrest => ⟨q, hq, hrest⟩
      rw [hparse, bind_some, hinside]
      by_cases hroom : q + 4 ≤ size.toNat
      · have hpdat : (s.skip (nsize.toNat + 4)).pdat = q + 4 := by
          show s.pdat + (nsize.toNat + 4) = q + 4
          omega
        rw [if_neg (by omega), imp_iff_right hroom, ← hpdat]
        exact ih (h.skip (by omega))
      · rw [if_pos (by omega), bind_some]
        refine iff_of_true ?_ fun h => absurd h hroom
        exact bounded_some.mpr ⟨h.wrapped, by dsimp only; omega⟩
    · rw [parseName_none (fun q hq => hname ⟨q, hq⟩), bind_none]
      refine iff_of_false not_bounded_none ?_
      rintro ⟨q, hq, -⟩
      exact hname ⟨q, hq⟩

/-- **Where the decoder stays in the message**, whatever is in there. -/
theorem decode_inside_iff (m : Mem) (size id : UInt16) (ip : IpAddr) : Bounded size (decodeAns m size id ip) ↔ Inside m size id := by
  unfold decodeAns Inside
  by_cases hhead : size < 12 ∨ le16 m 0 ≠ id
  · rw [if_pos hhead]
    refine iff_of_true (bounded_some.mpr ⟨rfl, Nat.zero_le _⟩) ?_
    rcases hhead with h | h
    · exact .inl h
    · exact .inr (.inl h)
  · obtain ⟨hlt, hid⟩ := not_or.mp hhead
    rw [if_neg hhead, or_iff_right hlt, or_iff_right hid]
    rw [UInt16.not_lt, UInt16.le_iff_toNat_le] at hlt
    have hsub := UInt16.toNat_sub_of_le size 12 (UInt16.le_iff_toNat_le.mpr hlt)
    simp only [UInt16.reduceToNat] at hlt hsub
    exact questions_inside ⟨by dsimp only; omega, Nat.zero_le _, by dsimp only; omega, rfl⟩ (be16 m 6) ip

/-- A lone pointer, which ends with the message. -/
def lonePointer : Mem := fun i => if i = 7 then 1 else if i = 12 then 0xC0 else 0

/-- **Not every message**: behind this one `dsize` goes below 0. -/
theorem decode_leaves : ¬ ∀ (m : Mem) (size id : UInt16) (ip : IpAddr), Bounded size (decodeAns m size id ip) := by
  intro h
  obtain ⟨d, hd, -⟩ := h lonePointer 13 0 ⟨0, 0⟩
  revert hd
  have hnone : decodeAns lonePointer 13 0 ⟨0, 0⟩ = none := by decide +kernel
  rw [hnone]
  intro hd
  cases hd

end Dns
end Vsf
