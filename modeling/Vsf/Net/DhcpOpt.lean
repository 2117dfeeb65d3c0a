/-
# DHCP options

`vsfip_dhcp_append_opt` and `vsfip_dhcp_end_opt` write options, `vsfip_dhcp_get_opt` looks for one.
What is written is read back (`options_read_back`). In a message that came in it takes the byte
behind a PAD for its length, and looks at an option before it looks whether that is still in the
message (`Walk`, `getOpt_iff`).
-/
import Mathlib
import Vsf.Lib.CStr

namespace Vsf

open ByteMem CStr List Option

/-- An option with a length and data. -/
structure DhcpTlv where
  code : UInt8
  data : List UInt8
  code_ne_pad : code ≠ 0
  code_ne_end : code ≠ 255
  data_le : data.length ≤ 255

/-- An option of a message, but for the END. -/
inductive DhcpOpt
  | pad
  | tlv (t : DhcpTlv)

namespace Dhcp

/-- `DHCPOPT_END`. -/
def optEnd : UInt8 := 255

/-- `DHCPOPT_MINLEN`. -/
def optMinlen : ℕ := 68

/-- The offset of `options` in `struct vsfip_dhcphead_t`. -/
def optionsAt : ℕ := 240

/-- `sizeof(struct vsfip_dhcphead_t)`. -/
def headSize : ℕ := optionsAt + optMinlen

/-! ### Looking for an option -/

/-- What `vsfip_dhcp_get_opt` returns, its `*data`, and the offsets it reads. -/
structure GetOpt where
  len : UInt8
  data : Option ℕ
  reads : List ℕ
deriving DecidableEq

/-- The loop of `vsfip_dhcp_get_opt`, for `n` options at most. -/
def getOptLoop (m : Mem) (size : ℕ) (option : UInt8) : ℕ → ℕ → GetOpt
  | 0, _ => ⟨0, none, []⟩
  | n + 1, ptr =>
    if m ptr ≠ optEnd ∧ ptr < size then
      if m ptr = option then ⟨m (ptr + 1), some (ptr + 2), [ptr, ptr + 1]⟩
      else
        let r := getOptLoop m size option n (ptr + 2 + (m (ptr + 1)).toNat)
        { r with reads := ptr :: (ptr + 1) :: r.reads }
    else ⟨0, none, [ptr]⟩

/-- `vsfip_dhcp_get_opt`, from `app.buffer` on. -/
def getOpt (m : Mem) (size : ℕ) (option : UInt8) : GetOpt := getOptLoop m size option (size + 1) optionsAt

/-! ### Writing options -/

/-- A message being written: the memory, `app.size`, and `*optlen`. -/
structure OutMsg where
  mem : Mem
  size : ℕ
  optlen : ℕ

/-- `vsfip_dhcp_append_opt`. -/
def appendOpt (b : OutMsg) (option len : UInt8) (data : List UInt8) : OutMsg :=
  let mem := write b.mem (optionsAt + b.optlen) [option]
  let mem := write mem (optionsAt + (b.optlen + 1)) [len]
  let mem := write mem (optionsAt + (b.optlen + 2)) (data.take len.toNat)
  { b with mem, optlen := b.optlen + 2 + len.toNat }

/-- The loop of `vsfip_dhcp_end_opt`, for `n` bytes at most. -/
def padLoop : ℕ → Mem → ℕ → Mem × ℕ
  | 0, mem, optlen => (mem, optlen)
  | n + 1, mem, optlen =>
    if optlen < optMinlen ∨ optlen % 4 ≠ 0 then padLoop n (write mem (optionsAt + optlen) [0]) (optlen + 1)
    else (mem, optlen)

/-- `vsfip_dhcp_end_opt`; fewer than `DHCPOPT_MINLEN` bytes and 4 are filled up. -/
def endOpt (b : OutMsg) : OutMsg :=
  let r := padLoop (optMinlen + 4) (write b.mem (optionsAt + b.optlen) [optEnd]) (b.optlen + 1)
  { mem := r.1, size := b.size - optMinlen + r.2, optlen := r.2 }

/-- A buffer for `struct vsfip_dhcphead_t`, with any bytes in it. -/
def newMsg (m : Mem) : OutMsg := ⟨m, headSize, 0⟩

/-- The options are written one after the other. -/
def appendAll (b : OutMsg) (ts : List DhcpTlv) : OutMsg :=
  ts.foldl (fun b t => appendOpt b t.code (UInt8.ofNat t.data.length) t.data) b

/-! ### What a message says -/

def encodeTlv (t : DhcpTlv) : List UInt8 := t.code :: UInt8.ofNat t.data.length :: t.data

def encodeOpt : DhcpOpt → List UInt8
  | .pad => [0]
  | .tlv t => encodeTlv t

def encode (os : List DhcpOpt) : List UInt8 := os.flatMap encodeOpt

/-- The options from `p` on: where the first one with the code is, and what it is. -/
def find (code : UInt8) : ℕ → List DhcpOpt → Option (ℕ × DhcpTlv)
  | _, [] => none
  | p, .pad :: os => find code (p + 1) os
  | p, .tlv t :: os => if t.code = code then some (p, t) else find code (p + 2 + t.data.length) os

/-- The message has the options `os`, and an END inside its size. -/
structure WellFormed (m : Mem) (size : ℕ) (os : List DhcpOpt) : Prop where
  options : Holds m optionsAt (encode os ++ [optEnd])
  inside : optionsAt + (encode os).length < size

/-- The length and the data of the first option with the code, or 0. -/
def Answers (code : UInt8) (os : List DhcpOpt) (r : GetOpt) : Prop :=
  match find code optionsAt os with
  | some (p, t) => r.len.toNat = t.data.length ∧ r.data = some (p + 2)
  | none => r.len = 0

/-- Nothing outside of the message is read or returned. -/
structure Stays (size : ℕ) (r : GetOpt) : Prop where
  reads : ∀ i ∈ r.reads, i < size
  data : ∀ d, r.data = some d → d + r.len.toNat ≤ size

/-! ### Where the search leads -/

/-- The search goes on behind `p`. -/
def Goes (m : Mem) (size : ℕ) (code : UInt8) (p : ℕ) : Prop := m p ≠ optEnd ∧ p < size ∧ m p ≠ code

/-- To the next option by the byte behind its code, as long as it is not the END, the end, or the one. -/
inductive Walk (m : Mem) (size : ℕ) (code : UInt8) : ℕ → ℕ → Prop
  | here (p : ℕ) : Walk m size code p p
  | hop {p q : ℕ} : Goes m size code p → Walk m size code (p + 2 + (m (p + 1)).toNat) q → Walk m size code p q

/-- The search leads to its option, or to an END, behind the message, or to no length. -/
def Leads (m : Mem) (size : ℕ) (code : UInt8) (os : List DhcpOpt) : Prop :=
  match find code optionsAt os with
  | some (p, _) => Walk m size code optionsAt p
  | none => ∃ q, Walk m size code optionsAt q ∧ (m q = optEnd ∨ size ≤ q ∨ m q = code ∧ m (q + 1) = 0)

/-- The search leads to an END, or to an option wholly inside. -/
def EndsInside (m : Mem) (size : ℕ) (code : UInt8) : Prop :=
  ∃ q, Walk m size code optionsAt q ∧ q < size ∧ (m q = optEnd ∨ m q = code ∧ q + 2 + (m (q + 1)).toNat ≤ size)

variable {m : Mem} {size n p q : ℕ} {code : UInt8} {os : List DhcpOpt} {ts : List DhcpTlv} {t : DhcpTlv} {b : OutMsg}

theorem Walk.le (h : Walk m size code p q) : p ≤ q := by
  induction h with
  | here => exact le_rfl
  | hop _ _ ih => omega

theorem walk_ends (m : Mem) (size : ℕ) (code : UInt8) (p : ℕ) : ∃ q, Walk m size code p q ∧ ¬ Goes m size code q := by
  induction hn : size - p using Nat.strong_induction_on generalizing p with
  | _ n ih =>
    by_cases hgo : Goes m size code p
    · have hlt := hgo.2.1
      obtain ⟨q, hwalk, hstop⟩ := ih _ (by omega) (p + 2 + (m (p + 1)).toNat) rfl
      exact ⟨q, .hop hgo hwalk, hstop⟩
    · exact ⟨p, .here p, hgo⟩

theorem Walk.unique {q' : ℕ} (h : Walk m size code p q) (hstop : ¬ Goes m size code q) (h' : Walk m size code p q')
    (hstop' : ¬ Goes m size code q') : q = q' := by
  induction h with
  | here p =>
    cases h' with
    | here => rfl
    | hop hgo _ => exact absurd hgo hstop
  | hop hgo _ ih =>
    cases h' with
    | here => exact absurd hgo hstop'
    | hop _ hrest => exact ih hstop hrest

/-- What is found where the search stops. -/
def stopped (m : Mem) (size q : ℕ) : GetOpt :=
  if m q ≠ optEnd ∧ q < size then ⟨m (q + 1), some (q + 2), [q, q + 1]⟩ else ⟨0, none, [q]⟩

/-- **The loop goes along the way**, and reads only in front of its end. -/
theorem getOptLoop_walk (h : Walk m size code p q) (hstop : ¬ Goes m size code q) (hn : size < p + n) (hpos : n ≠ 0) :
    ∃ rs, getOptLoop m size code n p = { stopped m size q with reads := rs ++ (stopped m size q).reads } ∧ ∀ i ∈ rs, i < q := by
  obtain ⟨n, rfl⟩ := Nat.exists_eq_succ_of_ne_zero hpos
  induction h generalizing n with
  | here p =>
    refine ⟨[], ?_, fun i hi => absurd hi not_mem_nil⟩
    unfold getOptLoop stopped
    by_cases hin : m p ≠ optEnd ∧ p < size
    · have hcode : m p = code := by
        by_contra hne
        exact hstop ⟨hin.1, hin.2, hne⟩
      rw [if_pos hin, if_pos hin, if_pos hcode]
      rfl
    · rw [if_neg hin, if_neg hin]
      rfl
  | @hop p q hgo hrest ih =>
    obtain ⟨hend, hlt, hne⟩ := hgo
    have hle := hrest.le
    obtain ⟨n, rfl⟩ := Nat.exists_eq_succ_of_ne_zero (show n ≠ 0 by omega)
    obtain ⟨rs, heq, hrs⟩ := ih hstop n (by omega) (by omega)
    refine ⟨p :: (p + 1) :: rs, ?_, fun i hi => ?_⟩
    · rw [getOptLoop, if_pos ⟨hend, hlt⟩, if_neg hne]
      rw [heq]
      rfl
    · rcases mem_cons.mp hi with rfl | hi
      · omega
      · rcases mem_cons.mp hi with rfl | hi
        · omega
        · exact hrs i hi

/-- **The search**, by where its way ends. -/
theorem getOpt_stop (m : Mem) (size : ℕ) (code : UInt8) : ∃ q rs, Walk m size code optionsAt q ∧ ¬ Goes m size code q ∧
    getOpt m size code = { stopped m size q with reads := rs ++ (stopped m size q).reads } ∧ ∀ i ∈ rs, i < q := by
  obtain ⟨q, hwalk, hstop⟩ := walk_ends m size code optionsAt
  obtain ⟨rs, heq, hrs⟩ := getOptLoop_walk hwalk hstop (show size < optionsAt + (size + 1) by omega) (by omega)
  exact ⟨q, rs, hwalk, hstop, heq, hrs⟩

/-! ### Well-formed messages -/

theorem toNat_length (t : DhcpTlv) : (UInt8.ofNat t.data.length).toNat = t.data.length := by
  have := t.data_le
  rw [UInt8.toNat_ofNat']
  omega

theorem holds_tlv (h : Holds m p (encodeTlv t)) :
    m p = t.code ∧ (m (p + 1)).toNat = t.data.length ∧ Holds m (p + 2) t.data := by
  obtain ⟨hcode, h1⟩ := holds_cons.mp h
  obtain ⟨hlen, hdata⟩ := holds_cons.mp h1
  refine ⟨hcode, ?_, hdata⟩
  rw [hlen, toNat_length]

theorem encode_cons (o : DhcpOpt) (os : List DhcpOpt) : encode (o :: os) = encodeOpt o ++ encode os := rfl

theorem encodeTlv_length (t : DhcpTlv) : (encodeTlv t).length = 2 + t.data.length := by
  rw [encodeTlv, length_cons, length_cons]
  omega

/-- The option that is found stands where it is found, in front of the END. -/
theorem find_holds (h : Holds m p (encode os ++ [optEnd])) (hf : find code p os = some (q, t)) :
    t.code = code ∧ Holds m q (encodeTlv t) ∧ q + (encodeTlv t).length ≤ p + (encode os).length := by
  induction os generalizing p with
  | nil => cases hf
  | cons o os ih =>
    rw [encode_cons, append_assoc, holds_append] at h
    obtain ⟨hhead, hrest⟩ := h
    rw [encode_cons, length_append]
    cases o with
    | pad =>
      obtain ⟨hcode, hq, hle⟩ := ih hrest hf
      refine ⟨hcode, hq, ?_⟩
      simp only [encodeOpt, length_singleton] at hle ⊢
      omega
    | tlv s =>
      rw [find] at hf
      simp only [encodeOpt] at hhead hrest ⊢
      split_ifs at hf with hcode
      · obtain ⟨rfl, rfl⟩ := Prod.mk.inj (some.inj hf)
        exact ⟨hcode, hhead, by omega⟩
      · rw [encodeTlv_length, ← add_assoc] at hrest
        obtain ⟨hcode', hq, hle⟩ := ih hrest hf
        refine ⟨hcode', hq, ?_⟩
        rw [encodeTlv_length s]
        omega

theorem WellFormed.stops (h : WellFormed m size os) (hf : find code optionsAt os = some (q, t)) :
    ¬ Goes m size code q ∧ m q ≠ optEnd ∧ q < size := by
  obtain ⟨hcode, hq, hle⟩ := find_holds h.options hf
  obtain ⟨hm, -, -⟩ := holds_tlv hq
  have hin := h.inside
  rw [encodeTlv_length] at hle
  refine ⟨fun hgo => hgo.2.2 (hm.trans hcode), ?_, by omega⟩
  rw [hm]
  exact t.code_ne_end

/-- **The answer** is right exactly where the search leads to it. -/
theorem answers_iff (h : WellFormed m size os) (code : UInt8) : Answers code os (getOpt m size code) ↔ Leads m size code os := by
  obtain ⟨q, rs, hwalk, hstop, heq, -⟩ := getOpt_stop m size code
  unfold Answers Leads
  rw [heq]
  cases hf : find code optionsAt os with
  | some r =>
    obtain ⟨p, t⟩ := r
    obtain ⟨hstop', hend, hlt⟩ := h.stops hf
    constructor
    · rintro ⟨-, hdata⟩
      unfold stopped at hdata
      split_ifs at hdata
      obtain rfl : q = p := by simpa using hdata
      exact hwalk
    · intro hp
      obtain rfl := hwalk.unique hstop hp hstop'
      obtain ⟨-, hq, -⟩ := find_holds h.options hf
      rw [stopped, if_pos ⟨hend, hlt⟩]
      exact ⟨(holds_tlv hq).2.1, rfl⟩
  | none =>
    constructor
    · intro hlen
      refine ⟨q, hwalk, ?_⟩
      unfold stopped at hlen
      by_cases hend : m q = optEnd
      · exact .inl hend
      · by_cases hlt : q < size
        · rw [if_pos ⟨hend, hlt⟩] at hlen
          have hcode : m q = code := by
            by_contra hne
            exact hstop ⟨hend, hlt, hne⟩
          exact .inr (.inr ⟨hcode, hlen⟩)
        · exact .inr (.inl (not_lt.mp hlt))
    · rintro ⟨q', hwalk', hcase⟩
      have hstop' : ¬ Goes m size code q' := by
        rintro ⟨hend, hlt, hne⟩
        rcases hcase with h | h | h
        · exact hend h
        · omega
        · exact hne h.1
      obtain rfl := hwalk.unique hstop hwalk' hstop'
      unfold stopped
      split_ifs with hin
      · rcases hcase with h | h | h
        · exact absurd h hin.1
        · exact absurd h (not_le.mpr hin.2)
        · exact h.2
      · rfl

/-- **The search stays in the message** exactly where it ends in it. -/
theorem stays_iff (m : Mem) (size : ℕ) (code : UInt8) : Stays size (getOpt m size code) ↔ EndsInside m size code := by
  obtain ⟨q, rs, hwalk, hstop, heq, hrs⟩ := getOpt_stop m size code
  rw [heq]
  constructor
  · rintro ⟨hreads, hdata⟩
    have hq : q < size := by
      refine hreads q (mem_append_right _ ?_)
      unfold stopped
      split_ifs <;> simp
    refine ⟨q, hwalk, hq, ?_⟩
    by_cases hend : m q = optEnd
    · exact .inl hend
    · have hcode : m q = code := by
        by_contra hne
        exact hstop ⟨hend, hq, hne⟩
      have hlast := hdata (q + 2)
      rw [stopped, if_pos ⟨hend, hq⟩] at hlast
      exact .inr ⟨hcode, hlast rfl⟩
  · rintro ⟨q', hwalk', hlt, hcase⟩
    have hstop' : ¬ Goes m size code q' := by
      rintro ⟨hend, -, hne⟩
      rcases hcase with h | h
      · exact hend h
      · exact hne h.1
    obtain rfl := hwalk.unique hstop hwalk' hstop'
    unfold stopped
    split_ifs with hin
    · obtain ⟨-, hle⟩ := hcase.resolve_left hin.1
      refine ⟨fun i hi => ?_, fun d hd => ?_⟩
      · rcases mem_append.mp hi with hi | hi
        · exact (hrs i hi).trans hlt
        · simp only [mem_cons, not_mem_nil, or_false] at hi
          omega
      · obtain rfl : q + 2 = d := by simpa using hd
        exact hle
    · refine ⟨fun i hi => ?_, fun d hd => ?_⟩
      · rcases mem_append.mp hi with hi | hi
        · exact (hrs i hi).trans hlt
        · rw [mem_singleton.mp hi]
          exact hlt
      · cases hd

/-! ### What is written -/

/-- The length of the options with the END, filled up. -/
def padded (n : ℕ) : ℕ := max optMinlen ((n + 3) / 4 * 4)

/-- The options are read back as written, and nothing outside was written. -/
structure ReadsBack (m : Mem) (ts : List DhcpTlv) (b : OutMsg) : Prop where
  found : ∀ code t, ts.find? (fun t => t.code = code) = some t → ∃ d, (getOpt b.mem b.size code).data = some d ∧
    (getOpt b.mem b.size code).len.toNat = t.data.length ∧ Holds b.mem d t.data
  absent : ∀ code, ts.find? (fun t => t.code = code) = none → (getOpt b.mem b.size code).len = 0
  size : b.size = optionsAt + padded ((ts.flatMap encodeTlv).length + 1)
  kept : ∀ i, i < optionsAt ∨ b.size ≤ i → b.mem i = m i

theorem encode_tlvs (ts : List DhcpTlv) : encode (ts.map .tlv) = ts.flatMap encodeTlv := flatMap_map ..

theorem appendOpt_tlv (b : OutMsg) (t : DhcpTlv) : appendOpt b t.code (UInt8.ofNat t.data.length) t.data =
    { b with mem := write b.mem (optionsAt + b.optlen) (encodeTlv t), optlen := b.optlen + (encodeTlv t).length } := by
  have hmem : write b.mem (optionsAt + b.optlen) (encodeTlv t) =
      write (write (write b.mem (optionsAt + b.optlen) [t.code]) (optionsAt + (b.optlen + 1)) [UInt8.ofNat t.data.length])
        (optionsAt + (b.optlen + 2)) t.data := by
    rw [encodeTlv, write_cons, write_cons]
    rfl
  unfold appendOpt
  dsimp only
  rw [toNat_length, take_length, ← hmem, encodeTlv_length, add_assoc]

theorem appendAll_eq (ts : List DhcpTlv) (b : OutMsg) : appendAll b ts =
    { b with
      mem := write b.mem (optionsAt + b.optlen) (ts.flatMap encodeTlv)
      optlen := b.optlen + (ts.flatMap encodeTlv).length } := by
  induction ts generalizing b with
  | nil =>
    rw [flatMap_nil, write_nil]
    rfl
  | cons t ts ih =>
    unfold appendAll at ih ⊢
    rw [foldl_cons, ih, appendOpt_tlv, flatMap_cons, write_append, length_append]
    simp only [add_assoc]

theorem le_padded (n : ℕ) : n ≤ padded n := by
  unfold padded
  omega

theorem lt_padded {n : ℕ} : n < padded n ↔ n < optMinlen ∨ n % 4 ≠ 0 := by
  unfold padded
  omega

theorem padded_succ {n : ℕ} (h : n < padded n) : padded (n + 1) = padded n := by
  unfold padded optMinlen at h ⊢
  omega

theorem padLoop_eq {k n : ℕ} (hk : padded n - n ≤ k) (mem : Mem) :
    padLoop k mem n = (write mem (optionsAt + n) (List.replicate (padded n - n) 0), padded n) := by
  have hle := le_padded n
  induction k generalizing n mem with
  | zero =>
    have heq : padded n = n := by omega
    rw [padLoop, heq, Nat.sub_self, replicate_zero, write_nil]
  | succ k ih =>
    by_cases hlt : n < padded n
    · have hsub : padded n - n = padded n - (n + 1) + 1 := by omega
      have hrest := ih (show padded (n + 1) - (n + 1) ≤ k by rw [padded_succ hlt]; omega) (write mem (optionsAt + n) [0]) (le_padded _)
      rw [padded_succ hlt] at hrest
      rw [padLoop, if_pos (lt_padded.mp hlt), hrest, hsub, replicate_succ, write_cons mem _ 0 (List.replicate _ 0), add_assoc]
    · have heq : padded n = n := by omega
      rw [padLoop, if_neg (fun h => hlt (lt_padded.mpr h)), heq, Nat.sub_self, replicate_zero, write_nil]

theorem endOpt_eq (m : Mem) (ts : List DhcpTlv) : ∃ k, endOpt (appendAll (newMsg m) ts) =
    { mem := write m optionsAt (ts.flatMap encodeTlv ++ ([optEnd] ++ List.replicate k 0))
      size := optionsAt + padded ((ts.flatMap encodeTlv).length + 1)
      optlen := padded ((ts.flatMap encodeTlv).length + 1) } ∧
    (ts.flatMap encodeTlv).length + 1 + k = padded ((ts.flatMap encodeTlv).length + 1) := by
  have hpad : padded ((ts.flatMap encodeTlv).length + 1) - ((ts.flatMap encodeTlv).length + 1) ≤ optMinlen + 4 := by
    unfold padded optMinlen
    omega
  refine ⟨padded ((ts.flatMap encodeTlv).length + 1) - ((ts.flatMap encodeTlv).length + 1), ?_, ?_⟩
  · rw [appendAll_eq]
    unfold endOpt newMsg
    rw [zero_add, add_zero, padLoop_eq hpad, write_append, write_append]
    rfl
  · unfold padded
    omega

theorem find_tlvs (code : UInt8) (ts : List DhcpTlv) (p : ℕ) :
    (find code p (ts.map .tlv)).map Prod.snd = ts.find? fun t => t.code = code := by
  induction ts generalizing p with
  | nil => rfl
  | cons t ts ih =>
    rw [map_cons, find]
    by_cases hcode : t.code = code
    · rw [if_pos hcode, find?_cons_of_pos (by simpa using hcode)]
      rfl
    · rw [if_neg hcode, find?_cons_of_neg (by simpa using hcode)]
      exact ih _

theorem walk_tlvs (h : Holds m p (ts.flatMap encodeTlv)) (hsize : p + (ts.flatMap encodeTlv).length ≤ size) (code : UInt8) :
    match find code p (ts.map .tlv) with
    | some (q, _) => Walk m size code p q
    | none => Walk m size code p (p + (ts.flatMap encodeTlv).length) := by
  induction ts generalizing p with
  | nil => exact .here p
  | cons t ts ih =>
    rw [flatMap_cons, holds_append] at h
    obtain ⟨hcode, hlen, -⟩ := holds_tlv h.1
    have hnext := encodeTlv_length t
    rw [flatMap_cons, length_append] at hsize ⊢
    rw [map_cons, find]
    by_cases heq : t.code = code
    · rw [if_pos heq]
      exact .here p
    · rw [if_neg heq]
      have hgo : Goes m size code p := by
        rw [Goes, hcode]
        exact ⟨t.code_ne_end, by omega, heq⟩
      have hpos : p + (encodeTlv t).length = p + 2 + t.data.length := by omega
      have hrest := ih h.2 (by omega)
      rw [hpos] at hrest
      have hhop : ∀ q, Walk m size code (p + 2 + t.data.length) q → Walk m size code p q := by
        intro q hq
        rw [← hlen] at hq
        exact .hop hgo hq
      cases hf : find code (p + 2 + t.data.length) (ts.map .tlv) with
      | some r =>
        rw [hf] at hrest
        exact hhop _ hrest
      | none =>
        rw [hf] at hrest
        rw [← add_assoc, hpos]
        exact hhop _ hrest

/-- What is behind the option does not matter. -/
theorem find_append {r : ℕ × DhcpTlv} (h : find code p (ts.map .tlv) = some r) : find code p (ts.map .tlv ++ os) = some r := by
  induction ts generalizing p with
  | nil => cases h
  | cons t ts ih =>
    rw [map_cons, find] at h
    rw [map_cons, cons_append, find]
    split_ifs at h ⊢
    · exact h
    · exact ih h

/-- **Without a PAD in front** of the option, or of the END, the search leads to it. -/
theorem leads_of_front (h : WellFormed m size (ts.map .tlv ++ os)) (hfront : (∃ t ∈ ts, t.code = code) ∨ os = []) :
    Leads m size code (ts.map .tlv ++ os) := by
  obtain ⟨hopts, hend⟩ := holds_append.mp h.options
  have hin := h.inside
  rw [encode, flatMap_append, ← encode, encode_tlvs] at hopts hend hin
  rw [length_append] at hin
  have hwalk := walk_tlvs (holds_append.mp hopts).1 (show _ ≤ size by omega) code
  unfold Leads
  cases hf : find code optionsAt (ts.map .tlv) with
  | some r =>
    rw [hf] at hwalk
    rw [find_append hf]
    exact hwalk
  | none =>
    have hnone := find_tlvs code ts optionsAt
    rw [hf, eq_comm, Option.map_none, find?_eq_none] at hnone
    obtain rfl := hfront.resolve_left fun ⟨t, ht, hcode⟩ => hnone t ht (by simpa using hcode)
    rw [hf] at hwalk
    rw [append_nil, hf]
    rw [flatMap_nil, append_nil] at hend
    exact ⟨_, hwalk, .inl (holds_cons.mp hend).1⟩

/-- **What is written is read back**: the first option with the code. -/
theorem options_read_back (m : Mem) (ts : List DhcpTlv) : ReadsBack m ts (endOpt (appendAll (newMsg m) ts)) := by
  obtain ⟨k, heq, hk⟩ := endOpt_eq m ts
  rw [heq]
  have hwf : WellFormed (write m optionsAt (ts.flatMap encodeTlv ++ ([optEnd] ++ List.replicate k 0)))
      (optionsAt + padded ((ts.flatMap encodeTlv).length + 1)) (ts.map .tlv) := by
    have hall := holds_write m optionsAt (ts.flatMap encodeTlv ++ ([optEnd] ++ List.replicate k 0))
    rw [← append_assoc, holds_append, append_assoc] at hall
    have hle := le_padded ((ts.flatMap encodeTlv).length + 1)
    refine ⟨?_, ?_⟩
    · rw [encode_tlvs]
      exact hall.1
    · rw [encode_tlvs]
      omega
  have hanswers : ∀ code, Answers code (ts.map .tlv) (getOpt _ _ code) := fun code => by
    have hleads : Leads _ _ code (ts.map .tlv ++ []) := leads_of_front ((append_nil (ts.map DhcpOpt.tlv)).symm ▸ hwf) (.inr rfl)
    rw [append_nil] at hleads
    exact (answers_iff hwf code).mpr hleads
  refine ⟨fun code t hfind => ?_, fun code hfind => ?_, rfl, fun i hi => ?_⟩
  · have hanswer := hanswers code
    rw [← find_tlvs code ts optionsAt, map_eq_some_iff] at hfind
    obtain ⟨⟨p, t'⟩, hf, rfl⟩ := hfind
    unfold Answers at hanswer
    rw [hf] at hanswer
    obtain ⟨-, hp, -⟩ := find_holds hwf.options hf
    exact ⟨p + 2, hanswer.2, hanswer.1, (holds_tlv hp).2.2⟩
  · have hanswer := hanswers code
    rw [← find_tlvs code ts optionsAt, map_eq_none_iff] at hfind
    unfold Answers at hanswer
    rw [hfind] at hanswer
    exact hanswer
  · dsimp only at hi ⊢
    rcases hi with hlt | hge
    · exact write_lt hlt
    · refine write_ge ?_
      rw [length_append, length_append, length_singleton, length_replicate]
      omega

/-- **When the search is right**: where it leads to the option; it stays inside where it ends inside. -/
theorem getOpt_iff (m : Mem) (size : ℕ) (code : UInt8) :
    (∀ os : List DhcpOpt, WellFormed m size os → (Answers code os (getOpt m size code) ↔ Leads m size code os)) ∧
    (Stays size (getOpt m size code) ↔ EndsInside m size code) :=
  ⟨fun _ h => answers_iff h code, stays_iff m size code⟩

/-- DISCOVER. -/
def discover : DhcpTlv := ⟨53, [1], by decide, by decide, by decide⟩

/-- Two PADs in front of an option. -/
def twoPads : Mem := write (fun _ => 0) optionsAt [0, 0, 53, 1, 1, 255]

theorem getOpt_iff_twoPads : WellFormed twoPads 246 [.pad, .pad, .tlv discover] ∧
    Answers 53 [.pad, .pad, .tlv discover] (getOpt twoPads 246 53) ∧ Stays 246 (getOpt twoPads 246 53) := by
  have hwf : WellFormed twoPads 246 [.pad, .pad, .tlv discover] := ⟨holds_write _ _ _, by decide⟩
  have hwalk : Walk twoPads 246 53 optionsAt 242 := .hop ⟨by decide, by decide, by decide⟩ (.here 242)
  exact ⟨hwf, ((getOpt_iff twoPads 246 53).1 _ hwf).mpr hwalk,
    (getOpt_iff twoPads 246 53).2.mpr ⟨242, hwalk, by decide, .inr ⟨by decide, by decide⟩⟩⟩

/-- One PAD in front of it: its code is taken for a length. -/
def onePad : Mem := write (fun _ => 0) optionsAt [0, 53, 1, 1, 255]

theorem getOpt_misses : ¬ ((∀ (m : Mem) (size : ℕ) (os : List DhcpOpt) (code : UInt8), WellFormed m size os →
      Answers code os (getOpt m size code)) ∧ ∀ (m : Mem) (size : ℕ) (code : UInt8), Stays size (getOpt m size code)) := by
  rintro ⟨hanswers, -⟩
  have hwf : WellFormed onePad 245 [.pad, .tlv discover] := ⟨holds_write _ _ _, by decide⟩
  have hlen : (getOpt onePad 245 53).len.toNat = 1 := (hanswers onePad 245 _ 53 hwf).1
  revert hlen
  decide

end Dhcp
end Vsf
