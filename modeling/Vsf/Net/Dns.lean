/-
# Names in DNS messages

A name is a list of labels, and a zero or a pointer behind them; or a pointer.
`vsfip_dns_parse_name` goes from label to label (`NameSpan`). `vsfip_dns_build_query` writes a
domain as a name; it stops at a slash, and writes on behind the buffer where there is no room
(`built_iff`).
-/
import Mathlib
import Vsf.Lib.CStr
import Vsf.Net.Frame

namespace Vsf

open ByteMem CStr Arp Receive Vsf.Frame List Option

/-- A label of a name. -/
structure DnsLabel where
  bytes : List UInt8
  ne : bytes ≠ []
  le : bytes.length ≤ 63
deriving DecidableEq

/-- A name that is not the root; the pointer is an offset in the message. -/
structure DnsName where
  labels : List DnsLabel
  pointer : Option (Fin (2 ^ 14))
  ne : labels ≠ [] ∨ pointer ≠ none
deriving DecidableEq

namespace Dns

/-! ### The functions -/

/-- A byte of the message; there is no result behind it. -/
def byte (m : Mem) (size : UInt16) (i : ℕ) : Option UInt8 := if i < size.toNat then some (m i) else none

/-- The loop of `vsfip_dns_parse_name`, `n` labels at most: the last `query + 1`. -/
def parseNameLoop (m : Mem) (size : UInt16) : ℕ → ℕ → Option ℕ
  | 0, _ => none
  | k + 1, query =>
    (byte m size query).bind fun n =>
      let query := query + 1
      if n &&& 0xc0 = 0xc0 then some (query + 1)
      else
        let query := query + n.toNat
        (byte m size query).bind fun b => if b ≠ 0 then parseNameLoop m size k query else some (query + 1)

/-- `vsfip_dns_parse_name`; there are not more labels than bytes. -/
def parseName (m : Mem) (size : UInt16) (orgin : ℕ) : Option UInt16 :=
  (parseNameLoop m size (size.toNat + 1) orgin).map fun e => UInt16.ofNat (e - orgin)

/-- The loop of `vsfip_dns_build_query` over the characters of the domain. -/
def buildLoop : List UInt8 → Mem → ℕ → UInt16 → Mem × ℕ × UInt16
  | [], m, name, count => (m, name, count)
  | c :: domain, m, name, count =>
    if c = 47 then (m, name, count)
    else if c = 46 then buildLoop domain (write m (name - count.toNat - 1) [count.toUInt8]) (name + 1) 0
    else buildLoop domain (write m name [c]) (name + 1) (count + 1)

/-- `VSFIP_DNS_PKG_SIZE`. -/
def pkgSize : ℕ := 512

/-- The header of a query; `id` is put there as it is. -/
def queryHead (id : UInt16) : List UInt8 :=
  [id.toUInt8, (id >>> 8).toUInt8] ++ be16Bytes 0x0100 ++ be16Bytes 1 ++ be16Bytes 0 ++ be16Bytes 0 ++ be16Bytes 0

/-- `vsfip_dns_build_query`, with a buffer: its bytes, and `app.size`. -/
def buildQuery (m : Mem) (domain : List UInt8) (id : UInt16) : Mem × ℕ :=
  let r := buildLoop domain (write m 0 (queryHead id)) 13 0
  let mem := write r.1 r.2.1 [0]
  let mem := write mem (r.2.1 - r.2.2.toNat - 1) [r.2.2.toUInt8]
  let name := r.2.1 + 1
  (write mem name (be16Bytes 1 ++ be16Bytes 1), name + 4)

/-! ### What a name is -/

def encodeLabel (l : DnsLabel) : List UInt8 := UInt8.ofNat l.bytes.length :: l.bytes

/-- What is behind the labels. -/
def encodeEnd : Option (Fin (2 ^ 14)) → List UInt8
  | none => [0]
  | some o => [UInt8.ofNat (0xC0 + o / 256), UInt8.ofNat (o % 256)]

def encodeLabels (ls : List DnsLabel) (o : Option (Fin (2 ^ 14))) : List UInt8 := ls.flatMap encodeLabel ++ encodeEnd o

def encodeName (n : DnsName) : List UInt8 := encodeLabels n.labels n.pointer

/-- From label to label, as the lengths say, to a pointer or a zero. -/
inductive NameSpan (m : Mem) (size : UInt16) : ℕ → ℕ → Prop
  | pointer {p : ℕ} : p < size.toNat → m p &&& 0xc0 = 0xc0 → NameSpan m size p (p + 2)
  | last {p : ℕ} : p + 1 + (m p).toNat < size.toNat → m p &&& 0xc0 ≠ 0xc0 → m (p + 1 + (m p).toNat) = 0 →
      NameSpan m size p (p + 1 + (m p).toNat + 1)
  | label {p q : ℕ} : p + 1 + (m p).toNat < size.toNat → m p &&& 0xc0 ≠ 0xc0 → m (p + 1 + (m p).toNat) ≠ 0 →
      NameSpan m size (p + 1 + (m p).toNat) q → NameSpan m size p q

/-- A domain: its labels, without a dot in them. -/
structure Domain where
  labels : List DnsLabel
  ne : labels ≠ []
  plain : ∀ l ∈ labels, 46 ∉ l.bytes ∧ 0 ∉ l.bytes

/-- The domain with its dots. -/
def domainText : List DnsLabel → List UInt8
  | [] => []
  | [l] => l.bytes
  | l :: l' :: ls => l.bytes ++ 46 :: domainText (l' :: ls)

def Domain.name (d : Domain) : DnsName := ⟨d.labels, none, .inl d.ne⟩

/-- The query has the name of the domain, in its buffer. -/
structure Built (d : Domain) (r : Mem × ℕ) : Prop where
  name : Holds r.1 12 (encodeName d.name)
  inside : r.2 ≤ pkgSize

/-- A domain that a query can be built for. -/
def Fits (d : Domain) : Prop := 47 ∉ domainText d.labels ∧ (domainText d.labels).length ≤ 494

variable {m : Mem} {size : UInt16} {n p q : ℕ} {ls : List DnsLabel} {l : DnsLabel} {bs cs : List UInt8}

/-! ### Parsing a name -/

theorem byte_eq {i : ℕ} {b : UInt8} : byte m size i = some b ↔ i < size.toNat ∧ m i = b := by
  unfold byte
  split_ifs with h
  · simp [h]
  · simp [h]

theorem NameSpan.lt (h : NameSpan m size p q) : p + 1 < q ∧ p < size.toNat := by
  induction h with
  | pointer hp _ => exact ⟨by omega, hp⟩
  | last hp _ _ => exact ⟨by omega, by omega⟩
  | label hp _ _ _ ih => exact ⟨by omega, by omega⟩

theorem NameSpan.unique {q' : ℕ} (h : NameSpan m size p q) (h' : NameSpan m size p q') : q = q' := by
  induction h with
  | pointer _ hc =>
    cases h' with
    | pointer => rfl
    | last _ hc' _ => exact absurd hc hc'
    | label _ hc' _ _ => exact absurd hc hc'
  | last _ hc h0 =>
    cases h' with
    | pointer _ hc' => exact absurd hc' hc
    | last => rfl
    | label _ _ h0' _ => exact absurd h0 h0'
  | label _ hc h0 _ ih =>
    cases h' with
    | pointer _ hc' => exact absurd hc' hc
    | last _ _ h0' => exact absurd h0' h0
    | label _ _ _ hrest => exact ih hrest

/-- **The loop** gets to the end of the name, if that is in the message. -/
theorem parseNameLoop_iff (hn : size.toNat < p + n) (hpos : n ≠ 0) : parseNameLoop m size n p = some q ↔ NameSpan m size p q := by
  induction n generalizing p with
  | zero => exact absurd rfl hpos
  | succ n ih =>
    rw [parseNameLoop]
    by_cases hp : p < size.toNat
    · rw [byte_eq.mpr ⟨hp, rfl⟩, bind_some]
      dsimp only
      by_cases hc : m p &&& 0xc0 = 0xc0
      · rw [if_pos hc, Option.some.injEq]
        constructor
        · rintro rfl
          exact .pointer hp hc
        · intro h
          exact (NameSpan.pointer hp hc).unique h
      · rw [if_neg hc]
        by_cases hlast : p + 1 + (m p).toNat < size.toNat
        · rw [byte_eq.mpr ⟨hlast, rfl⟩, bind_some]
          by_cases h0 : m (p + 1 + (m p).toNat) = 0
          · rw [if_neg (not_not.mpr h0), Option.some.injEq]
            constructor
            · rintro rfl
              exact .last hlast hc h0
            · intro h
              exact (NameSpan.last hlast hc h0).unique h
          · rw [if_pos h0, ih (by omega) (by omega)]
            constructor
            · exact .label hlast hc h0
            · intro h
              cases h with
              | pointer _ hc' => exact absurd hc' hc
              | last _ _ h0' => exact absurd h0' h0
              | label _ _ _ hrest => exact hrest
        · rw [show byte m size (p + 1 + (m p).toNat) = none from if_neg hlast, bind_none]
          constructor
          · intro h
            cases h
          · intro h
            cases h with
            | pointer _ hc' => exact absurd hc' hc
            | last hlast' _ _ => exact absurd hlast' hlast
            | label hlast' _ _ _ => exact absurd hlast' hlast
    · rw [show byte m size p = none from if_neg hp, bind_none]
      constructor
      · intro h
        cases h
      · intro h
        exact absurd h.lt.2 hp

/-- **`vsfip_dns_parse_name`.** -/
theorem parseName_span (h : NameSpan m size p q) : parseName m size p = some (UInt16.ofNat (q - p)) := by
  rw [parseName, (parseNameLoop_iff (by omega) (by omega)).mpr h]
  rfl

theorem parseName_none (h : ∀ q, ¬ NameSpan m size p q) : parseName m size p = none := by
  rw [parseName, map_eq_none_iff, eq_none_iff_forall_ne_some]
  intro q hq
  exact h q ((parseNameLoop_iff (by omega) (by omega)).mp hq)

/-! ### Encoded names -/

theorem encodeLabel_length (l : DnsLabel) : (encodeLabel l).length = l.bytes.length + 1 := rfl

theorem toNat_label (l : DnsLabel) : (UInt8.ofNat l.bytes.length).toNat = l.bytes.length := by
  have := l.le
  rw [UInt8.toNat_ofNat']
  omega

theorem label_pos (l : DnsLabel) : 0 < l.bytes.length := length_pos_of_ne_nil l.ne

theorem label_byte (l : DnsLabel) : UInt8.ofNat l.bytes.length &&& 0xc0 ≠ 0xc0 ∧ UInt8.ofNat l.bytes.length ≠ 0 := by
  have hall : ∀ k < 64, 0 < k → UInt8.ofNat k &&& 0xc0 ≠ 0xc0 ∧ UInt8.ofNat k ≠ 0 := by decide
  have hle := l.le
  exact hall _ (by omega) (label_pos l)

theorem pointer_byte (o : Fin (2 ^ 14)) : UInt8.ofNat (0xC0 + o / 256) &&& 0xc0 = 0xc0 := by
  have hall : ∀ k < 64, UInt8.ofNat (0xC0 + k) &&& 0xc0 = 0xc0 := by decide
  exact hall _ (Nat.div_lt_of_lt_mul o.isLt)

/-- Behind a label comes something that is not 0, but for the last zero. -/
theorem head_encodeLabels (ls : List DnsLabel) (o : Option (Fin (2 ^ 14))) : ∃ b bs, encodeLabels ls o = b :: bs ∧
    (b = 0 ↔ ls = [] ∧ o = none) := by
  cases ls with
  | nil =>
    cases o with
    | none => exact ⟨0, [], rfl, by simp⟩
    | some o =>
      refine ⟨_, _, rfl, ?_⟩
      have hne : UInt8.ofNat (0xC0 + o / 256) ≠ 0 := by
        intro h0
        have hbyte := pointer_byte o
        rw [h0] at hbyte
        revert hbyte
        decide
      exact ⟨fun h0 => absurd h0 hne, fun h => by cases h.2⟩
  | cons l ls => exact ⟨_, _, rfl, by simp [(label_byte l).2]⟩

/-- **A name ends where it ends.** -/
theorem span_encodeLabels {o : Option (Fin (2 ^ 14))} (hne : ls ≠ [] ∨ o ≠ none) (h : Holds m p (encodeLabels ls o))
    (hin : p + (encodeLabels ls o).length ≤ size.toNat) : NameSpan m size p (p + (encodeLabels ls o).length) := by
  induction ls generalizing p with
  | nil =>
    cases o with
    | none => exact absurd rfl (hne.resolve_left (by simp))
    | some o =>
      have hlen : (encodeLabels [] (some o)).length = 2 := rfl
      rw [hlen] at hin ⊢
      refine .pointer (by omega) ?_
      rw [(holds_cons.mp h).1]
      exact pointer_byte o
  | cons l ls ih =>
    have heq : encodeLabels (l :: ls) o = encodeLabel l ++ encodeLabels ls o := by
      rw [encodeLabels, flatMap_cons, append_assoc]
      rfl
    rw [heq] at h hin ⊢
    obtain ⟨hl, hrest⟩ := holds_append.mp h
    obtain ⟨b, bs, hhead, hb⟩ := head_encodeLabels ls o
    have hm := (holds_cons.mp hl).1
    have hpos : p + (encodeLabel l).length = p + 1 + (m p).toNat := by
      rw [hm, toNat_label, encodeLabel_length]
      omega
    have hnext : m (p + 1 + (m p).toNat) = b := by
      rw [hhead, hpos] at hrest
      exact (holds_cons.mp hrest).1
    have hc : m p &&& 0xc0 ≠ 0xc0 := by
      rw [hm]
      exact (label_byte l).1
    have hblen : 0 < (encodeLabels ls o).length := by
      rw [hhead]
      exact Nat.succ_pos _
    rw [length_append] at hin ⊢
    rw [← add_assoc, hpos] at hin ⊢
    by_cases hend : ls = [] ∧ o = none
    · obtain ⟨rfl, rfl⟩ := hend
      exact .last (by omega) hc (hnext.trans (hb.mpr ⟨rfl, rfl⟩))
    · rw [hpos] at hrest
      refine .label (by omega) hc ?_ (ih (not_and_or.mp hend) hrest hin)
      rw [hnext]
      exact fun h0 => hend (hb.mp h0)

theorem span_encode {name : DnsName} (h : Holds m p (encodeName name)) (hin : p + (encodeName name).length ≤ size.toNat) :
    NameSpan m size p (p + (encodeName name).length) := span_encodeLabels name.ne h hin

/-- **The length of a name** is what is returned for it. -/
theorem parseName_encode {name : DnsName} (h : Holds m p (encodeName name)) (hin : p + (encodeName name).length ≤ size.toNat) :
    parseName m size p = some (UInt16.ofNat (encodeName name).length) := by
  rw [parseName_span (span_encode h hin), Nat.add_sub_cancel_left]

/-! ### Building a query -/

theorem buildLoop_chars (rest : List UInt8) (name : ℕ) (count : UInt16) (hdot : 46 ∉ bs) (hslash : 47 ∉ bs) :
    buildLoop (bs ++ rest) m name count = buildLoop rest (write m name bs) (name + bs.length) (count + UInt16.ofNat bs.length) := by
  induction bs generalizing m name count with
  | nil =>
    rw [write_nil, nil_append]
    simp
  | cons c bs ih =>
    have hc46 : c ≠ 46 := fun h => hdot (h ▸ mem_cons_self)
    have hc47 : c ≠ 47 := fun h => hslash (h ▸ mem_cons_self)
    have hcount : count + 1 + UInt16.ofNat bs.length = count + UInt16.ofNat (bs.length + 1) := by
      rw [UInt16.ofNat_add]
      grind
    rw [cons_append, buildLoop, if_neg hc47, if_neg hc46, ih _ _ (fun h => hdot (mem_cons_of_mem _ h))
      (fun h => hslash (mem_cons_of_mem _ h)), hcount, length_cons, write_cons m name c bs, add_assoc name, add_comm 1]

/-- The zero behind the last label, and the length in front of it. -/
def buildEnd (r : Mem × ℕ × UInt16) : Mem := write (write r.1 r.2.1 [0]) (r.2.1 - r.2.2.toNat - 1) [r.2.2.toUInt8]

theorem buildQuery_eq (m : Mem) (domain : List UInt8) (id : UInt16) : buildQuery m domain id =
    (write (buildEnd (buildLoop domain (write m 0 (queryHead id)) 13 0)) ((buildLoop domain (write m 0 (queryHead id)) 13 0).2.1 + 1)
      (be16Bytes 1 ++ be16Bytes 1), (buildLoop domain (write m 0 (queryHead id)) 13 0).2.1 + 5) := rfl

theorem count_toNat (h : bs.length ≤ 63) : ((0 : UInt16) + UInt16.ofNat bs.length).toNat = bs.length ∧
    ((0 : UInt16) + UInt16.ofNat bs.length).toUInt8 = UInt8.ofNat bs.length := by
  have htoNat : ((0 : UInt16) + UInt16.ofNat bs.length).toNat = bs.length := by
    rw [UInt16.zero_add, UInt16.toNat_ofNat']
    omega
  refine ⟨htoNat, ?_⟩
  apply UInt8.toNat_inj.mp
  rw [UInt16.toNat_toUInt8, htoNat, UInt8.toNat_ofNat']

/-- What is written while a label is read, once its length is there. -/
theorem write_label (m : Mem) (p : ℕ) (h : bs.length ≤ 63) :
    write (write m (p + 1) bs) (p + 1 + bs.length - ((0 : UInt16) + UInt16.ofNat bs.length).toNat - 1)
      [((0 : UInt16) + UInt16.ofNat bs.length).toUInt8] = write m p (UInt8.ofNat bs.length :: bs) := by
  obtain ⟨hcount, hbyte⟩ := count_toNat h
  have hp : p + 1 + bs.length - bs.length - 1 = p := by omega
  rw [hcount, hbyte, hp]
  exact write_front m p [UInt8.ofNat bs.length] bs

theorem buildEnd_label (m : Mem) (p : ℕ) (h : bs.length ≤ 63) :
    buildEnd (write m (p + 1) bs, p + 1 + bs.length, 0 + UInt16.ofNat bs.length) = write m p (UInt8.ofNat bs.length :: bs ++ [0]) := by
  obtain ⟨hcount, hbyte⟩ := count_toNat h
  have hp : p + 1 + bs.length - bs.length - 1 = p := by omega
  unfold buildEnd
  rw [hcount, hbyte, hp, ← write_append]
  exact write_front m p [UInt8.ofNat bs.length] (bs ++ [0])

theorem buildLoop_label (m : Mem) (p : ℕ) (rest : List UInt8) (hdot : 46 ∉ l.bytes) (hslash : 47 ∉ l.bytes) :
    buildLoop (l.bytes ++ 46 :: rest) m (p + 1) 0 = buildLoop rest (write m p (encodeLabel l)) (p + (encodeLabel l).length + 1) 0 := by
  rw [buildLoop_chars _ _ _ hdot hslash, buildLoop, if_neg (by decide), if_pos rfl, write_label m p l.le, encodeLabel_length]
  congr 1
  omega

theorem encodeLabels_cons (l : DnsLabel) (ls : List DnsLabel) (o : Option (Fin (2 ^ 14))) :
    encodeLabels (l :: ls) o = encodeLabel l ++ encodeLabels ls o := by
  rw [encodeLabels, flatMap_cons, append_assoc]
  rfl

/-- **The labels of a domain** without a slash. -/
theorem buildLoop_domain : ∀ {ls : List DnsLabel} {m : Mem} {p : ℕ}, ls ≠ [] → (∀ l ∈ ls, 46 ∉ l.bytes ∧ 47 ∉ l.bytes) →
    buildEnd (buildLoop (domainText ls) m (p + 1) 0) = write m p (encodeLabels ls none) ∧
      (buildLoop (domainText ls) m (p + 1) 0).2.1 + 1 = p + (encodeLabels ls none).length
  | [], _, _, hne, _ => absurd rfl hne
  | [l], m, p, _, hplain => by
    obtain ⟨hdot, hslash⟩ := hplain l mem_cons_self
    have hloop := buildLoop_chars (m := m) [] (p + 1) 0 hdot hslash
    rw [append_nil] at hloop
    rw [domainText, hloop, buildLoop, encodeLabels_cons, length_append, encodeLabel_length]
    refine ⟨buildEnd_label m p l.le, ?_⟩
    show p + 1 + l.bytes.length + 1 = p + (l.bytes.length + 1 + 1)
    omega
  | l :: l' :: ls, m, p, _, hplain => by
    obtain ⟨hdot, hslash⟩ := hplain l mem_cons_self
    obtain ⟨hmem, hend⟩ := buildLoop_domain (m := write m p (encodeLabel l)) (p := p + (encodeLabel l).length) (cons_ne_nil l' ls)
      fun k hk => hplain k (mem_cons_of_mem _ hk)
    rw [domainText, buildLoop_label m p _ hdot hslash, hmem, hend, encodeLabels_cons l, write_append, length_append, add_assoc]
    exact ⟨rfl, rfl⟩

theorem domainText_cons (l : DnsLabel) (ls : List DnsLabel) : ∃ rest, domainText (l :: ls) = l.bytes ++ rest ∧
    (ls = [] ∧ rest = [] ∨ ls ≠ [] ∧ rest = 46 :: domainText ls) := by
  cases ls with
  | nil => exact ⟨[], (append_nil _).symm, .inl ⟨rfl, rfl⟩⟩
  | cons l' ls => exact ⟨_, rfl, .inr ⟨cons_ne_nil _ _, rfl⟩⟩

/-- A slash in the first label: its length is too small. -/
theorem buildLoop_first_slash (m : Mem) (p : ℕ) (rest : List UInt8) (hdot : 46 ∉ l.bytes) (hslash : 47 ∈ l.bytes) :
    p < (buildLoop (l.bytes ++ rest) m (p + 1) 0).2.1 ∧
      buildEnd (buildLoop (l.bytes ++ rest) m (p + 1) 0) p ≠ UInt8.ofNat l.bytes.length := by
  obtain ⟨xs, ys, hbytes, hxs⟩ := eq_append_cons_of_mem hslash
  have hle := l.le
  have hlt : xs.length < l.bytes.length := by
    rw [hbytes, length_append, length_cons]
    omega
  have hxdot : 46 ∉ xs := by
    intro hm
    refine hdot ?_
    rw [hbytes]
    exact mem_append_left _ hm
  have hloop : buildLoop (l.bytes ++ rest) m (p + 1) 0 = (write m (p + 1) xs, p + 1 + xs.length, 0 + UInt16.ofNat xs.length) := by
    rw [hbytes, append_assoc, buildLoop_chars _ _ _ hxdot hxs, cons_append, buildLoop, if_pos rfl]
  rw [hloop, buildEnd_label m p (by omega), cons_append]
  refine ⟨by dsimp only; omega, ?_⟩
  have hhead := (holds_cons.mp (holds_write m p (UInt8.ofNat xs.length :: (xs ++ [0])))).1
  rw [hhead]
  intro heq
  have hnat := congrArg UInt8.toNat heq
  rw [UInt8.toNat_ofNat', UInt8.toNat_ofNat'] at hnat
  omega

/-- **A slash** ends the label it is in too early. -/
theorem buildLoop_slash {ls : List DnsLabel} {m : Mem} {p : ℕ} (hplain : ∀ l ∈ ls, 46 ∉ l.bytes) (hm : 47 ∈ domainText ls) :
    ∃ i, ∃ h : i < (encodeLabels ls none).length, p + i < (buildLoop (domainText ls) m (p + 1) 0).2.1 ∧
      buildEnd (buildLoop (domainText ls) m (p + 1) 0) (p + i) ≠ (encodeLabels ls none)[i] := by
  induction ls generalizing m p with
  | nil => exact absurd hm not_mem_nil
  | cons l ls ih =>
    obtain ⟨rest, htext, hrest⟩ := domainText_cons l ls
    have hdot := hplain l mem_cons_self
    by_cases hslash : 47 ∈ l.bytes
    · obtain ⟨hlt, hne⟩ := buildLoop_first_slash m p rest hdot hslash
      rw [htext]
      exact ⟨0, Nat.succ_pos _, hlt, hne⟩
    · rw [htext] at hm ⊢
      rcases hrest with ⟨-, rfl⟩ | ⟨-, rfl⟩
      · rw [append_nil] at hm
        exact absurd hm hslash
      · have hls : 47 ∈ domainText ls := by
          rcases mem_append.mp hm with hm | hm
          · exact absurd hm hslash
          · rcases mem_cons.mp hm with h0 | hm
            · exact absurd h0 (by decide)
            · exact hm
        obtain ⟨i, hi, hlt, hne⟩ := ih (m := write m p (encodeLabel l)) (p := p + (encodeLabel l).length)
          (fun k hk => hplain k (mem_cons_of_mem _ hk)) hls
        rw [buildLoop_label m p _ hdot hslash]
        refine ⟨(encodeLabel l).length + i, ?_, by omega, ?_⟩
        · rw [encodeLabels_cons, length_append]
          omega
        · rw [← add_assoc]
          simp only [encodeLabels_cons]
          rw [getElem_append_right (Nat.le_add_right _ _)]
          simpa using hne

theorem domainText_length : ∀ {ls : List DnsLabel}, ls ≠ [] → (encodeLabels ls none).length = (domainText ls).length + 2
  | [], hne => absurd rfl hne
  | [l], _ => by
    rw [encodeLabels_cons, length_append, encodeLabel_length, domainText]
    rfl
  | l :: l' :: ls, _ => by
    have ih := domainText_length (cons_ne_nil l' ls)
    rw [encodeLabels_cons, length_append, encodeLabel_length, ih, domainText, length_append, length_cons]
    omega

theorem slash_domainText (h : 47 ∉ domainText ls) : ∀ l ∈ ls, 47 ∉ l.bytes := by
  induction ls with
  | nil => exact fun l hl => absurd hl not_mem_nil
  | cons l ls ih =>
    obtain ⟨rest, htext, hrest⟩ := domainText_cons l ls
    rw [htext, mem_append, not_or] at h
    intro k hk
    rcases mem_cons.mp hk with rfl | hk
    · exact h.1
    · rcases hrest with ⟨rfl, -⟩ | ⟨-, rfl⟩
      · exact absurd hk not_mem_nil
      · exact ih (fun hm => h.2 (mem_cons_of_mem _ hm)) k hk

/-- **A query has the name of its domain** exactly if there is no slash, and room. -/
theorem built_iff (d : Domain) (m : Mem) (id : UInt16) : Built d (buildQuery m (domainText d.labels) id) ↔ Fits d := by
  rw [buildQuery_eq]
  have hlen : (encodeName d.name).length = (domainText d.labels).length + 2 := domainText_length d.ne
  by_cases hslash : 47 ∈ domainText d.labels
  · refine ⟨fun h => ?_, fun h => absurd hslash h.1⟩
    obtain ⟨i, hi, hlt, hne⟩ := buildLoop_slash (m := write m 0 (queryHead id)) (p := 12) (fun l hl => (d.plain l hl).1) hslash
    have hbyte := h.name i hi
    dsimp only at hbyte
    have hfront : 12 + i < (buildLoop (domainText d.labels) (write m 0 (queryHead id)) 13 0).2.1 + 1 := Nat.lt_succ_of_lt hlt
    rw [write_lt hfront] at hbyte
    exact absurd hbyte hne
  · obtain ⟨hmem, hend⟩ := buildLoop_domain (m := write m 0 (queryHead id)) (p := 12) d.ne
      fun l hl => ⟨(d.plain l hl).1, slash_domainText hslash l hl⟩
    have hsize : (buildLoop (domainText d.labels) (write m 0 (queryHead id)) 13 0).2.1 + 5 = (domainText d.labels).length + 18 := by
      have hend' : (buildLoop (domainText d.labels) (write m 0 (queryHead id)) 13 0).2.1 + 1 = 12 + (encodeName d.name).length := hend
      omega
    constructor
    · rintro ⟨-, hin⟩
      rw [hsize, pkgSize] at hin
      exact ⟨hslash, by omega⟩
    · rintro ⟨-, hle⟩
      refine ⟨?_, ?_⟩
      · dsimp only
        rw [hmem, hend]
        exact holds_write_apart (holds_write _ _ _) (.inr (le_refl _))
      · dsimp only
        rw [hsize, pkgSize]
        omega

end Dns
end Vsf
