/-
# Well-formed DNS messages

A message has a header, questions, and answers with as much data as their length says.
`vsfip_dns_decode_ans` returns the first address of class IN with 4 bytes (`answers_right`); an
address of another length is not passed over, so the next record is read in the wrong place, unless
it has no data or is the last (`Clean`).
-/
import Mathlib
import Vsf.Net.DnsAnswer

namespace Vsf

open ByteMem CStr Arp Receive Vsf.Frame List Option

/-- A question of a message. -/
structure DnsQuestion where
  name : DnsName
  type : UInt16
  classtype : UInt16

/-- A record of a message. -/
structure DnsRecord where
  name : DnsName
  type : UInt16
  classtype : UInt16
  ttl : UInt32
  data : List UInt8
  data_lt : data.length < 2 ^ 16

/-- A message; `id` is the query's number, `rest` is behind the answers. -/
structure DnsMessage where
  id : UInt16
  flag : UInt16
  questions : List DnsQuestion
  answers : List DnsRecord
  auth : UInt16
  addrrs : UInt16
  rest : List UInt8
  questions_lt : questions.length < 2 ^ 16
  answers_lt : answers.length < 2 ^ 16

namespace Dns

/-! ### Messages -/

def encodeQuestion (q : DnsQuestion) : List UInt8 := encodeName q.name ++ (be16Bytes q.type ++ be16Bytes q.classtype)

/-- A record behind its name. -/
def encodeFields (r : DnsRecord) : List UInt8 :=
  be16Bytes r.type ++ (be16Bytes r.classtype ++ (be32Bytes r.ttl ++ (be16Bytes (UInt16.ofNat r.data.length) ++ r.data)))

def encodeRecord (r : DnsRecord) : List UInt8 := encodeName r.name ++ encodeFields r

def encodeHead (msg : DnsMessage) : List UInt8 :=
  [msg.id.toUInt8, (msg.id >>> 8).toUInt8] ++ (be16Bytes msg.flag ++ (be16Bytes (UInt16.ofNat msg.questions.length) ++
    (be16Bytes (UInt16.ofNat msg.answers.length) ++ (be16Bytes msg.auth ++ be16Bytes msg.addrrs))))

def encodeMessage (msg : DnsMessage) : List UInt8 :=
  encodeHead msg ++ (msg.questions.flatMap encodeQuestion ++ (msg.answers.flatMap encodeRecord ++ msg.rest))

/-- The message is in the buffer. -/
structure Received (m : Mem) (size : UInt16) (msg : DnsMessage) : Prop where
  bytes : Holds m 0 (encodeMessage msg)
  size : size.toNat = (encodeMessage msg).length

/-- A record of class IN and type A. -/
def Address (r : DnsRecord) : Prop := r.classtype = 1 ∧ r.type = 1

instance (r : DnsRecord) : Decidable (Address r) := inferInstanceAs (Decidable (_ ∧ _))

/-- The first address of 4 bytes. -/
def firstAddress (rs : List DnsRecord) : Option DnsRecord := rs.find? fun r => Address r ∧ r.data.length = 4

/-- It is returned, or that there is none. -/
def Right (rs : List DnsRecord) (r : Option Decoded) : Prop :=
  match firstAddress rs with
  | some a => ∃ d, r = some d ∧ d.err = .none ∧ d.ip.size = 4 ∧ addrBytes d.ip.addr = a.data
  | none => ∃ d, r = some d ∧ d.err = .fail

/-- Before the first address of 4 bytes, none of another length before a record, unless empty. -/
def Clean : List DnsRecord → Prop
  | [] => True
  | r :: rs => if Address r ∧ r.data.length = 4 then True else if Address r ∧ r.data.length ≠ 0 then rs = [] else Clean rs

variable {m : Mem} {size : UInt16} {n p : ℕ} {s : Scan} {ip : IpAddr} {r : DnsRecord} {rs : List DnsRecord}

/-! ### A record -/

theorem holds_fields (h : Holds m p (encodeFields r)) :
    be16 m p = r.type ∧ be16 m (p + 2) = r.classtype ∧ (be16 m (p + 8)).toNat = r.data.length ∧ Holds m (p + 10) r.data := by
  have htype := be16_of_holds h
  obtain ⟨-, h2⟩ := holds_append.mp h
  have hclass := be16_of_holds h2
  obtain ⟨-, h4⟩ := holds_append.mp h2
  obtain ⟨-, h8⟩ := holds_append.mp h4
  have hlen := be16_of_holds h8
  obtain ⟨-, h10⟩ := holds_append.mp h8
  refine ⟨htype, hclass, ?_, h10⟩
  have hlt := r.data_lt
  rw [show be16 m (p + 8) = _ from hlen, UInt16.toNat_ofNat']
  omega

theorem encodeFields_length (r : DnsRecord) : (encodeFields r).length = 10 + r.data.length := by
  simp only [encodeFields, length_append, be16Bytes_length, be32Bytes_length]
  omega

theorem addrBytes_load32 (m : Mem) (p : ℕ) : addrBytes (UInt32.ofNat (load32 m p)) = [m p, m (p + 1), m (p + 2), m (p + 3)] := by
  have h0 := (m p).toNat_lt
  have h1 := (m (p + 1)).toNat_lt
  have h2 := (m (p + 2)).toNat_lt
  have h3 := (m (p + 3)).toNat_lt
  have hnat : (UInt32.ofNat (load32 m p)).toNat = load32 m p := by
    rw [UInt32.toNat_ofNat']
    exact Nat.mod_eq_of_lt (load32_lt m p)
  have hbyte : ∀ (k : UInt32) (b : UInt8), load32 m p / 2 ^ (k.toNat % 32) % 256 = b.toNat →
      (UInt32.ofNat (load32 m p) >>> k).toUInt8 = b := by
    intro k b hb
    apply UInt8.toNat_inj.mp
    rw [UInt32.toNat_toUInt8, UInt32.toNat_shiftRight, hnat, Nat.shiftRight_eq_div_pow]
    exact hb
  unfold addrBytes
  have hlow : (UInt32.ofNat (load32 m p)).toUInt8 = m p := by
    apply UInt8.toNat_inj.mp
    rw [UInt32.toNat_toUInt8, hnat]
    unfold load32
    omega
  rw [hlow, hbyte 8 (m (p + 1)), hbyte 16 (m (p + 2)), hbyte 24 (m (p + 3))]
  all_goals
    unfold load32
    simp only [UInt32.reduceToNat, Nat.reduceMod, Nat.reducePow]
    omega

/-! ### Going over a message -/

/-- The bytes are where the scan is, in the message, and counted. -/
structure At (m : Mem) (size : UInt16) (s : Scan) (bs : List UInt8) : Prop where
  holds : Holds m s.pdat bs
  inside : s.pdat + bs.length ≤ size.toNat
  counted : bs.length ≤ s.dsize.toNat
  pos : 1 ≤ s.pdat

variable {xs ys : List UInt8}

theorem At.skip (h : At m size s (xs ++ ys)) : At m size (s.skip xs.length) ys := by
  have hin := h.inside
  have hcount := h.counted
  have hpos := h.pos
  rw [length_append] at hin hcount
  have hpdat : (s.skip xs.length).pdat = s.pdat + xs.length := rfl
  have hdsize := skip_dsize (s := s) (show xs.length ≤ s.dsize.toNat by omega)
  refine ⟨?_, by omega, by omega, by omega⟩
  rw [hpdat]
  exact (holds_append.mp h.holds).2

theorem At.name {name : DnsName} (h : At m size s (encodeName name ++ ys)) :
    ∃ nsize, parseName m size s.pdat = some nsize ∧ nsize.toNat = (encodeName name).length := by
  have hin := h.inside
  rw [length_append] at hin
  have hspan : NameSpan m size s.pdat _ := span_encode (holds_append.mp h.holds).1 (by omega)
  obtain ⟨nsize, hparse, hsize⟩ := parseName_skip hspan h.pos
  exact ⟨nsize, hparse, by omega⟩

/-- **A record behind its name** is passed over if no address, and returned if of 4 bytes, or as far as its
data. -/
theorem answer_record (next : Scan → IpAddr → Option Decoded) (ip : IpAddr) (h : At m size s (encodeFields r ++ ys)) :
    (¬ Address r → answer m size next s ip = next (s.skip (encodeFields r).length) ip) ∧
      (Address r → r.data.length = 4 → ∃ d, answer m size next s ip = some d ∧ d.err = .none ∧ d.ip.size = 4 ∧
        addrBytes d.ip.addr = r.data) ∧
      (Address r → r.data.length ≠ 4 → ∃ ip', answer m size next s ip = next { s with pdat := s.pdat + 10 } ip') := by
  obtain ⟨htype, hclass, hlen, hdata⟩ := holds_fields (holds_append.mp h.holds).1
  have hin := h.inside
  have hcount := h.counted
  have hdlt := s.dsize.toNat_lt
  rw [length_append, encodeFields_length] at hin hcount
  have hten : ¬ s.dsize < 10 := by
    rw [UInt16.lt_iff_toNat_lt]
    simp only [UInt16.reduceToNat]
    omega
  unfold answer
  rw [if_neg hten, response, if_pos (by omega), bind_some]
  dsimp only
  rw [htype, hclass]
  refine ⟨fun hno => ?_, fun haddr hfour => ?_, fun haddr hother => ?_⟩
  · have hsum : (10 + be16 m (s.pdat + 8)).toNat = 10 + r.data.length := by
      rw [UInt16.toNat_add, hlen]
      simp only [UInt16.reduceToNat]
      omega
    rw [if_pos (not_and_or.mp hno), if_neg (by rw [UInt16.lt_iff_toNat_lt]; omega), hsum, encodeFields_length]
  · have h4 : be16 m (s.pdat + 8) = 4 := UInt16.toNat_inj.mp (hlen.trans hfour)
    rw [if_neg (by rw [haddr.1, haddr.2]; decide), if_neg (by omega), if_pos (toUInt32_eq_four.mpr h4), word, if_pos (by omega)]
    refine ⟨_, rfl, rfl, toUInt32_eq_four.mpr h4, ?_⟩
    show addrBytes (UInt32.ofNat (load32 m (s.pdat + 10))) = r.data
    obtain ⟨a, b, c, d, habcd⟩ : ∃ a b c d, r.data = [a, b, c, d] := length_eq_four.mp hfour
    rw [habcd] at hdata
    obtain ⟨ha, h1⟩ := holds_cons.mp hdata
    obtain ⟨hb, h2⟩ := holds_cons.mp h1
    obtain ⟨hc, h3⟩ := holds_cons.mp h2
    obtain ⟨hd, -⟩ := holds_cons.mp h3
    rw [addrBytes_load32, habcd, ha, hb, hc, hd]
  · have h4 : be16 m (s.pdat + 8) ≠ 4 := by
      intro h4
      rw [h4] at hlen
      exact hother hlen.symm
    rw [if_neg (by rw [haddr.1, haddr.2]; decide), if_neg (by omega), if_neg (fun h => h4 (toUInt32_eq_four.mp h))]
    exact ⟨_, rfl⟩

theorem right_cons {o : Option Decoded} (h : ¬ (Address r ∧ r.data.length = 4)) : Right (r :: rs) o ↔ Right rs o := by
  unfold Right firstAddress
  rw [find?_cons_of_neg (by simpa using h)]

/-- **The answers** of a well-formed message. -/
theorem answers_right (h : At m size s (rs.flatMap encodeRecord ++ ys)) (hclean : Clean rs) :
    Right rs (answers m size rs.length s ip) := by
  induction rs generalizing s ip with
  | nil => exact ⟨_, rfl, rfl⟩
  | cons r rs ih =>
    rw [flatMap_cons, encodeRecord, append_assoc, append_assoc] at h
    obtain ⟨nsize, hparse, hnsize⟩ := h.name
    have hfields := h.skip
    rw [length_cons, answers, hparse, bind_some, hnsize]
    obtain ⟨hother, hfour, hodd⟩ := answer_record (answers m size rs.length) ip hfields
    by_cases haddr : Address r
    · by_cases hlen : r.data.length = 4
      · have hfind : firstAddress (r :: rs) = some r := find?_cons_of_pos (by simp [haddr, hlen])
        unfold Right
        rw [hfind]
        exact hfour haddr hlen
      · obtain ⟨ip', heq⟩ := hodd haddr hlen
        rw [right_cons fun h => hlen h.2, heq]
        rw [Clean, if_neg fun h => hlen h.2] at hclean
        by_cases hempty : r.data.length = 0
        · rw [if_neg fun h => h.2 hempty] at hclean
          -- No data: the next record is here, and `dsize` is too large.
          have hrest := hfields.skip
          have hten : (encodeFields r).length = 10 := by rw [encodeFields_length, hempty]
          rw [hten] at hrest
          have hcount := hfields.counted
          rw [length_append] at hcount
          exact ih ⟨hrest.holds, hrest.inside, by dsimp only; omega, hrest.pos⟩ hclean
        · rw [if_pos ⟨haddr, hempty⟩] at hclean
          rw [hclean]
          exact ⟨_, rfl, rfl⟩
    · rw [right_cons fun h => haddr h.1, hother haddr]
      rw [Clean, if_neg fun h => haddr h.1, if_neg fun h => haddr h.1] at hclean
      exact ih hfields.skip hclean

/-- **The questions** are passed over. -/
theorem questions_passed {qs : List DnsQuestion} (h : At m size s (qs.flatMap encodeQuestion ++ ys)) :
    ∃ s', questions m size qs.length s = some (.none, s') ∧ At m size s' ys := by
  induction qs generalizing s with
  | nil => exact ⟨s, rfl, h⟩
  | cons q qs ih =>
    rw [flatMap_cons, encodeQuestion, append_assoc, append_assoc] at h
    obtain ⟨nsize, hparse, hnsize⟩ := h.name
    have hall : nsize.toNat + 4 = (encodeName q.name ++ (be16Bytes q.type ++ be16Bytes q.classtype)).length := by
      rw [length_append, length_append, hnsize]
      rfl
    have hcount := h.counted
    simp only [length_append, be16Bytes_length] at hcount
    rw [length_cons, questions, hparse, bind_some, if_neg (by omega), hall]
    rw [← append_assoc] at h
    exact ih h.skip

theorem received_head {msg : DnsMessage} (h : Received m size msg) : 12 ≤ size.toNat ∧ le16 m 0 = msg.id ∧
    (be16 m 4).toNat = msg.questions.length ∧ (be16 m 6).toNat = msg.answers.length := by
  obtain ⟨hhead, -⟩ := holds_append.mp h.bytes
  have hsize := h.size
  rw [encodeMessage, length_append, show (encodeHead msg).length = 12 from rfl] at hsize
  obtain ⟨hid, hflag⟩ := holds_append.mp hhead
  obtain ⟨-, hques⟩ := holds_append.mp hflag
  obtain ⟨-, hansw⟩ := holds_append.mp hques
  obtain ⟨hlo, hhi⟩ := holds_cons.mp hid
  obtain ⟨hhi, -⟩ := holds_cons.mp hhi
  have hq := msg.questions_lt
  have ha := msg.answers_lt
  refine ⟨by omega, ?_, ?_, ?_⟩
  · apply UInt16.toNat_inj.mp
    rw [le16_toNat, hlo, hhi, toNat_high, UInt16.toNat_toUInt8]
    omega
  · rw [show be16 m 4 = _ from be16_of_holds hques, UInt16.toNat_ofNat']
    omega
  · rw [show be16 m 6 = _ from be16_of_holds hansw, UInt16.toNat_ofNat']
    omega

/-- **Decoding a well-formed message.** -/
theorem decode_right {msg : DnsMessage} (h : Received m size msg) (hclean : Clean msg.answers) (ip : IpAddr) :
    Right msg.answers (decodeAns m size msg.id ip) := by
  obtain ⟨hsize, hid, hqc, hac⟩ := received_head h
  have hsub := UInt16.toNat_sub_of_le size 12 (UInt16.le_iff_toNat_le.mpr hsize)
  have hlen := h.size
  simp only [UInt16.reduceToNat] at hsub
  have hstart : At m size ⟨12, size - 12, false⟩ (msg.questions.flatMap encodeQuestion ++ (msg.answers.flatMap encodeRecord ++ msg.rest)) := by
    rw [encodeMessage, length_append, show (encodeHead msg).length = 12 from rfl] at hlen
    exact ⟨(holds_append.mp h.bytes).2, by dsimp only; omega, by dsimp only; omega, by dsimp only; omega⟩
  obtain ⟨s, hques, hansw⟩ := questions_passed hstart
  unfold decodeAns
  rw [if_neg (by rw [not_or, UInt16.lt_iff_toNat_lt, not_not]; exact ⟨by simp only [UInt16.reduceToNat]; omega, hid⟩)]
  dsimp only
  rw [hqc, hques, bind_some, afterQuestions, hac]
  exact answers_right hansw hclean

/-- **Names and messages**: names' lengths are right, the first address is found if addresses are clean, and
a query has the name of its domain without a slash, and with room. -/
theorem decode_wellformed (m : Mem) :
    (∀ (size : UInt16) (p : ℕ) (name : DnsName), Holds m p (encodeName name) → p + (encodeName name).length ≤ size.toNat →
      ∃ nsize, parseName m size p = some nsize ∧ nsize.toNat = (encodeName name).length) ∧
    (∀ (size : UInt16) (msg : DnsMessage) (ip : IpAddr), Received m size msg → Clean msg.answers →
      Right msg.answers (decodeAns m size msg.id ip)) ∧
    ∀ (d : Domain) (id : UInt16), Built d (buildQuery m (domainText d.labels) id) ↔ Fits d := by
  refine ⟨fun size p name h hin => ⟨_, parseName_encode h hin, ?_⟩, fun size msg ip h hclean => decode_right h hclean ip,
    fun d id => built_iff d m id⟩
  have hsize := size.toNat_lt
  rw [UInt16.toNat_ofNat']
  omega

/-- A pointer to the name of the question. -/
def asked : DnsName := ⟨[], some 12, .inr (by decide)⟩

/-- An answer to a question for `v`, from the first query. -/
def reply (rs : List DnsRecord) (h : rs.length < 2 ^ 16) : DnsMessage :=
  ⟨1, 0x8180, [⟨⟨[⟨[118], by decide, by decide⟩], none, .inl (by decide)⟩, 1, 1⟩], rs, 0, 0, [], by decide, h⟩

/-- Another name for it, and its address. -/
def aliasReply : DnsMessage := reply [⟨asked, 5, 1, 60, [0xC0, 12], by decide⟩, ⟨asked, 1, 1, 60, [10, 0, 0, 1], by decide⟩] (by decide)

/-- An address of 5 bytes, and one of 4. -/
def oddReply : DnsMessage := reply [⟨asked, 1, 1, 60, [0xC0, 0, 0, 0, 0], by decide⟩, ⟨asked, 1, 1, 60, [10, 0, 0, 1], by decide⟩] (by decide)

/-- A message in a buffer. -/
def inBuffer (msg : DnsMessage) : Mem := write (fun _ => 0) 0 (encodeMessage msg)

theorem decode_wellformed_alias : parseName (inBuffer aliasReply) 49 12 = some 3 ∧
    Right aliasReply.answers (decodeAns (inBuffer aliasReply) 49 1 ⟨0, 0⟩) := by
  have hreceived : Received (inBuffer aliasReply) 49 aliasReply := ⟨holds_write _ _ _, by decide⟩
  have hname : Holds (inBuffer aliasReply) 12 (encodeName ⟨[⟨[118], by decide, by decide⟩], none, .inl (by decide)⟩) := by
    obtain ⟨-, hrest⟩ := holds_append.mp hreceived.bytes
    exact (holds_append.mp (holds_append.mp (holds_append.mp hrest).1).1).1
  obtain ⟨nsize, hparse, hsize⟩ := (decode_wellformed (inBuffer aliasReply)).1 49 12 _ hname (by decide)
  refine ⟨?_, (decode_wellformed (inBuffer aliasReply)).2.1 49 aliasReply ⟨0, 0⟩ hreceived (by simp [aliasReply, reply, Clean, Address])⟩
  rw [hparse, Option.some.injEq]
  exact UInt16.toNat_inj.mp hsize

/-- **The address is not found** behind one of another length. -/
theorem decode_loses : ¬ ((∀ (m : Mem) (size : UInt16) (p : ℕ) (name : DnsName), Holds m p (encodeName name) →
      p + (encodeName name).length ≤ size.toNat → ∃ nsize, parseName m size p = some nsize ∧ nsize.toNat = (encodeName name).length) ∧
    (∀ (m : Mem) (size : UInt16) (msg : DnsMessage) (ip : IpAddr), Received m size msg →
      Right msg.answers (decodeAns m size msg.id ip)) ∧
    ∀ (d : Domain) (m : Mem) (id : UInt16), Built d (buildQuery m (domainText d.labels) id)) := by
  rintro ⟨-, hright, -⟩
  have hreceived : Received (inBuffer oddReply) 52 oddReply := ⟨holds_write _ _ _, by decide⟩
  obtain ⟨d, hd, hnone, -⟩ := hright (inBuffer oddReply) 52 oddReply ⟨0, 0⟩ hreceived
  have herr : (decodeAns (inBuffer oddReply) 52 1 ⟨0, 0⟩).map Decoded.err = some .fail := by decide +kernel
  rw [show oddReply.id = 1 from rfl] at hd
  rw [hd, map_some, hnone] at herr
  cases herr

end Dns
end Vsf
