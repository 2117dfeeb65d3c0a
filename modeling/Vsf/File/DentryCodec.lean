/-
# The entries that `fakefat32_dir_read` makes, and the parser

A short name comes back from its entry (`shortName_shortEntry`). Behind the first entry of a long
name the parser is inside the next one and never comes to the short entry, so it finds the files of
a directory if and only if no name is long (`dirRead_names`). A file without any name is long for
`vsffat_is_LFN`: the count of its pieces starts below 0.
-/
import Mathlib
import Vsf.File.FakeFatDir
import Vsf.File.Dentry

namespace Vsf
namespace FakeFat

open File ByteMem List

/-! ### The characters of a long entry -/

variable {name short : List UInt8} {index : UInt8}

theorem longChars_length : ∀ (n : ℕ) (cs : List UInt8), (longChars n cs).length = 2 * n
  | 0, _ => rfl
  | n + 1, c :: cs => by
    rw [longChars, length_cons, length_cons, longChars_length n cs]
    omega
  | n + 1, [] => by
    rw [longChars, length_cons, length_cons, length_replicate]
    omega

/-- A long entry with its 26 bytes of characters. -/
def longBytes (index sum : UInt8) (chars : List UInt8) : List UInt8 :=
  index :: chars.take 10 ++ [attrLongname, 0, sum] ++ (chars.drop 10).take 12 ++ [0, 0] ++ chars.drop 22

theorem longBytes_units (index sum : UInt8) : ∀ (chars : List UInt8), chars.length = 26 →
    (longBytes index sum chars).length = 32 ∧ LE.get8 (longBytes index sum chars) 0 = index ∧
      LE.get8 (longBytes index sum chars) 11 = attrLongname ∧
      ∀ j (h : j < longUnits.length), LE.get8 (longBytes index sum chars) longUnits[j] = LE.get8 chars (2 * j) ∧
        LE.get8 (longBytes index sum chars) (longUnits[j] + 1) = LE.get8 chars (2 * j + 1)
  | [c0, c1, c2, c3, c4, c5, c6, c7, c8, c9, c10, c11, c12, c13, c14, c15, c16, c17, c18, c19, c20, c21, c22, c23, c24, c25], _ => by
    refine ⟨rfl, rfl, rfl, fun j hj => ?_⟩
    have hj' : j < 13 := hj
    interval_cases j <;> exact ⟨rfl, rfl⟩

theorem longEntry_length (name short : List UInt8) (index : UInt8) : (longEntry name short index).length = 32 :=
  (longBytes_units index (checksum short) _ (longChars_length 13 _)).1

theorem longEntry_head (name short : List UInt8) (index : UInt8) : LE.get8 (longEntry name short index) 0 = index ∧
    LE.get8 (longEntry name short index) 11 = attrLongname :=
  have h := longBytes_units index (checksum short) _ (longChars_length 13 (name.drop (longStart index).toNat))
  ⟨h.2.1, h.2.2.1⟩

/-- The byte that the parser takes for the first of the next entry: the upper half of a character. -/
theorem longEntry_high (short : List UInt8) (h : (longStart index).toNat + 4 ≤ name.length) : LE.get8 (longEntry name short index) 8 = 0 := by
  have hlen : 4 ≤ (name.drop (longStart index).toNat).length := by
    rw [length_drop]
    omega
  unfold longEntry
  match name.drop (longStart index).toNat, hlen with
  | _ :: _ :: _ :: _ :: _, _ => rfl

/-! ### The pieces of a long name -/

/-- The pieces `n` to 1. -/
def pieces (name short : List UInt8) : ℕ → List (List UInt8)
  | 0 => []
  | n + 1 => longEntry name short (UInt8.ofNat (n + 1)) :: pieces name short n

/-- All pieces of a long name, the last of which has the flag. -/
def allPieces (name short : List UInt8) : ℕ → List (List UInt8)
  | 0 => []
  | n + 1 => longEntry name short (UInt8.ofNat (0x40 + (n + 1))) :: pieces name short n

theorem pieces_length (name short : List UInt8) : ∀ n, (pieces name short n).length = n
  | 0 => rfl
  | n + 1 => congrArg (· + 1) (pieces_length name short n)

theorem index_facts : ∀ n < 15, longNext (UInt8.ofNat (n + 1)) = UInt8.ofNat n ∧ longNext (UInt8.ofNat (0x40 + (n + 1))) = UInt8.ofNat n ∧
    UInt8.ofNat (n + 1) ≠ 0 ∧ UInt8.ofNat (0x40 + (n + 1)) ≠ 0 ∧ (longStart (UInt8.ofNat (n + 1))).toNat = 13 * n ∧
    (longStart (UInt8.ofNat (0x40 + (n + 1)))).toNat = 13 * n := by
  decide

variable {page : UInt32} {k n : ℕ} {cs : List UInt8} {c : UInt8}

theorem toNat_sub_32 (h : 32 * (k + 1) ≤ page.toNat) : (page - 0x20).toNat = page.toNat - 32 := by
  rw [UInt32.toNat_sub_of_le]
  · rfl
  · have h32 : (0x20 : UInt32).toNat = 32 := rfl
    rw [UInt32.le_iff_toNat_le, h32]
    omega

theorem ne_zero_of_le (h : 32 * (k + 1) ≤ page.toNat) : page ≠ 0 := by
  rintro rfl
  rw [UInt32.toNat_zero] at h
  omega

/-! ### The short entry -/

/-- A field of at most `n` characters, filled with spaces. -/
def field (n : ℕ) (cs : List UInt8) : List UInt8 := cs ++ List.replicate (n - cs.length) space

theorem field_length (h : cs.length ≤ n) : (field n cs).length = n := by
  rw [field, length_append, length_replicate]
  omega

theorem put_fields {base ext : List UInt8} (hb : base.length ≤ 8) (he : ext.length ≤ 3) :
    LE.put (LE.put (List.replicate 11 space) 0 base) 8 ext = field 8 base ++ field 3 ext := by
  have hbase : LE.put (List.replicate 11 space) 0 base = field 8 base ++ List.replicate 3 space := by
    rw [LE.put, take_zero, nil_append, Nat.zero_add, drop_replicate, field, append_assoc,
      ← replicate_add]
    congr 2
    omega
  have hlen := field_length hb
  rw [hbase, LE.put, take_append_of_le_length (by omega), take_of_length_le (by omega), drop_append,
    drop_of_length_le (by omega), nil_append, hlen, drop_replicate, append_assoc]
  have hrest : 3 - (8 + ext.length - 8) = 3 - ext.length := by omega
  rw [hrest]
  rfl

theorem toUpper_table : ∀ n < 256, (toUpper (UInt8.ofNat n) = space ↔ UInt8.ofNat n = space) ∧
    (n < 128 → n ≠ 0 → toUpper (UInt8.ofNat n) ≠ 0 ∧ toUpper (UInt8.ofNat n) ≠ 0xE5) ∧
    (isUpper (UInt8.ofNat n) = false → toLower (toUpper (UInt8.ofNat n)) = UInt8.ofNat n) := by
  decide +kernel

theorem toUpper_eq_space : toUpper c = space ↔ c = space := by
  have h := (toUpper_table c.toNat c.toNat_lt).1
  rwa [UInt8.ofNat_toNat] at h

theorem toUpper_ascii (h0 : c ≠ 0) (h : c < 128) : toUpper c ≠ 0 ∧ toUpper c ≠ 0xE5 := by
  have htable := (toUpper_table c.toNat c.toNat_lt).2.1 (UInt8.lt_iff_toNat_lt.mp h) fun h => h0 (UInt8.toNat_inj.mp h)
  rwa [UInt8.ofNat_toNat] at htable

/-- The upper case letters of a name in lower case are read as they were. -/
theorem toLower_toUpper (h : isUpper c = false) : toLower (toUpper c) = c := by
  have htable := (toUpper_table c.toNat c.toNat_lt).2.2
  rw [UInt8.ofNat_toNat] at htable
  exact htable h

theorem toUpper_of_not_lower (h : isLower c = false) : toUpper c = c := by
  rw [toUpper, h, if_neg Bool.false_ne_true]

/-- The characters of a field come back, in the case that the bit says. -/
theorem nameChars_field (lower : Bool) (hs : space ∉ cs)
    (hcase : ∀ c ∈ cs, if lower then isUpper c = false else isLower c = false) :
    nameChars lower (field n (cs.map toUpper)) = cs := by
  have htake : (field n (cs.map toUpper)).takeWhile (· ≠ space) = cs.map toUpper := by
    rw [field, takeWhile_append_of_pos]
    · rw [takeWhile_replicate]
      simp
    · intro c hc
      obtain ⟨d, hd, rfl⟩ := mem_map.mp hc
      have hne : d ≠ space := fun h => hs (h ▸ hd)
      simpa [toUpper_eq_space] using hne
  rw [nameChars, htake, map_map]
  refine (map_congr_left fun c hc => ?_).trans (map_id cs)
  have hc' := hcase c hc
  cases lower with
  | true => exact toLower_toUpper hc'
  | false => exact toUpper_of_not_lower hc'

/-- A text with letters of one case: the first letter tells which. -/
theorem single_case (h : (cs.any isLower && cs.any isUpper) = false) :
    ∀ c ∈ cs, if isLower (findFirstAlphabet cs) then isUpper c = false else isLower c = false := by
  intro c hc
  rw [findFirstAlphabet]
  cases hfind : cs.find? isAlpha with
  | none =>
    have hnone := find?_eq_none.mp hfind c hc
    rw [isAlpha, Bool.not_eq_true, Bool.or_eq_false_iff] at hnone
    rw [Option.getD_none, if_neg (by decide)]
    exact hnone.1
  | some a =>
    have ha := mem_of_find?_eq_some hfind
    have halpha := find?_some hfind
    rw [Option.getD_some]
    split_ifs with hl
    · have hany : cs.any isLower = true := any_eq_true.mpr ⟨a, ha, hl⟩
      rw [hany, Bool.true_and] at h
      exact Bool.not_eq_true _ ▸ fun hu => Bool.eq_false_iff.mp h (any_eq_true.mpr ⟨c, hc, hu⟩)
    · rw [isAlpha, Bool.or_eq_true] at halpha
      have hany : cs.any isUpper = true := any_eq_true.mpr ⟨a, ha, halpha.resolve_left hl⟩
      rw [hany, Bool.and_true] at h
      exact Bool.not_eq_true _ ▸ fun hlc => Bool.eq_false_iff.mp h (any_eq_true.mpr ⟨c, hc, hlc⟩)

/-- An ASCII file name: 8.3 in one case, or long with at most 195 characters. -/
structure GoodName (name : List UInt8) : Prop where
  ascii : ∀ c ∈ name, c ≠ 0 ∧ c < 128
  nonempty : name ≠ []
  form : (∃ base ext, Short base ext ∧ name = base ++ dot :: ext) ∨ isLFN name = true ∧ name.length ≤ 195

theorem GoodName.zero (h : GoodName name) : 0 ∉ name := fun hm => (h.ascii 0 hm).1 rfl

variable {f : Node} {base ext : List UInt8}

theorem getShortname_short (h : Short base ext) :
    getShortname (base ++ dot :: ext) = field 8 (base.map toUpper) ++ field 3 (ext.map toUpper) := by
  have hb := h.base_pos
  have he := h.ext_pos
  have hlen : (base ++ dot :: ext).length = base.length + (ext.length + 1) := by
    rw [length_append, length_cons]
  have hne : ∀ cs : List UInt8, cs.length < 3 → base ++ dot :: ext ≠ cs := by
    rintro cs hcs rfl
    omega
  unfold getShortname
  rw [if_neg (hne dotName (by decide)), if_neg (hne dotdotName (by decide)), getfileext_dot base h.ext_dot, h.isLFN,
    if_neg Bool.false_ne_true, hlen, Nat.add_sub_cancel, take_left, take_of_length_le h.ext_le]
  exact put_fields (by rw [length_map]; exact h.base_le) (by rw [length_map]; exact h.ext_le)

theorem getShortname_long (h : isLFN name = true) : getShortname name =
    field 8 ((name.take 6).map toUpper ++ [tilde, one]) ++ field 3 (((getfileext name).take 3).map toUpper) := by
  have h1 : name ≠ dotName := by
    rintro rfl
    exact absurd h (by decide)
  have h2 : name ≠ dotdotName := by
    rintro rfl
    exact absurd h (by decide)
  unfold getShortname
  rw [if_neg h1, if_neg h2, if_pos h]
  refine put_fields ?_ ?_
  · simp only [length_append, length_map, length_take, length_cons, length_nil]
    omega
  · rw [length_map, length_take]
    omega

theorem field_ne_zero (h : 0 ∉ cs) : 0 ∉ field n cs := by
  intro hm
  rcases mem_append.mp hm with hm | hm
  · exact h hm
  · exact absurd (eq_of_mem_replicate hm) (by decide)

theorem GoodName.upper_ne_zero (h : GoodName name) {cs : List UInt8} (hcs : ∀ c ∈ cs, c ∈ name) : 0 ∉ cs.map toUpper := by
  intro hm
  obtain ⟨c, hc, h0⟩ := mem_map.mp hm
  obtain ⟨hne, hlt⟩ := h.ascii c (hcs c hc)
  exact (toUpper_ascii hne hlt).1 h0

theorem extLoop_subset : ∀ (cs e : List UInt8), ∀ c ∈ extLoop e cs, c ∈ e ∨ c ∈ cs
  | [], _, _, h => .inl h
  | d :: cs, e, c, h => by
    unfold extLoop at h
    split_ifs at h
    · exact (extLoop_subset cs cs c h).elim (fun h => .inr (mem_cons_of_mem _ h)) fun h => .inr (mem_cons_of_mem _ h)
    · exact (extLoop_subset cs e c h).imp id (mem_cons_of_mem _)

theorem GoodName.short_ne_zero (h : GoodName name) : 0 ∉ getShortname name := by
  rcases h.form with ⟨base, ext, hs, rfl⟩ | ⟨hl, _⟩
  · rw [getShortname_short hs]
    intro hm
    rcases mem_append.mp hm with hm | hm
    · exact field_ne_zero (h.upper_ne_zero fun c hc => mem_append_left _ hc) hm
    · exact field_ne_zero (h.upper_ne_zero fun c hc => mem_append_right _ (mem_cons_of_mem _ hc)) hm
  · rw [getShortname_long hl]
    intro hm
    rcases mem_append.mp hm with hm | hm
    · refine field_ne_zero (fun hm => ?_) hm
      rcases mem_append.mp hm with hm | hm
      · exact h.upper_ne_zero (fun c hc => mem_of_mem_take hc) hm
      · exact absurd hm (by decide)
    · refine field_ne_zero (h.upper_ne_zero fun c hc => ?_) hm
      exact (extLoop_subset name name c (mem_of_mem_take hc)).elim id id

theorem GoodName.short_spec (h : GoodName name) : (getShortname name).length = 11 ∧
    LE.get8 (getShortname name) 0 = toUpper (name.headD 0) := by
  rcases h.form with ⟨base, ext, hs, rfl⟩ | ⟨hl, _⟩
  · have hb := hs.base_le
    have he := hs.ext_le
    rw [getShortname_short hs, length_append, field_length (by rwa [length_map]), field_length (by rwa [length_map])]
    refine ⟨rfl, ?_⟩
    match base, hs.base_pos with
    | c :: base, _ => rfl
  · rw [getShortname_long hl, length_append, field_length, field_length]
    · refine ⟨rfl, ?_⟩
      match name, h.nonempty with
      | c :: cs, _ => rfl
    · rw [length_map, length_take]
      omega
    · simp only [length_append, length_map, length_take, length_cons, length_nil]
      omega

theorem recordBytes_length (r : Record) : (recordBytes r).length = 15 := rfl

/-- What stands behind the short name in its entry. -/
def shortRest (f : Node) : List UInt8 :=
  [f.attr, if isLFN f.name then 0 else ntAttr f.name] ++ (recordBytes f.record ++ LE.bytes32 (if f.isDir then 0 else f.size.toUInt32))

theorem shortEntry_eq (f : Node) : shortEntry f = getShortname f.name ++ shortRest f := by
  simp only [shortEntry, shortRest, append_assoc]

theorem shortRest_length (f : Node) : (shortRest f).length = 21 := rfl

theorem get8_shortEntry (hlen : (getShortname f.name).length = 11) (i : ℕ) : LE.get8 (shortEntry f) (11 + i) = LE.get8 (shortRest f) i := by
  have h11 := LE.get8_append_right (getShortname f.name) (shortRest f) i
  rwa [hlen, ← shortEntry_eq] at h11

theorem shortOk_of_name (hlen : (getShortname f.name).length = 11) (hzero : 0 ∉ getShortname f.name)
    (hlive : LE.get8 (getShortname f.name) 0 ≠ 0xE5) (hlong : f.attr ≠ attrLongname) (hlabel : f.attr ≠ attrVolumid) :
    ShortOk (shortEntry f) := by
  have hattr : LE.get8 (shortEntry f) 11 = f.attr := get8_shortEntry hlen 0
  have hfirst : LE.get8 (shortEntry f) 0 = LE.get8 (getShortname f.name) 0 := by
    rw [shortEntry_eq, LE.get8_append_left (by omega)]
  have hmem : LE.get8 (getShortname f.name) 0 ∈ getShortname f.name := by
    rw [LE.get8, getD_eq_getElem _ _ (by omega)]
    exact getElem_mem _
  refine ⟨?_, ?_, hfirst ▸ hlive, ?_, hattr ▸ hlong, hattr ▸ hlabel⟩
  · rw [shortEntry_eq, length_append, hlen, shortRest_length]
  · rw [hfirst]
    exact fun h => hzero (h ▸ hmem)
  · rw [shortEntry_eq, take_left' hlen]
    exact hzero

/-- **The short entry of a file is one for the parser.** -/
theorem shortOk_shortEntry (h : GoodName f.name) (hlong : f.attr ≠ attrLongname) (hlabel : f.attr ≠ attrVolumid) :
    ShortOk (shortEntry f) := by
  obtain ⟨hlen, hhead⟩ := h.short_spec
  obtain ⟨c, cs, hname⟩ := exists_cons_of_ne_nil h.nonempty
  obtain ⟨hc0, hc⟩ := h.ascii c (hname ▸ mem_cons_self)
  rw [hname, headD_cons, ← hname] at hhead
  exact shortOk_of_name hlen h.short_ne_zero (hhead ▸ (toUpper_ascii hc0 hc).2) hlong hlabel

/-- **A name of the form 8.3 comes back from its short entry.** -/
theorem shortName_shortEntry (hs : Short base ext) (hname : f.name = base ++ dot :: ext) : shortName (shortEntry f) = f.name := by
  have hb := hs.base_le
  have he := hs.ext_le
  have hfields : getShortname f.name = field 8 (base.map toUpper) ++ field 3 (ext.map toUpper) := by
    rw [hname, getShortname_short hs]
  have h8 : (field 8 (base.map toUpper)).length = 8 := field_length (by rwa [length_map])
  have h3 : (field 3 (ext.map toUpper)).length = 3 := field_length (by rwa [length_map])
  have hlfn : isLFN f.name = false := hname ▸ hs.isLFN
  have hsplit : shortEntry f = field 8 (base.map toUpper) ++ (field 3 (ext.map toUpper) ++ shortRest f) := by
    rw [shortEntry_eq, hfields, append_assoc]
  have hcase : LE.get8 (shortEntry f) 12 = ntAttr f.name := by
    rw [hsplit, show 12 = (field 8 (base.map toUpper)).length + 4 by rw [h8], LE.get8_append_right,
      show 4 = (field 3 (ext.map toUpper)).length + 1 by rw [h3], LE.get8_append_right]
    rw [show LE.get8 (shortRest f) 1 = if isLFN f.name then 0 else ntAttr f.name from rfl, hlfn, if_neg Bool.false_ne_true]
  have hbits : ∀ a b : Bool, decide ((((if a then 0x08 else 0) ||| (if b then 0x10 else 0) : UInt8) &&& 0x08) ≠ 0) = a ∧
      decide ((((if a then 0x08 else 0) ||| (if b then 0x10 else 0) : UInt8) &&& 0x10) ≠ 0) = b := by
    decide
  obtain ⟨hbit8, hbit10⟩ := hbits (isLower (findFirstAlphabet f.name)) (isLower (findFirstAlphabet (getfileext f.name)))
  have hsingle := single_case (hname ▸ hs.single : (f.name.any isLower && f.name.any isUpper) = false)
  have hsingleExt : (ext.any isLower && ext.any isUpper) = false := by
    have hmem : ∀ c ∈ ext, c ∈ base ++ dot :: ext := fun c hc => mem_append_right _ (mem_cons_of_mem _ hc)
    rcases Bool.and_eq_false_iff.mp hs.single with h | h
    · rw [any_eq_false.mpr fun c hc => any_eq_false.mp h c (hmem c hc), Bool.false_and]
    · rw [any_eq_false.mpr fun c hc => any_eq_false.mp h c (hmem c hc), Bool.and_false]
  have hbase : shortBase (shortEntry f) = base := by
    rw [shortBase, hcase, ntAttr, hbit8, hsplit, take_left' h8]
    refine nameChars_field _ hs.base_space fun c hc => ?_
    exact hsingle c (hname ▸ mem_append_left _ hc)
  have hext : shortExt (shortEntry f) = ext := by
    rw [shortExt, hcase, ntAttr, hbit10, hsplit, drop_left' h8, take_left' h3, hname, getfileext_dot base hs.ext_dot]
    exact nameChars_field _ hs.ext_space (single_case hsingleExt)
  have hdot : LE.get8 (shortEntry f) 8 ≠ space := by
    have h8' := LE.get8_append_right (field 8 (base.map toUpper)) (field 3 (ext.map toUpper) ++ shortRest f) 0
    have h3' : LE.get8 (field 3 (ext.map toUpper) ++ shortRest f) 0 = LE.get8 (field 3 (ext.map toUpper)) 0 :=
      LE.get8_append_left (by omega)
    rw [h8, ← hsplit, h3', Nat.add_zero] at h8'
    rw [h8']
    match ext, hs.ext_pos, hs.ext_space with
    | c :: ext, _, hsp =>
      show toUpper c ≠ space
      exact fun h => hsp (toUpper_eq_space.mp h ▸ mem_cons_self)
  rw [shortName, hbase, hext, if_pos hdot, hname]

/-! ### A directory -/

/-- The files of an array. -/
def Files.list : Files → List Node
  | .nil => []
  | .cons f _ next => f :: next.list

/-- A file with a name that is no volume label. -/
structure GoodFile (f : Node) : Prop where
  name : GoodName f.name
  not_long : f.attr ≠ attrLongname
  not_label : f.attr ≠ attrVolumid

/-- The number of pieces of a long name. -/
def pieceNum (name : List UInt8) : ℕ := (name.length + 12) / 13

/-- The pieces of a long name of at most 195 characters. -/
theorem pieceNum_spec (hne : name ≠ []) (hle : name.length ≤ 195) : ∃ n < 15, pieceNum name = n + 1 ∧ 13 * n < name.length ∧
    name.length ≤ 13 * (n + 1) := by
  have hpos : 0 < name.length := length_pos_iff.mpr hne
  refine ⟨pieceNum name - 1, ?_, ?_, ?_, ?_⟩ <;> unfold pieceNum <;> omega

theorem GoodName.long_le (h : GoodName name) (hl : isLFN name = true) : name.length ≤ 195 := by
  rcases h.form with ⟨base, ext, hs, rfl⟩ | ⟨_, hle⟩
  · rw [hs.isLFN] at hl
    exact absurd hl Bool.false_ne_true
  · exact hle

theorem allPieces_length (name short : List UInt8) : ∀ n, (allPieces name short n).length = n
  | 0 => rfl
  | n + 1 => congrArg (· + 1) (pieces_length name short n)

theorem GoodName.not_dots (h : GoodName name) : name ≠ dotName ∧ name ≠ dotdotName := by
  rcases h.form with ⟨base, ext, hs, rfl⟩ | ⟨hl, _⟩
  · have hb := hs.base_pos
    have he := hs.ext_pos
    constructor <;> intro heq <;> have hlen := congrArg List.length heq <;>
      rw [length_append, length_cons] at hlen
    · exact absurd hlen (by rw [show dotName.length = 1 from rfl]; omega)
    · exact absurd hlen (by rw [show dotdotName.length = 2 from rfl]; omega)
  · constructor <;> rintro rfl <;> exact absurd hl (by decide)

theorem pieceNum_le {name : List UInt8} (h : name.length ≤ 255) : pieceNum name ≤ 20 := by
  unfold pieceNum
  omega

theorem longname_num (h : f.name.length ≤ 255) : ((calcLongnameLen f + 12) / 13).toNat = pieceNum f.name := by
  have h12 : (12 : UInt32).toNat = 12 := rfl
  have h13 : (13 : UInt32).toNat = 13 := rfl
  rw [calcLongnameLen, UInt32.toNat_div, UInt32.toNat_add, UInt32.toNat_ofNat', h12, h13, pieceNum]
  omega

theorem longNum_piece (h : f.name.length ≤ 255) : longNum f = UInt8.ofNat (pieceNum f.name) := by
  apply UInt8.toNat_inj.mp
  rw [longNum, UInt32.toNat_toUInt8, longname_num h, UInt8.toNat_ofNat']

theorem longIndex_zero (h : f.name.length ≤ 255) (hn : n < 15) (hnum : pieceNum f.name = n + 1) :
    longIndex f 0 = UInt8.ofNat (0x40 + (n + 1)) := by
  have hall : ∀ n < 15, (if UInt8.ofNat (n + 1) ≥ 0x40 then 0x3F else UInt8.ofNat (n + 1)) ||| 0x40 = UInt8.ofNat (0x40 + (n + 1)) := by
    decide
  rw [longIndex, longNum_piece h, hnum, if_pos rfl]
  exact hall n hn

theorem fixRecord_same (dir : Node) (up : List Node) (f : Node) : (fixRecord dir up f).name = f.name ∧
    (fixRecord dir up f).attr = f.attr := by
  unfold fixRecord
  split_ifs
  · exact ⟨rfl, rfl⟩
  · split <;> exact ⟨rfl, rfl⟩
  · exact ⟨rfl, rfl⟩

theorem dirEntries_short (dir : Node) (up : List Node) (child next : Files) {page : UInt32} (hlabel : f.attr ≠ attrVolumid)
    (hl : isLFN f.name = false) (hpage : page ≠ 0) : dirEntries dir up page 0 (.cons f child next) =
      (shortEntry (fixRecord dir up f) ++ (dirEntries dir up (page - 0x20) 0 next).1,
        .cons (fixRecord dir up f) child (dirEntries dir up (page - 0x20) 0 next).2) := by
  rw [dirEntries, if_neg hpage, if_neg hlabel]
  simp only [hl, (fixRecord_same dir up f).1, Bool.false_eq_true, if_false, false_and, nil_append]

/-! ### What the parser finds -/

/-- An ASCII file name, 8.3 in one case or long with at most 195 characters, of a file that is no label. -/
structure CodecFile (f : Node) : Prop where
  ascii : ∀ c ∈ f.name, c ≠ 0 ∧ c < 128
  form : (∃ base ext, Short base ext ∧ f.name = base ++ dot :: ext) ∨ isLFN f.name = true ∧ f.name.length ≤ 195
  not_long : f.attr ≠ attrLongname
  not_label : f.attr ≠ attrVolumid

/-- The entries of a file. Without any name it has 128 pieces: their count starts at 0 and goes down. -/
def entryNum (f : Node) : ℕ := if isLFN f.name then (if f.name = [] then 128 else pieceNum f.name) + 1 else 1

def dirCount (fs : List Node) : ℕ := (fs.map entryNum).sum

/-- What is to be found in the entries of some files: each name, at the short entry. -/
def dirFound : ℕ → List Node → List Found
  | _, [] => []
  | e, f :: fs => ⟨f.name, e + 32 * (entryNum f - 1), shortEntry f⟩ :: dirFound (e + 32 * entryNum f) fs

theorem CodecFile.dotted (h : CodecFile f) (hl : isLFN f.name = false) : ∃ base ext, Short base ext ∧ f.name = base ++ dot :: ext :=
  h.form.resolve_right fun hlong => absurd (hl.symm.trans hlong.1) (by decide)

theorem CodecFile.good (h : CodecFile f) (hne : f.name ≠ []) : GoodFile f := ⟨⟨h.ascii, hne, h.form⟩, h.not_long, h.not_label⟩

theorem CodecFile.long_le (h : CodecFile f) (hl : isLFN f.name = true) : f.name.length ≤ 195 := by
  rcases h.form with ⟨base, ext, hs, hname⟩ | ⟨_, hle⟩
  · rw [hname, hs.isLFN] at hl
    exact absurd hl (by decide)
  · exact hle

theorem longEntries_cons (hpage : page ≠ 0) (hindex : index ≠ 0) (fuel : ℕ) : longEntries name short (fuel + 1) page index =
    (longEntry name short index ++ (longEntries name short fuel (page - 0x20) (longNext index)).1,
      (longEntries name short fuel (page - 0x20) (longNext index)).2) := by
  rw [longEntries, if_neg (not_or.mpr ⟨hpage, hindex⟩)]

theorem dirEntries_long (dir : Node) (up : List Node) (child next : Files) {page : UInt32} (hlabel : f.attr ≠ attrVolumid)
    (hl : isLFN f.name = true) (hpage : page ≠ 0) (hindex : longIndex f 0 ≠ 0) :
    ∃ rest, (dirEntries dir up page 0 (.cons f child next)).1 = longEntry f.name (getShortname f.name) (longIndex f 0) ++ rest ∧
      (page - 0x20 ≠ 0 → longNext (longIndex f 0) ≠ 0 →
        ∃ rest', rest = longEntry f.name (getShortname f.name) (longNext (longIndex f 0)) ++ rest') := by
  generalize hr : longEntries f.name (getShortname f.name) 255 (page - 0x20) (longNext (longIndex f 0)) = r
  have hfirst : longEntries f.name (getShortname f.name) 256 page (longIndex f 0) =
      (longEntry f.name (getShortname f.name) (longIndex f 0) ++ r.1, r.2) := by
    rw [longEntries_cons hpage hindex, hr]
  have hsecond : page - 0x20 ≠ 0 → longNext (longIndex f 0) ≠ 0 →
      ∃ rest', r.1 = longEntry f.name (getShortname f.name) (longNext (longIndex f 0)) ++ rest' := by
    intro hpage' hnext
    rw [← hr, longEntries_cons hpage' hnext]
    exact ⟨_, rfl⟩
  rw [dirEntries, if_neg hpage, if_neg hlabel, if_pos hl]
  dsimp only
  rw [hfirst]
  by_cases hroom : r.2 = 0
  · rw [if_pos ⟨hl, hroom⟩]
    exact ⟨r.1, rfl, hsecond⟩
  · rw [if_neg fun h => hroom h.2]
    refine ⟨_, by rw [append_assoc, append_assoc], fun h1 h2 => ?_⟩
    obtain ⟨rest', hrest⟩ := hsecond h1 h2
    rw [hrest, append_assoc]
    exact ⟨_, rfl⟩

/-! ### A directory without long names, and one with -/

/-- `k` bytes at `a` are `b`, with zeros behind it. -/
def Filled (m : Mem) (a k : ℕ) (b : List UInt8) : Prop := ∀ i < k, m (a + i) = LE.get8 b i

variable {m m0 : Mem} {a e fn top fuel : ℕ} {fs : List Node}

theorem Filled.append {b b' : List UInt8} (h : Filled m a k (b ++ b')) (hle : b.length ≤ k) :
    Holds m a b ∧ Filled m (a + b.length) (k - b.length) b' := by
  refine ⟨fun i hi => ?_, fun i hi => ?_⟩
  · rw [h i (by omega), LE.get8_append_left hi, LE.get8, getD_eq_getElem _ _ hi]
  · rw [add_assoc, h (b.length + i) (by omega), LE.get8_append_right]

theorem filled_of_holds {b : List UInt8} (h : Holds m a ((b ++ List.replicate k 0).take k)) : Filled m a k b := by
  intro i hi
  have hlen : i < ((b ++ List.replicate k 0).take k).length := by
    rw [length_take, length_append, length_replicate]
    omega
  rw [h i hlen, getElem_take, LE.get8]
  by_cases hb : i < b.length
  · rw [getElem_append_left hb, getD_eq_getElem _ _ hb]
  · rw [getElem_append_right (not_lt.mp hb), getElem_replicate, getD_eq_default _ _ (not_lt.mp hb)]

theorem dirCount_cons (f : Node) (fs : List Node) : dirCount (f :: fs) = entryNum f + dirCount fs := by
  simp [dirCount]

/-- The parser does not find a file with a long name: behind the first entry it is in the second one. -/
theorem parseLoop_long (dir : Node) (up : List Node) (child next : Files) {page : UInt32} (h : CodecFile f) (hl : isLFN f.name = true)
    (hpage : 32 * entryNum f ≤ page.toNat) (hm0 : Filled m0 e page.toNat (dirEntries dir up page 0 (.cons f child next)).1)
    (hag : Agree m m0 e top) (htop : e + page.toNat ≤ top) (hfn : Apart fn 196 e top) {d : Dparser} {lfn : UInt8}
    (hrun : parseLoop fn n m e lfn = (true, d)) : d.entry ≠ e + 32 * (entryNum f - 1) := by
  have hnum : entryNum f = (if f.name = [] then 128 else pieceNum f.name) + 1 := if_pos hl
  rw [hnum, Nat.add_sub_cancel]
  rw [hnum] at hpage
  have hp0 : page ≠ 0 := ne_zero_of_le (k := 0) (by omega)
  -- behind the first entry
  have hfirst : longIndex f 0 ≠ 0 → longIndex f 0 ≠ 0xE5 → ∃ k, n = k + 1 ∧ m e = longIndex f 0 ∧
      parseLoop fn n m e lfn = parseLoop fn k (parseLong m e fn) (e + 40) (longIndex f 0 &&& 0x0F) := by
    intro h0 h1
    obtain ⟨rest, hrest, -⟩ := dirEntries_long dir up child next h.not_label hl hp0 h0
    rw [hrest] at hm0
    obtain ⟨hbyte, hattr⟩ := longEntry_head f.name (getShortname f.name) (longIndex f 0)
    obtain ⟨hentry, -⟩ := hm0.append (by rw [longEntry_length]; omega)
    have hm : Holds m e (longEntry f.name (getShortname f.name) (longIndex f 0)) :=
      (hag.holds (by rw [longEntry_length]; omega)).mpr hentry
    have hme : m e = longIndex f 0 := (Holds.head hm (by rw [longEntry_length]; decide)).trans hbyte
    have hma : m (e + 11) = attrLongname := (Holds.get8 hm (by rw [longEntry_length]; decide)).trans hattr
    cases n with
    | zero => cases hrun
    | succ k => exact ⟨k, rfl, hme, by rw [parseLoop_piece (hme ▸ h0) (hme ▸ h1) hma, hme]⟩
  by_cases hname : f.name = []
  · have hindex : longIndex f 0 = 0x40 := by
      rw [longIndex, longNum, calcLongnameLen, hname]
      rfl
    obtain ⟨k, rfl, -, hnext⟩ := hfirst (by rw [hindex]; decide) (by rw [hindex]; decide)
    rw [hnext] at hrun
    obtain ⟨j, hj⟩ := parseLoop_entry _ _ _ _ _ hrun
    rw [if_pos hname]
    omega
  obtain ⟨p, hp, hpieces, hlo, hhi⟩ := pieceNum_spec hname (h.long_le hl)
  have hindex := longIndex_zero (by omega) hp hpieces
  have hidx : ∀ p < 15, UInt8.ofNat (0x40 + (p + 1)) ≠ 0 ∧ UInt8.ofNat (0x40 + (p + 1)) ≠ 0xE5 ∧
      (((UInt8.ofNat (0x40 + (p + 1)) &&& 0x0F) - 1) * 13).toNat = 13 * p := by
    decide
  obtain ⟨h0, h1, hpos⟩ := hidx p hp
  rw [← hindex] at h0 h1 hpos
  obtain ⟨k, rfl, hme, hnext⟩ := hfirst h0 h1
  rw [hnext] at hrun
  rw [if_neg hname, hpieces] at hpage ⊢
  cases p with
  | zero =>
    obtain ⟨j, hj⟩ := parseLoop_entry _ _ _ _ _ hrun
    omega
  | succ p =>
    -- the byte behind the step is the upper half of a character
    exfalso
    obtain ⟨-, hnext', hne, -⟩ := index_facts (p + 1) hp
    obtain ⟨-, -, hne, -, hstart, -⟩ := index_facts p (by omega)
    rw [← hindex] at hnext'
    obtain ⟨rest, hrest, hsecond⟩ := dirEntries_long dir up child next h.not_label hl hp0 h0
    have hsub := toNat_sub_32 (k := p + 2) hpage
    obtain ⟨rest', rfl⟩ := hsecond (ne_zero_of_le (k := 0) (by omega)) (hnext' ▸ hne)
    rw [hrest] at hm0
    obtain ⟨-, hm1⟩ := hm0.append (by rw [longEntry_length]; omega)
    obtain ⟨hm1, -⟩ := hm1.append (by rw [longEntry_length, longEntry_length]; omega)
    have hhigh : m0 (e + 40) = 0 := by
      rw [longEntry_length] at hm1
      rw [show e + 40 = e + 32 + 8 by omega, Holds.get8 hm1 (by rw [longEntry_length]; decide), hnext']
      exact longEntry_high _ (by omega)
    have hzero : parseLong m e fn (e + 40) = 0 := by
      rw [parseLong_outside m e fn (e + 40), hag (e + 40) (by omega) (by omega), hhigh]
      rw [hme, hpos]
      rcases hfn with hfn | hfn <;> omega
    cases k with
    | zero => cases hrun
    | succ k =>
      rw [parseLoop, if_pos hzero] at hrun
      cases hrun

/-- **The parser finds the files of some entries** exactly if no name is long. -/
theorem parseAll_names (dir : Node) (up : List Node) (hfn : Apart fn 196 a top) : ∀ (fs : Files) (page : UInt32) (e : ℕ) (m : Mem)
    (n fuel : ℕ), (∀ f ∈ fs.list, CodecFile f) → 32 * dirCount fs.list ≤ page.toNat →
    Filled m0 e page.toNat (dirEntries dir up page 0 fs).1 → Agree m m0 e top → a ≤ e → e + page.toNat ≤ top → dirCount fs.list ≤ n →
    32 * n ≤ page.toNat → n < 65536 → n ≤ fuel →
    (List.Forall₂ (Dparser.At fn) (parseAll fuel ⟨m, e, UInt16.ofNat n, 0, fn⟩) (dirFound e fs.list) ↔
      ∀ f ∈ fs.list, isLFN f.name = false)
  | .nil, page, e, m, n, fuel, _, _, hm0, hag, _, htop, _, hroom, hn, _ => by
    have hnil : parseAll fuel ⟨m, e, UInt16.ofNat n, 0, fn⟩ = [] :=
      parseAll_end hn fun hpos => (hag e (le_refl e) (by omega)).trans (hm0 0 (by omega))
    rw [hnil]
    exact ⟨fun _ f hf => absurd hf not_mem_nil, fun _ => List.Forall₂.nil⟩
  | .cons f child next, page, e, m, n, fuel, hgood, hpage, hm0, hag, ha, htop, hcount, hroom, hn, hfuel => by
    have hf := hgood f mem_cons_self
    have hnext : ∀ g ∈ next.list, CodecFile g := fun g hg => hgood g (mem_cons_of_mem _ hg)
    have hlist : (Files.cons f child next).list = f :: next.list := rfl
    rw [hlist, dirCount_cons] at hpage hcount
    rw [hlist, forall_mem_cons, dirFound]
    obtain ⟨fuel, rfl⟩ : ∃ k, fuel = k + 1 := Nat.exists_eq_add_of_le' (by rw [entryNum] at hcount; split_ifs at hcount <;> omega)
    cases hl : isLFN f.name with
    | true =>
      refine ⟨fun h => ?_, fun h => absurd h.1 (by decide)⟩
      exfalso
      cases hrun : parseAll (fuel + 1) ⟨m, e, UInt16.ofNat n, 0, fn⟩ with
      | nil =>
        rw [hrun] at h
        cases h
      | cons d ds =>
        rw [hrun] at h
        have hat := (forall₂_cons.mp h).1
        have hd := parseAll_head hrun
        rw [parseDentry, toNat_ofNat16 hn] at hd
        exact parseLoop_long dir up child next hf hl (by omega) hm0 hag htop (hfn.imp_left fun h => h.trans ha) hd hat.entry
    | false =>
      obtain ⟨base, ext, hs, hname⟩ := hf.dotted hl
      have hone : entryNum f = 1 := by rw [entryNum, hl, if_neg Bool.false_ne_true]
      have hgoodf := hf.good (fun h => by rw [h] at hl; exact absurd hl (by decide))
      have hok := shortOk_shortEntry hgoodf.name hf.not_long hf.not_label
      have hfix : fixRecord dir up f = f := by
        unfold fixRecord
        rw [if_neg hgoodf.name.not_dots.1, if_neg hgoodf.name.not_dots.2]
      have hsub := toNat_sub_32 (k := 0) (show 32 * (0 + 1) ≤ page.toNat by omega)
      rw [dirEntries_short dir up child next hf.not_label hl (ne_zero_of_le (k := 0) (by omega)), hfix] at hm0
      obtain ⟨hentry, hrest⟩ := hm0.append (by rw [hok.length]; omega)
      rw [hok.length] at hrest
      rw [hone] at hpage hcount ⊢
      obtain ⟨k, rfl⟩ := Nat.exists_eq_add_of_le' (show 1 ≤ n by omega)
      have hname13 : Apart fn 13 a top := hfn.part (k := 0) (by omega)
      obtain ⟨d, m', hat, hag', hrun⟩ := parseAll_short hok hentry hag (by omega) (shortSafe_apart (shortEntry f) hname13 ha) hn fuel
      rw [shortName_shortEntry hs hname] at hat
      have ih := parseAll_names dir up hfn next (page - 0x20) (e + 32) m' k fuel hnext (by omega) (by rw [hsub]; exact hrest) hag' (by omega)
        (by omega) (by omega) (by omega) (by omega) (by omega)
      rw [hrun, forall₂_cons, ih]
      exact ⟨fun h => ⟨rfl, h.2⟩, fun h => ⟨hat, h.2⟩⟩

/-- **The entries that `fakefat32_dir_read` makes are read back** exactly if no name is long: then the parser,
with a buffer of its own, finds the files in order. -/
theorem dirRead_names {dir : Node} (up : List Node) {fs : Files} {page : UInt32} (hdir : dir.isDir) (hgood : ∀ f ∈ fs.list, CodecFile f)
    (hpage : 32 * dirCount fs.list ≤ page.toNat) (hm : Holds m e (dirRead dir up fs 0 page).2.1) (hfn : Apart fn 196 e (e + page.toNat))
    (hcount : dirCount fs.list ≤ n) (hroom : 32 * n ≤ page.toNat) (hn : n < 65536) :
    List.Forall₂ (Dparser.At fn) (parseAll n ⟨m, e, UInt16.ofNat n, 0, fn⟩) (dirFound e fs.list) ↔
      ∀ f ∈ fs.list, isLFN f.name = false := by
  have hseek : dirSeek dir up page 0 fs = dirEntries dir up page 0 fs := by
    cases fs with
    | nil => rfl
    | cons f child next => rw [dirSeek, if_pos rfl]
  rw [dirRead, if_pos hdir, hseek] at hm
  exact parseAll_names dir up hfn fs page e m n n hgood hpage (filled_of_holds hm) (fun _ _ _ => rfl) (le_refl e) (le_refl _) hcount
    hroom hn (le_refl n)

/-- A directory with the files `A.TXT` and `b.c`. -/
def twoFiles : Files :=
  .cons ⟨[65, 46, 84, 88, 84], 5, attrReadonly, none, .user none none, 3, default⟩ .nil
    (.cons ⟨[98, 46, 99], 7, 0, none, .user none none, 4, default⟩ .nil .nil)

/-- A directory node. -/
def someDir : Node := ⟨[82], 512, attrDirectory, none, .dir, 2, default⟩

theorem twoFiles_good : ∀ f ∈ twoFiles.list, CodecFile f := by
  intro f hf
  rcases mem_cons.mp hf with rfl | hf
  · exact ⟨by simp, .inl ⟨[65], [84, 88, 84], ⟨by decide, by decide, by decide, by decide, by decide, by decide,
      by decide, by decide, by decide⟩, rfl⟩, by decide, by decide⟩
  · obtain rfl := mem_singleton.mp hf
    exact ⟨by simp, .inl ⟨[98], [99], ⟨by decide, by decide, by decide, by decide, by decide, by decide,
      by decide, by decide, by decide⟩, rfl⟩, by decide, by decide⟩

theorem dirRead_names_two : List.Forall₂ (Dparser.At 128)
    (parseAll 4 ⟨bufMem (dirRead someDir [] twoFiles 0 128).2.1, 0, UInt16.ofNat 4, 0, 128⟩) (dirFound 0 twoFiles.list) :=
  (dirRead_names [] (by decide) twoFiles_good (by decide +kernel) (holds_bufMem _) (.inr (by decide)) (by decide +kernel) (by decide)
    (by decide)).mpr (by decide)

/-- The file `readme`, with one long entry and the short one behind it. -/
def readmeFile : Node := ⟨[114, 101, 97, 100, 109, 101], 5, 0, none, .user none none, 3, default⟩

/-- **The file `readme` is not found**: the parser is 8 bytes behind the start of its short entry. -/
theorem dirRead_readme : isLFN readmeFile.name = true ∧ ¬ List.Forall₂ (Dparser.At 512)
    (parseAll 16 ⟨bufMem (dirRead someDir [] (.cons readmeFile .nil .nil) 0 512).2.1, 0, UInt16.ofNat 16, 0, 512⟩)
    (dirFound 0 [readmeFile]) := by
  have hentries : (parseAll 16 ⟨bufMem (dirRead someDir [] (.cons readmeFile .nil .nil) 0 512).2.1, 0, UInt16.ofNat 16, 0, 512⟩).map
      Dparser.entry = [40] := by
    decide +kernel
  refine ⟨by decide, fun h => ?_⟩
  have hmap : ∀ {ds : List Dparser} {fs : List Found}, List.Forall₂ (Dparser.At 512) ds fs → ds.map Dparser.entry = fs.map Found.entry := by
    intro ds fs h
    induction h with
    | nil => rfl
    | cons hat _ ih => rw [map_cons, map_cons, hat.entry, ih]
  rw [hmap h] at hentries
  exact absurd hentries (by decide)

end FakeFat
end Vsf
