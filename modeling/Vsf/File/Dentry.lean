/-
# Directory entries: `vsffat_parse_dentry_fat`

The parser reads the entries of a directory and writes the name that it finds at `filename`, which
in both callers is the first entry that is parsed. `Item` is what a directory holds, in entries of
32 bytes. Behind a long entry, an erased one and a label the parser goes on 40 bytes further, inside
the next entry. So it finds the files of short entries, one after the other, where no name changes a
byte still to be read (`parseAll_items`).
-/
import Mathlib
import Vsf.Lib.ByteMem
import Vsf.Lib.LittleEndian
import Vsf.File.Name

namespace Vsf
namespace File

open ByteMem Function List

/-! ### The parser -/

/-- `struct vsffat_dentry_parser_t`, with the memory that it points into. -/
structure Dparser where
  mem : Mem
  entry : ℕ
  entryNum : UInt16
  lfn : UInt8
  filename : ℕ

/-- Where the characters of a long entry are. -/
def longUnits : List ℕ := [1, 3, 5, 7, 9, 14, 16, 18, 20, 22, 24, 28, 30]

/-- The loops over the characters of a long entry, up to a 0: the memory, and the next place. -/
def longCopy (entry : ℕ) : List ℕ → Mem → ℕ → Mem × ℕ
  | [], m, ptr => (m, ptr)
  | u :: us, m, ptr =>
    if m (entry + u) = 0 ∧ m (entry + u + 1) = 0 then (m, ptr) else longCopy entry us (update m ptr (m (entry + u))) (ptr + 1)

/-- A long entry. -/
def parseLong (m : Mem) (entry filename : ℕ) : Mem :=
  let index := m entry
  let pos : UInt8 := ((index &&& 0x0F) - 1) * 13
  let r := longCopy entry longUnits m (filename + pos.toNat)
  if index &&& 0xF0 = 0x40 then update r.1 r.2 0 else r.1

/-- The loop over at most `n` characters of a short name or of its extension. -/
def copyName (lower : Bool) : ℕ → Mem → ℕ → ℕ → Mem × ℕ
  | 0, m, _, ptr => (m, ptr)
  | n + 1, m, src, ptr =>
    if m src = space then (m, ptr)
    else copyName lower n (update m ptr (if lower then toLower (m src) else m src)) (src + 1) (ptr + 1)

/-- A short entry. -/
def parseShort (m : Mem) (entry filename : ℕ) : Mem :=
  let r := copyName (m (entry + 12) &&& 0x08 ≠ 0) 8 m entry filename
  let r :=
    if r.1 (entry + 8) ≠ space then
      let m := update r.1 r.2 dot
      copyName (m (entry + 12) &&& 0x10 ≠ 0) 3 m (entry + 8) (r.2 + 1)
    else r
  update r.1 r.2 0

/-- The loop of `vsffat_parse_dentry_fat`; the number of entries counts down. `entry++` goes on by
`sizeof(struct fatfs_dentry_t)`: 40, for what exFAT has in its union, where an entry has 32 bytes. -/
def parseLoop (filename : ℕ) : ℕ → Mem → ℕ → UInt8 → Bool × Dparser
  | 0, m, entry, lfn => (false, ⟨m, entry, 0xFFFF, lfn, filename⟩)
  | n + 1, m, entry, lfn =>
    if m entry = 0 then (false, ⟨m, entry, UInt16.ofNat n, lfn, filename⟩)
    else if m entry ≠ 0xE5 then
      if m (entry + 11) = attrLongname then parseLoop filename n (parseLong m entry filename) (entry + 40) (m entry &&& 0x0F)
      else if m (entry + 11) ≠ attrVolumid then
        if lfn = 1 then (true, ⟨m, entry, UInt16.ofNat n, 0, filename⟩)
        else (true, ⟨parseShort m entry filename, entry, UInt16.ofNat n, 0, filename⟩)
      else parseLoop filename n m (entry + 40) lfn
    else parseLoop filename n m (entry + 40) (if lfn > 0 then 0 else lfn)

/-- `vsffat_parse_dentry_fat`. -/
def parseDentry (d : Dparser) : Bool × Dparser := parseLoop d.filename d.entryNum.toNat d.mem d.entry d.lfn

/-- The parser goes on behind the entry of a file. -/
def Dparser.next (d : Dparser) : Dparser := { d with entry := d.entry + 32 }

/-- The loop of the callers: the parser at each file; `n` bounds their number. -/
def parseAll : ℕ → Dparser → List Dparser
  | 0, _ => []
  | n + 1, d =>
    if d.entryNum = 0 then []
    else
      let r := parseDentry d
      if r.1 then r.2 :: parseAll n r.2.next else []

/-- The memory that is a buffer. -/
def bufMem (b : List UInt8) : Mem := LE.get8 b

theorem holds_bufMem (b : List UInt8) : Holds (bufMem b) 0 b := by
  intro i hi
  rw [zero_add, bufMem, LE.get8, getD_eq_getElem _ _ hi]

/-- The bytes of the entry at `a`. -/
def entryBytes (m : Mem) (a : ℕ) : List UInt8 := (List.range 32).map fun i => m (a + i)

/-! ### What a directory holds -/

/-- The characters of a long entry. -/
def unitChars (b : List UInt8) : List ℕ → List UInt8
  | [] => []
  | u :: us => if LE.get8 b u = 0 ∧ LE.get8 b (u + 1) = 0 then [] else LE.get8 b u :: unitChars b us

/-- The characters of a piece of a long name. -/
def pieceChars (b : List UInt8) : List UInt8 := unitChars b longUnits

/-- The name in the pieces, the last of which comes first. -/
def pieceName : List (List UInt8) → List UInt8
  | [] => []
  | b :: ps => pieceName ps ++ pieceChars b

/-- At most `n` characters of a short name or extension, without the spaces. -/
def nameChars (lower : Bool) (b : List UInt8) : List UInt8 :=
  (b.takeWhile (· ≠ space)).map fun c => if lower then toLower c else c

/-- The name in a short entry. -/
def shortBase (b : List UInt8) : List UInt8 := nameChars (LE.get8 b 12 &&& 0x08 ≠ 0) (b.take 8)

def shortExt (b : List UInt8) : List UInt8 := nameChars (LE.get8 b 12 &&& 0x10 ≠ 0) ((b.drop 8).take 3)

def shortName (b : List UInt8) : List UInt8 :=
  shortBase b ++ if LE.get8 b 8 ≠ space then dot :: shortExt b else []

/-- What a directory holds, each in its entries of 32 bytes. -/
inductive Item
  | skip (b : List UInt8)
  | short (b : List UInt8)
  | long (pieces : List (List UInt8)) (b : List UInt8)

def Item.bytes : Item → List UInt8
  | .skip b => b
  | .short b => b
  | .long pieces b => pieces.flatten ++ b

/-- The number of entries. -/
def Item.num : Item → ℕ
  | .skip _ => 1
  | .short _ => 1
  | .long pieces _ => pieces.length + 1

/-- An erased entry or a volume label. -/
structure SkipOk (b : List UInt8) : Prop where
  length : b.length = 32
  used : LE.get8 b 0 ≠ 0
  passed : LE.get8 b 0 = 0xE5 ∨ LE.get8 b 11 = attrVolumid

/-- The short entry of a file. -/
structure ShortOk (b : List UInt8) : Prop where
  length : b.length = 32
  used : LE.get8 b 0 ≠ 0
  live : LE.get8 b 0 ≠ 0xE5
  chars : 0 ∉ b.take 11
  not_long : LE.get8 b 11 ≠ attrLongname
  not_label : LE.get8 b 11 ≠ attrVolumid

/-- The piece of a long name with the index byte `index`. -/
structure PieceOk (index : UInt8) (b : List UInt8) : Prop where
  length : b.length = 32
  index : LE.get8 b 0 = index
  long : LE.get8 b 11 = attrLongname
  chars : 0 ∉ pieceChars b

/-- The pieces `n` to 1 of a long name, each of them full. -/
def PiecesOk : List (List UInt8) → Prop
  | [] => True
  | b :: ps => PieceOk (UInt8.ofNat (ps.length + 1)) b ∧ (pieceChars b).length = 13 ∧ PiecesOk ps

def Item.Valid : Item → Prop
  | .skip b => SkipOk b
  | .short b => ShortOk b
  | .long [] _ => False
  | .long (b :: ps) s => ps.length < 15 ∧ PieceOk (UInt8.ofNat (0x40 + (ps.length + 1))) b ∧ PiecesOk ps ∧ ShortOk s

/-! ### Names that do not destroy what is still to be read -/

/-- A byte `v` at `x` changes nothing from `a` up to `top`. -/
def Keeps (m : Mem) (a top x : ℕ) (v : UInt8) : Prop := a ≤ x → x < top → m x = v

instance (m : Mem) (a top x : ℕ) (v : UInt8) : Decidable (Keeps m a top x v) := inferInstanceAs (Decidable (_ → _ → _))

/-- The characters of a short name at `src` go to `ptr` without harm. -/
def NameSafe (m : Mem) (top : ℕ) : ℕ → ℕ → List UInt8 → Prop
  | _, _, [] => True
  | src, ptr, c :: cs => Keeps m (src + 1) top ptr c ∧ NameSafe m top (src + 1) (ptr + 1) cs

/-- The name of a short entry changes nothing that is still to be read, up to `top`. -/
structure ShortSafe (m : Mem) (filename top entry : ℕ) (b : List UInt8) : Prop where
  base : NameSafe m top entry filename (shortBase b)
  ext : LE.get8 b 8 ≠ space → Keeps m (entry + 8) top (filename + (shortBase b).length) dot ∧
    NameSafe m top (entry + 8) (filename + (shortBase b).length + 1) (shortExt b)
  zero : Keeps m (entry + 11) top (filename + (shortName b).length) 0

/-- The parser goes from the item to the next: it is a short entry with such a name. -/
def Item.Safe (m : Mem) (filename top entry : ℕ) : Item → Prop
  | .short b => ShortSafe m filename top entry b
  | _ => False

variable {m m0 : Mem} {b : List UInt8} {e top fn n : ℕ} {lfn : UInt8}

theorem Holds.get8 {a i : ℕ} (h : Holds m a b) (hi : i < b.length) : m (a + i) = LE.get8 b i := by
  rw [h i hi, LE.get8, getD_eq_getElem _ _ hi]

theorem Holds.head {a : ℕ} (h : Holds m a b) (hb : 0 < b.length) : m a = LE.get8 b 0 := Holds.get8 (i := 0) h hb

theorem Holds.drop {a k : ℕ} (h : Holds m a b) : Holds m (a + k) (b.drop k) := by
  intro i hi
  rw [getElem_drop, add_assoc, h]

theorem Same.holds {P : ℕ → Prop} {m m' : Mem} {a : ℕ} {bs : List UInt8} (h : Same P m m') (hP : ∀ i < bs.length, ¬ P (a + i))
    (hm : Holds m a bs) : Holds m' a bs := by
  intro i hi
  rw [h (a + i) (hP i hi)]
  exact hm i hi

/-! ### A long entry -/

theorem longCopy_outside : ∀ (us : List ℕ) (m : Mem) (ptr : ℕ), ptr ≤ (longCopy e us m ptr).2 ∧
    (longCopy e us m ptr).2 ≤ ptr + us.length ∧ Same (fun x => ptr ≤ x ∧ x < ptr + us.length) m (longCopy e us m ptr).1
  | [], m, ptr => ⟨le_refl _, le_refl _, Same.refl _ m⟩
  | u :: us, m, ptr => by
    rw [longCopy, length_cons]
    split_ifs
    · exact ⟨le_refl _, by omega, Same.refl _ m⟩
    · obtain ⟨hlo, hhi, hsame⟩ := longCopy_outside us (update m ptr (m (e + u))) (ptr + 1)
      refine ⟨by omega, by omega, fun x hx => ?_⟩
      rw [hsame x (by omega), update_of_ne (by omega)]

theorem parseLong_outside (m : Mem) (e fn : ℕ) : Same (fun x => fn + (((m e &&& 0x0F) - 1) * 13).toNat ≤ x ∧
    x ≤ fn + (((m e &&& 0x0F) - 1) * 13).toNat + 13) m (parseLong m e fn) := by
  obtain ⟨hlo, hhi, hsame⟩ := longCopy_outside (e := e) longUnits m (fn + (((m e &&& 0x0F) - 1) * 13).toNat)
  have hlen : longUnits.length = 13 := rfl
  rw [hlen] at hhi hsame
  intro x hx
  unfold parseLong
  split_ifs
  · rw [update_of_ne (by omega), hsame x (by omega)]
  · exact hsame x (by omega)

theorem parseLoop_piece (h0 : m e ≠ 0) (h1 : m e ≠ 0xE5) (hlong : m (e + 11) = attrLongname) :
    parseLoop fn (n + 1) m e lfn = parseLoop fn n (parseLong m e fn) (e + 40) (m e &&& 0x0F) := by
  rw [parseLoop, if_neg h0, if_pos h1, if_pos hlong]

/-- Up to a file the parser goes on by 40. -/
theorem parseLoop_entry : ∀ (n : ℕ) (m : Mem) (e : ℕ) (lfn : UInt8) (d : Dparser), parseLoop fn n m e lfn = (true, d) →
    ∃ j, d.entry = e + 40 * j
  | 0, _, _, _, _, h => nomatch h
  | n + 1, m, e, lfn, d, h => by
    have hnext : ∀ (m' : Mem) (lfn' : UInt8), parseLoop fn n m' (e + 40) lfn' = (true, d) → ∃ j, d.entry = e + 40 * j := by
      intro m' lfn' h'
      obtain ⟨j, hj⟩ := parseLoop_entry n m' (e + 40) lfn' d h'
      exact ⟨j + 1, by omega⟩
    rw [parseLoop] at h
    split_ifs at h
    · cases h
    · exact hnext _ _ h
    · obtain rfl := (Prod.mk.inj h).2
      exact ⟨0, rfl⟩
    · obtain rfl := (Prod.mk.inj h).2
      exact ⟨0, rfl⟩
    · exact hnext _ _ h
    · exact hnext _ _ h
    · exact hnext _ _ h

/-! ### A short entry -/

theorem copyName_spec (lower : Bool) : ∀ (b : List UInt8) (m : Mem) (src ptr : ℕ), Holds m0 src b → Agree m m0 src top →
    src + b.length ≤ top → NameSafe m0 top src ptr (nameChars lower b) →
    ∃ m', copyName lower b.length m src ptr = (m', ptr + (nameChars lower b).length) ∧ Holds m' ptr (nameChars lower b) ∧
      Same (fun x => ptr ≤ x ∧ x < ptr + (nameChars lower b).length) m m' ∧ Agree m' m0 (src + b.length) top
  | [], m, src, ptr, _, hag, _, _ => ⟨m, rfl, holds_nil m ptr, Same.refl _ m, hag⟩
  | c :: b, m, src, ptr, hm0, hag, htop, hsafe => by
    obtain ⟨hc0, hrest⟩ := holds_cons.mp hm0
    rw [length_cons] at htop ⊢
    have hc : m src = c := (hag src (le_refl _) (by omega)).trans hc0
    by_cases hs : c = space
    · have hnil : nameChars lower (c :: b) = [] := by simp [nameChars, hs]
      rw [hnil]
      refine ⟨m, ?_, holds_nil m ptr, Same.refl _ m, hag.mono (by omega)⟩
      rw [copyName, if_pos (hc.trans hs)]
      rfl
    · have hcons : nameChars lower (c :: b) = (if lower then toLower c else c) :: nameChars lower b := by
        simp [nameChars, hs]
      rw [hcons] at hsafe
      simp only [hcons, length_cons]
      obtain ⟨hkeep, hsafe'⟩ := hsafe
      obtain ⟨m', hcopy, hholds, hsame, hag'⟩ := copyName_spec lower b (update m ptr (if lower then toLower c else c)) (src + 1)
        (ptr + 1) hrest ((hag.mono (by omega)).update hkeep) (by omega) hsafe'
      refine ⟨m', ?_, holds_cons.mpr ⟨?_, hholds⟩, ?_, ?_⟩
      · rw [copyName, hc, if_neg hs, hcopy]
        congr 1
        omega
      · rw [hsame ptr (by omega), update_self]
      · intro x hx
        rw [hsame x (by omega), update_of_ne (by omega)]
      · rwa [show src + (b.length + 1) = src + 1 + b.length by omega]

/-- **The name of a short entry** goes to `filename`; what is behind it stays. -/
theorem parseShort_spec (hb : b.length = 32) (hm0 : Holds m0 e b) (hag : Agree m m0 e top) (htop : e + 32 ≤ top)
    (hsafe : ShortSafe m0 fn top e b) :
    Holds (parseShort m e fn) fn (shortName b ++ [0]) ∧ Agree (parseShort m e fn) m0 (e + 11) top := by
  obtain ⟨hbase, hdot, hend⟩ := hsafe
  have hsplit : b = b.take 8 ++ ((b.drop 8).take 3 ++ b.drop 11) := by
    rw [← drop_drop (i := 3) (j := 8), take_append_drop, take_append_drop]
  have h8 : (b.take 8).length = 8 := by simp [hb]
  have h3 : ((b.drop 8).take 3).length = 3 := by simp [hb]
  have hparts := hm0
  rw [hsplit, holds_append, h8, holds_append] at hparts
  have hget : ∀ {m' : Mem} {k : ℕ}, Agree m' m0 (e + 8) top → 8 ≤ k → k < 32 → m' (e + k) = LE.get8 b k := by
    intro m' k hm' hlo hhi
    rw [hm' (e + k) (by omega) (by omega)]
    exact Holds.get8 hm0 (by omega)
  obtain ⟨m1, hcopy, hholds, hsame, hag1⟩ := copyName_spec (LE.get8 b 12 &&& 0x08 ≠ 0) (b.take 8) m e fn hparts.1 hag
    (by omega) hbase
  have hlen : (nameChars (LE.get8 b 12 &&& 0x08 ≠ 0) (b.take 8)).length = (shortBase b).length := rfl
  rw [h8, hlen] at hcopy
  rw [h8] at hag1
  rw [hlen] at hsame
  have hm18 := hget hag1 (le_refl 8) (by decide)
  unfold parseShort
  rw [hget (hag.mono (Nat.le_add_right e 8)) (by decide) (by decide), hcopy]
  dsimp only
  by_cases hext : LE.get8 b 8 ≠ space
  · obtain ⟨hdotKeep, hextSafe⟩ := hdot hext
    have hag2 : Agree (update m1 (fn + (shortBase b).length) dot) m0 (e + 8) top := hag1.update hdotKeep
    obtain ⟨m3, hcopy3, hholds3, hsame3, hag3⟩ := copyName_spec (LE.get8 b 12 &&& 0x10 ≠ 0) ((b.drop 8).take 3)
      (update m1 (fn + (shortBase b).length) dot) (e + 8) (fn + (shortBase b).length + 1) hparts.2.1 hag2 (by omega) hextSafe
    have hlen3 : (nameChars (LE.get8 b 12 &&& 0x10 ≠ 0) ((b.drop 8).take 3)).length = (shortExt b).length := rfl
    rw [h3, hlen3] at hcopy3
    rw [hlen3] at hsame3
    rw [h3] at hag3
    have hname : shortName b = shortBase b ++ dot :: shortExt b := by rw [shortName, if_pos hext]
    rw [hname] at hend ⊢
    rw [if_pos fun h => hext (hm18.symm.trans h), hget hag2 (by decide) (by decide), hcopy3]
    have hptr : fn + (shortBase b).length + 1 + (shortExt b).length = fn + (shortBase b ++ dot :: shortExt b).length := by
      rw [length_append, length_cons]
      omega
    rw [hptr]
    refine ⟨?_, hag3.update hend⟩
    have hfront : Holds m3 fn (shortBase b ++ dot :: shortExt b) := by
      rw [holds_append, holds_cons]
      refine ⟨?_, ?_, hholds3⟩
      · refine Same.holds hsame3 (fun i hi => by omega) (hholds.update (by rw [hlen]; omega) _)
      · rw [hsame3 _ (by omega), update_self]
    rw [holds_append, holds_cons]
    exact ⟨hfront.update (by omega) _, update_self .., holds_nil _ _⟩
  · have hname : shortName b = shortBase b := by rw [shortName, if_neg hext, append_nil]
    rw [hname] at hend ⊢
    rw [if_neg fun h => hext fun h' => h (hm18.trans h')]
    refine ⟨?_, (hag1.mono (by omega)).update hend⟩
    rw [holds_append, holds_cons]
    exact ⟨hholds.update (by rw [hlen]; omega) _, update_self .., holds_nil _ _⟩

/-! ### A whole directory -/

/-- A file of a directory: its name, where its short entry is, and that entry. -/
structure Found where
  name : List UInt8
  entry : ℕ
  bytes : List UInt8

/-- The files of the items that stand at an address. -/
def filesAt : ℕ → List Item → List Found
  | _, [] => []
  | e, .skip _ :: its => filesAt (e + 32) its
  | e, .short b :: its => ⟨shortName b, e, b⟩ :: filesAt (e + 32) its
  | e, .long ps b :: its => ⟨pieceName ps, e + 32 * ps.length, b⟩ :: filesAt (e + 32 * (ps.length + 1)) its

/-- The items are short entries, and their names go to `filename` without harm. -/
def ItemsSafe (m : Mem) (filename top : ℕ) : ℕ → List Item → Prop
  | _, [] => True
  | e, it :: its => it.Safe m filename top e ∧ ItemsSafe m filename top (e + 32 * it.num) its

/-- The number of entries. -/
def entryCount (its : List Item) : ℕ := (its.map Item.num).sum

theorem toLower_ne_zero {c : UInt8} (h : c ≠ 0) : toLower c ≠ 0 := by
  have hall : ∀ n < 256, UInt8.ofNat n ≠ 0 → toLower (UInt8.ofNat n) ≠ 0 := by decide +kernel
  have := hall c.toNat c.toNat_lt
  rw [UInt8.ofNat_toNat] at this
  exact this h

theorem nameChars_ne_zero {lower : Bool} {cs : List UInt8} (h : 0 ∉ cs) : 0 ∉ nameChars lower cs := by
  intro hm
  obtain ⟨c, hc, h0⟩ := mem_map.mp hm
  have hmem : c ∈ cs := (takeWhile_sublist _).subset hc
  have hne : c ≠ 0 := fun h' => h (h' ▸ hmem)
  split_ifs at h0
  · exact toLower_ne_zero hne h0
  · exact hne h0

theorem ShortOk.name_ne_zero (h : ShortOk b) : 0 ∉ shortName b := by
  have hbase : 0 ∉ b.take 8 := fun hm => h.chars (take_subset_take_left b (by decide) hm)
  have hext : 0 ∉ (b.drop 8).take 3 := by
    intro hm
    rw [take_drop] at hm
    exact h.chars (mem_of_mem_drop hm)
  intro hm
  rcases mem_append.mp hm with hm | hm
  · exact nameChars_ne_zero hbase hm
  · split_ifs at hm
    · rcases mem_cons.mp hm with hd | hm
      · exact absurd hd (by decide)
      · exact nameChars_ne_zero hext hm
    · exact absurd hm not_mem_nil

/-- The parser is at a file: its entry, its name at `filename`, its fields. -/
structure Dparser.At (fn : ℕ) (d : Dparser) (f : Found) : Prop where
  filename : d.filename = fn
  entry : d.entry = f.entry
  name : Holds d.mem fn (f.name ++ [0])
  fields : Holds d.mem (f.entry + 11) (f.bytes.drop 11)

theorem PiecesOk.flatten_length : ∀ {ps : List (List UInt8)}, PiecesOk ps → ps.flatten.length = 32 * ps.length
  | [], _ => rfl
  | b :: ps, ⟨hb, _, hps⟩ => by
    rw [flatten_cons, length_append, hb.length, hps.flatten_length, length_cons]
    omega

theorem Item.Valid.bytes_length : ∀ {it : Item}, it.Valid → it.bytes.length = 32 * it.num
  | .skip _, h => SkipOk.length h
  | .short _, h => ShortOk.length h
  | .long (b :: ps) s, ⟨_, hb, hps, hs⟩ => by
    simp only [Item.bytes, Item.num, flatten_cons, length_append, length_cons, hb.length, hps.flatten_length,
      hs.length]
    omega

/-- The parser goes over an erased entry or a label, and 8 bytes further. -/
theorem parseLoop_skip (hb : SkipOk b) (hm : Holds m e b) : parseLoop fn (n + 1) m e 0 = parseLoop fn n m (e + 40) 0 := by
  have h0 : m e = LE.get8 b 0 := Holds.head hm (by rw [hb.length]; decide)
  have h11 : m (e + 11) = LE.get8 b 11 := Holds.get8 hm (by rw [hb.length]; decide)
  rw [parseLoop, h0, if_neg hb.used, h11]
  by_cases hlive : LE.get8 b 0 ≠ 0xE5
  · have hlabel : LE.get8 b 11 = attrVolumid := hb.passed.resolve_left hlive
    rw [if_pos hlive, hlabel, if_neg (by decide), if_neg fun h => h rfl]
  · rw [if_neg hlive, if_neg (by decide)]

theorem parseLoop_short (hb : ShortOk b) (hm : Holds m e b) :
    parseLoop fn (n + 1) m e lfn = (true, ⟨if lfn = 1 then m else parseShort m e fn, e, UInt16.ofNat n, 0, fn⟩) := by
  have h0 : m e = LE.get8 b 0 := Holds.head hm (by rw [hb.length]; decide)
  have h11 : m (e + 11) = LE.get8 b 11 := Holds.get8 hm (by rw [hb.length]; decide)
  rw [parseLoop, h0, if_neg hb.used, if_pos hb.live, h11, if_neg hb.not_long, if_pos hb.not_label]
  split_ifs <;> rfl

theorem toNat_ofNat16 (h : n < 65536) : (UInt16.ofNat n).toNat = n := by
  rw [UInt16.toNat_ofNat']
  exact Nat.mod_eq_of_lt h

theorem ofNat16_ne_zero (h0 : n ≠ 0) (hn : n < 65536) : UInt16.ofNat n ≠ 0 := fun h => by
  have := congrArg UInt16.toNat h
  rw [toNat_ofNat16 hn] at this
  exact h0 this

/-- **The parser finds a short entry**, and what is behind it stays readable. -/
theorem parseDentry_short (hb : ShortOk b) (hm0 : Holds m0 e b) (hag : Agree m m0 e top) (htop : e + 32 ≤ top)
    (hsafe : ShortSafe m0 fn top e b) (hn : n + 1 < 65536) : ∃ m', Agree m' m0 (e + 32) top ∧
      parseDentry ⟨m, e, UInt16.ofNat (n + 1), 0, fn⟩ = (true, ⟨m', e, UInt16.ofNat n, 0, fn⟩) ∧
        Dparser.At fn ⟨m', e, UInt16.ofNat n, 0, fn⟩ ⟨shortName b, e, b⟩ := by
  have hlen := hb.length
  have hm : Holds m e b := (hag.holds (by rw [hlen]; exact htop)).mpr hm0
  obtain ⟨hname, hag'⟩ := parseShort_spec hlen hm0 hag htop hsafe
  refine ⟨parseShort m e fn, hag'.mono (by omega), ?_, rfl, rfl, hname, ?_⟩
  · rw [parseDentry, toNat_ofNat16 hn, parseLoop_short hb hm]
    rfl
  · refine (hag'.holds ?_).mpr (Holds.drop hm0)
    rw [length_drop]
    dsimp only
    omega

theorem Item.num_pos (it : Item) : 0 < it.num := by
  cases it <;> simp [Item.num]

theorem entryCount_cons (it : Item) (its : List Item) : entryCount (it :: its) = it.num + entryCount its := by
  simp [entryCount]

theorem entryCount_append (its its' : List Item) : entryCount (its ++ its') = entryCount its + entryCount its' := by
  simp [entryCount]

theorem flatMap_bytes_length : ∀ {its : List Item}, (∀ it ∈ its, it.bytes.length = 32 * it.num) →
    (its.flatMap Item.bytes).length = 32 * entryCount its
  | [], _ => rfl
  | it :: its, h => by
    rw [flatMap_cons, length_append, h it mem_cons_self, flatMap_bytes_length fun it hit => h it (mem_cons_of_mem _ hit), entryCount_cons]
    omega

theorem itemsSafe_append : ∀ {its its' : List Item} {e : ℕ}, ItemsSafe m0 fn top e (its ++ its') ↔
    ItemsSafe m0 fn top e its ∧ ItemsSafe m0 fn top (e + 32 * entryCount its) its'
  | [], its', e => by simp [ItemsSafe, entryCount]
  | it :: its, its', e => by
    rw [cons_append, ItemsSafe, ItemsSafe, itemsSafe_append, and_assoc, entryCount_cons, mul_add, ← add_assoc]

variable {fuel : ℕ}

theorem parseAll_end (hn : n < 65536) (hend : 0 < n → m e = 0) : parseAll fuel ⟨m, e, UInt16.ofNat n, lfn, fn⟩ = [] := by
  cases fuel with
  | zero => rfl
  | succ fuel =>
    rw [parseAll]
    split_ifs with h0
    · rfl
    · obtain ⟨k, rfl⟩ := Nat.exists_eq_succ_of_ne_zero (show n ≠ 0 from fun h => h0 (by rw [h]; rfl))
      have hparse : parseDentry ⟨m, e, UInt16.ofNat (k + 1), lfn, fn⟩ = (false, ⟨m, e, UInt16.ofNat k, lfn, fn⟩) := by
        rw [parseDentry, toNat_ofNat16 hn, parseLoop, if_pos (hend (Nat.succ_pos k))]
      rw [hparse, if_neg Bool.false_ne_true]

theorem parseAll_hit {d : Dparser} (hn : n + 1 < 65536) (h : parseLoop fn (n + 1) m e lfn = (true, d)) (fuel : ℕ) :
    parseAll (fuel + 1) ⟨m, e, UInt16.ofNat (n + 1), lfn, fn⟩ = d :: parseAll fuel d.next := by
  have hparse : parseDentry ⟨m, e, UInt16.ofNat (n + 1), lfn, fn⟩ = (true, d) := by
    rw [parseDentry, toNat_ofNat16 hn, h]
  rw [parseAll]
  rw [if_neg (ofNat16_ne_zero (Nat.succ_ne_zero n) hn), hparse, if_pos rfl]

theorem parseAll_head {d d' : Dparser} {ds : List Dparser} (h : parseAll fuel d = d' :: ds) : parseDentry d = (true, d') := by
  cases fuel with
  | zero => cases h
  | succ fuel =>
    rw [parseAll] at h
    dsimp only at h
    split_ifs at h with h0 hhit
    exact Prod.ext hhit (List.cons.inj h).1

theorem parseAll_short (hb : ShortOk b) (hm0 : Holds m0 e b) (hag : Agree m m0 e top) (htop : e + 32 ≤ top)
    (hsafe : ShortSafe m0 fn top e b) (hn : n + 1 < 65536) (fuel : ℕ) : ∃ d m', d.At fn ⟨shortName b, e, b⟩ ∧ Agree m' m0 (e + 32) top ∧
      parseAll (fuel + 1) ⟨m, e, UInt16.ofNat (n + 1), 0, fn⟩ = d :: parseAll fuel ⟨m', e + 32, UInt16.ofNat n, 0, fn⟩ := by
  obtain ⟨m', hag', hparse, hat⟩ := parseDentry_short hb hm0 hag htop hsafe hn
  rw [parseDentry, toNat_ofNat16 hn] at hparse
  exact ⟨_, m', hat, hag', parseAll_hit hn hparse fuel⟩

/-- **The callers' loop finds the files of short entries**, one after the other. -/
theorem parseAll_items : ∀ (its : List Item) (e : ℕ) (m : Mem) (n fuel : ℕ), (∀ it ∈ its, it.Valid) →
    Holds m0 e (its.flatMap Item.bytes) → Agree m m0 e top → e + 32 * entryCount its ≤ top → ItemsSafe m0 fn top e its →
    entryCount its ≤ n → n < 65536 → n ≤ fuel →
    (entryCount its < n → m0 (e + 32 * entryCount its) = 0 ∧ e + 32 * entryCount its < top) →
    List.Forall₂ (Dparser.At fn) (parseAll fuel ⟨m, e, UInt16.ofNat n, 0, fn⟩) (filesAt e its)
  | [], e, m, n, fuel, _, _, hag, _, _, _, hn, _, hend => by
    have hnil : parseAll fuel ⟨m, e, UInt16.ofNat n, 0, fn⟩ = [] := by
      refine parseAll_end hn fun hpos => ?_
      obtain ⟨h0, hlt⟩ := hend hpos
      exact (hag e (le_refl e) hlt).trans h0
    rw [hnil]
    exact List.Forall₂.nil
  | .skip _ :: _, _, _, _, _, _, _, _, _, ⟨hsafe, _⟩, _, _, _, _ => hsafe.elim
  | .long _ _ :: _, _, _, _, _, _, _, _, _, ⟨hsafe, _⟩, _, _, _, _ => hsafe.elim
  | .short b :: its, e, m, n, fuel, hvalid, hm0, hag, htop, ⟨hsafe, hsafes⟩, hcount, hn, hfuel, hend => by
    have hb : ShortOk b := hvalid (.short b) mem_cons_self
    have hits : ∀ it ∈ its, it.Valid := fun it h => hvalid it (mem_cons_of_mem _ h)
    rw [entryCount_cons, Item.num] at htop hcount hend
    rw [flatMap_cons, holds_append, Item.bytes, hb.length] at hm0
    obtain ⟨k, rfl⟩ := Nat.exists_eq_add_of_le' (show 1 ≤ n by omega)
    obtain ⟨fuel, rfl⟩ := Nat.exists_eq_succ_of_ne_zero (show fuel ≠ 0 by omega)
    obtain ⟨d, m', hat, hag', hrun⟩ := parseAll_short hb hm0.1 hag (by omega) hsafe hn fuel
    rw [hrun]
    refine List.Forall₂.cons hat (parseAll_items its (e + 32) m' k fuel hits hm0.2 hag' (by omega) hsafes (by omega) (by omega) (by omega)
      fun hlt => ?_)
    have := hend (by omega)
    rwa [show e + 32 * (1 + entryCount its) = e + 32 + 32 * entryCount its by omega] at this

/-! ### A buffer of its own for the name -/

/-- The `n` bytes from `fn` on are not in the range from `a` up to `top`. -/
def Apart (fn n a top : ℕ) : Prop := fn + n ≤ a ∨ top ≤ fn

theorem nameChars_length_le (lower : Bool) (b : List UInt8) : (nameChars lower b).length ≤ b.length := by
  rw [nameChars, length_map]
  exact (takeWhile_sublist _).length_le

theorem shortBase_length_le (b : List UInt8) : (shortBase b).length ≤ 8 :=
  (nameChars_length_le _ _).trans (by rw [length_take]; omega)

theorem shortExt_length_le (b : List UInt8) : (shortExt b).length ≤ 3 :=
  (nameChars_length_le _ _).trans (by rw [length_take]; omega)

theorem shortName_length_le (b : List UInt8) : (shortName b).length ≤ 12 := by
  have h1 := shortBase_length_le b
  have h2 := shortExt_length_le b
  rw [shortName, length_append]
  split_ifs
  · rw [length_cons]
    omega
  · rw [length_nil]
    omega

theorem nameSafe_apart {a : ℕ} : ∀ (cs : List UInt8) (src ptr : ℕ), a ≤ src → Apart ptr cs.length a top → NameSafe m0 top src ptr cs
  | [], _, _, _, _ => trivial
  | c :: cs, src, ptr, ha, hap => by
    rw [length_cons] at hap
    have hout : ¬ (a ≤ ptr ∧ ptr < top) := by
      rcases hap with h | h <;> omega
    refine ⟨fun h1 h2 => absurd ⟨by omega, h2⟩ hout, nameSafe_apart (a := a) cs (src + 1) (ptr + 1) (by omega) ?_⟩
    rcases hap with h | h
    · exact .inl (by omega)
    · exact .inr (by omega)

theorem Apart.part {a k c : ℕ} (h : Apart fn n a top) (hk : k + c ≤ n) : Apart (fn + k) c a top := by
  rcases h with h | h
  · exact .inl (by omega)
  · exact .inr (by omega)

theorem Apart.keeps {a k r : ℕ} (h : Apart fn n a top) (hk : k < n) (ha : a ≤ r) (v : UInt8) : Keeps m0 r top (fn + k) v := by
  intro h1 h2
  rcases h with h | h <;> omega

/-- **A buffer that does not overlap the entries is safe** for the name of a short entry. -/
theorem shortSafe_apart {a : ℕ} (b : List UInt8) (hap : Apart fn 13 a top) (ha : a ≤ e) : ShortSafe m0 fn top e b := by
  have h1 := shortBase_length_le b
  have h2 := shortExt_length_le b
  have h3 := shortName_length_le b
  exact ⟨nameSafe_apart _ e fn ha (hap.part (k := 0) (by omega)),
    fun _ => ⟨hap.keeps (by omega) (by omega) _,
      nameSafe_apart (a := a) _ (e + 8) _ (by omega) (hap.part (k := (shortBase b).length + 1) (by omega))⟩,
    hap.keeps (by omega) (by omega) _⟩

end File
end Vsf
