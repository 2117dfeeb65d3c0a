/-
# File names

The helpers on file names of `vsfile.c`, `vsffat.c` and `fakefat32.c`. `vsfile_getfileext` returns
the name itself where there is no dot, so `vsffat_is_LFN` takes such a name for a long one.
-/
import Mathlib

namespace Vsf
namespace File

open List

/-- The `vsf_err_t` of the file systems. -/
inductive Err
  | none
  | fail
  | notAvailable
deriving DecidableEq

/-! ### Attributes -/

def attrReadonly : UInt8 := 0x01
def attrVolumid : UInt8 := 0x08
def attrDirectory : UInt8 := 0x10
def attrWriteonly : UInt8 := 0x40

/-- `FATFS_FILEATTR_LONGNAME` and `FAKEFAT32_FILEATTR_LONGNAME`. -/
def attrLongname : UInt8 := 0x0F

/-! ### Characters -/

def isLower (c : UInt8) : Bool := 97 ≤ c && c ≤ 122

def isUpper (c : UInt8) : Bool := 65 ≤ c && c ≤ 90

def isAlpha (c : UInt8) : Bool := isLower c || isUpper c

def toUpper (c : UInt8) : UInt8 := if isLower c then c - 32 else c

def toLower (c : UInt8) : UInt8 := if isUpper c then c + 32 else c

/-- `'.'`. -/
def dot : UInt8 := 46

/-- `' '`. -/
def space : UInt8 := 32

/-! ### Names -/

/-- The loop of `vsfile_getfileext`: `ext` is what it has found so far. -/
def extLoop (ext : List UInt8) : List UInt8 → List UInt8
  | [] => ext
  | c :: cs => if c = dot then extLoop cs cs else extLoop ext cs

/-- `vsfile_getfileext`. -/
def getfileext (fname : List UInt8) : List UInt8 := extLoop fname fname

/-- `vsfile_is_div`. -/
def isDiv (ch : UInt8) : Bool := ch = 92 || ch = 47

/-- `vsfile_match`: the path is the name, or goes on with a separator. -/
def vsfileMatch (path filename : List UInt8) : Bool :=
  filename.isPrefixOf path &&
    match path.drop filename.length with
    | [] => true
    | ch :: _ => isDiv ch

/-- `vsffat_is_LFN`. -/
def isLFN (name : List UInt8) : Bool :=
  let ext := getfileext name
  let extLen := UInt32.ofNat ext.length
  let nameLen := UInt32.ofNat name.length - (extLen + 1)
  if nameLen > 8 ∨ extLen > 3 then true else name.any isLower && name.any isUpper

/-- `find_first_alphabet`; 0 is the `\0` behind the name. -/
def findFirstAlphabet (str : List UInt8) : UInt8 := (str.find? isAlpha).getD 0

/-! ### The extension -/

variable {base ext : List UInt8}

theorem extLoop_noDot : ∀ {cs : List UInt8} (e : List UInt8), dot ∉ cs → extLoop e cs = e
  | [], _, _ => rfl
  | c :: cs, e, h => by
    have hc : c ≠ dot := fun he => h (he ▸ mem_cons_self)
    unfold extLoop
    rw [if_neg hc]
    exact extLoop_noDot e fun hm => h (mem_cons_of_mem c hm)

theorem extLoop_dot (h : dot ∉ ext) : ∀ (base e : List UInt8), extLoop e (base ++ dot :: ext) = ext
  | [], e => by simp [extLoop, extLoop_noDot ext h]
  | c :: base, e => by
    simp only [cons_append, extLoop]
    split_ifs
    · exact extLoop_dot h base _
    · exact extLoop_dot h base e

theorem getfileext_dot (base : List UInt8) (h : dot ∉ ext) : getfileext (base ++ dot :: ext) = ext :=
  extLoop_dot h base _

/-- **A name without a dot counts as long**: its extension is taken for longer than it. -/
theorem isLFN_noDot {name : List UInt8} (h : dot ∉ name) : isLFN name = true := by
  unfold isLFN
  rw [show getfileext name = name from extLoop_noDot name h]
  dsimp only
  have hsub : UInt32.ofNat name.length - (UInt32.ofNat name.length + 1) = 0xFFFFFFFF := by
    apply UInt32.toBitVec_inj.mp
    simp only [UInt32.toBitVec_sub, UInt32.toBitVec_add]
    generalize (UInt32.ofNat name.length).toBitVec = x
    show x - (x + 1#32) = 4294967295#32
    bv_omega
  rw [hsub, if_pos (.inl (by decide))]

/-- Letters of both cases. -/
def mixed (name : List UInt8) : Bool := name.any isLower && name.any isUpper

theorem isLFN_dot (h : dot ∉ ext) (hlen : (base ++ dot :: ext).length < 2 ^ 32) :
    isLFN (base ++ dot :: ext) = (decide (8 < base.length ∨ 3 < ext.length) || mixed (base ++ dot :: ext)) := by
  simp only [length_append, length_cons] at hlen
  have hname : UInt32.ofNat (base ++ dot :: ext).length - (UInt32.ofNat ext.length + 1) = UInt32.ofNat base.length := by
    apply UInt32.toNat_inj.mp
    rw [UInt32.toNat_sub_of_le]
    · simp only [length_append, length_cons, UInt32.toNat_ofNat', UInt32.toNat_add, UInt32.reduceToNat]
      omega
    · rw [UInt32.le_iff_toNat_le]
      simp only [length_append, length_cons, UInt32.toNat_ofNat', UInt32.toNat_add, UInt32.reduceToNat]
      omega
  have hlong : UInt32.ofNat base.length > 8 ∨ UInt32.ofNat ext.length > 3 ↔ 8 < base.length ∨ 3 < ext.length := by
    simp only [gt_iff_lt, UInt32.lt_iff_toNat_lt, UInt32.toNat_ofNat', UInt32.reduceToNat]
    omega
  unfold isLFN
  rw [getfileext_dot base h]
  dsimp only
  rw [hname]
  by_cases hl : 8 < base.length ∨ 3 < ext.length
  · rw [if_pos (hlong.mpr hl), decide_eq_true hl, Bool.true_or]
  · rw [if_neg (mt hlong.mp hl), decide_eq_false hl, Bool.false_or]
    rfl

/-- A name of the form 8.3 in one case, without spaces. -/
structure Short (base ext : List UInt8) : Prop where
  base_pos : 0 < base.length
  base_le : base.length ≤ 8
  ext_pos : 0 < ext.length
  ext_le : ext.length ≤ 3
  base_dot : dot ∉ base
  ext_dot : dot ∉ ext
  base_space : space ∉ base
  ext_space : space ∉ ext
  single : ((base ++ dot :: ext).any isLower && (base ++ dot :: ext).any isUpper) = false

theorem Short.isLFN (h : Short base ext) : isLFN (base ++ dot :: ext) = false := by
  have hb := h.base_le
  have he := h.ext_le
  have hlong : ¬(8 < base.length ∨ 3 < ext.length) := by omega
  rw [isLFN_dot h.ext_dot (by rw [length_append, length_cons]; omega), decide_eq_false hlong, Bool.false_or]
  exact h.single

/-! ### Names that case flags can stand for -/

/-- A base of 1 to 8, then nothing or a dot and 1 to 3 characters, in one case. -/
def Representable (name : List UInt8) : Prop := mixed name = false ∧ (dot ∉ name ∧ 0 < name.length ∧ name.length ≤ 8 ∨
  ∃ base ext, name = base ++ dot :: ext ∧ dot ∉ base ∧ dot ∉ ext ∧ (0 < base.length ∧ base.length ≤ 8) ∧ 0 < ext.length ∧ ext.length ≤ 3)

theorem exists_last_dot : ∀ {name : List UInt8}, dot ∈ name → ∃ base ext, name = base ++ dot :: ext ∧ dot ∉ ext
  | c :: cs, h => by
    by_cases hcs : dot ∈ cs
    · obtain ⟨base, ext, rfl, hext⟩ := exists_last_dot hcs
      exact ⟨c :: base, ext, rfl, hext⟩
    · obtain rfl : dot = c := (mem_cons.mp h).resolve_right hcs
      exact ⟨[], cs, rfl, hcs⟩

theorem last_dot_unique {base' ext' : List UInt8} (heq : base ++ dot :: ext = base' ++ dot :: ext') (h : dot ∉ ext) (h' : dot ∉ ext') :
    base = base' ∧ ext = ext' := by
  have hext : ext = ext' := by
    rw [← getfileext_dot base h, heq, getfileext_dot base' h']
  subst hext
  exact ⟨append_cancel_right heq, rfl⟩

/-- **The names told apart right**: with letters of both cases, too long, or with one dot inside. -/
theorem isLFN_iff {name : List UInt8} (hpos : name ≠ []) (hlen : name.length < 2 ^ 32) :
    (isLFN name = false ↔ Representable name) ↔
      mixed name = true ∨ (dot ∉ name ∧ 8 < name.length) ∨ ∃ base ext, name = base ++ dot :: ext ∧ dot ∉ ext ∧
        (8 < base.length ∨ 3 < ext.length ∨ dot ∉ base ∧ base ≠ [] ∧ ext ≠ []) := by
  have hpos' := length_pos_iff.mpr hpos
  by_cases hdot : dot ∈ name
  · obtain ⟨base, ext, rfl, hext⟩ := exists_last_dot hdot
    have hrep : Representable (base ++ dot :: ext) ↔ mixed (base ++ dot :: ext) = false ∧ dot ∉ base ∧
        (0 < base.length ∧ base.length ≤ 8) ∧ 0 < ext.length ∧ ext.length ≤ 3 := by
      refine and_congr_right fun _ => ⟨?_, fun h => .inr ⟨base, ext, rfl, h.1, hext, h.2⟩⟩
      rintro (⟨hno, -⟩ | ⟨b, e, heq, hb, he, h⟩)
      · exact absurd hdot hno
      · obtain ⟨rfl, rfl⟩ := last_dot_unique heq hext he
        exact ⟨hb, h⟩
    have hcond : (∃ b e, base ++ dot :: ext = b ++ dot :: e ∧ dot ∉ e ∧ (8 < b.length ∨ 3 < e.length ∨ dot ∉ b ∧ b ≠ [] ∧ e ≠ [])) ↔
        8 < base.length ∨ 3 < ext.length ∨ dot ∉ base ∧ base ≠ [] ∧ ext ≠ [] := by
      refine ⟨?_, fun h => ⟨base, ext, rfl, hext, h⟩⟩
      rintro ⟨b, e, heq, he, h⟩
      obtain ⟨rfl, rfl⟩ := last_dot_unique heq hext he
      exact h
    rw [isLFN_dot hext hlen, hrep, hcond, ← length_pos_iff, ← length_pos_iff, Bool.or_eq_false_iff, decide_eq_false_iff_not]
    cases mixed (base ++ dot :: ext)
    · simp only [hdot, not_true_eq_false, false_and, false_or, true_and, and_true, Bool.false_eq_true]
      by_cases hb : dot ∈ base
      · simp only [hb, not_true_eq_false, false_and, iff_false, or_false]
        omega
      · simp only [hb, not_false_eq_true, true_and]
        omega
    · simp
  · have hnone : ¬∃ base ext, name = base ++ dot :: ext ∧ dot ∉ ext ∧
        (8 < base.length ∨ 3 < ext.length ∨ dot ∉ base ∧ base ≠ [] ∧ ext ≠ []) := by
      rintro ⟨base, ext, rfl, -⟩
      exact hdot (by simp)
    have hrep : Representable name ↔ mixed name = false ∧ name.length ≤ 8 := by
      refine and_congr_right fun _ => ⟨?_, fun h => .inl ⟨hdot, hpos', h⟩⟩
      rintro (⟨-, -, h⟩ | ⟨base, ext, rfl, -⟩)
      · exact h
      · exact absurd (by simp) hdot
    rw [isLFN_noDot hdot, hrep]
    cases mixed name
    · simp [hdot, hnone]
    · simp

theorem isLFN_iff_readme : isLFN [114, 101, 97, 100, 109, 101, 46, 116, 120, 116] = false ↔
    Representable [114, 101, 97, 100, 109, 101, 46, 116, 120, 116] :=
  (isLFN_iff (by decide) (by decide)).mpr
    (.inr (.inr ⟨[114, 101, 97, 100, 109, 101], [116, 120, 116], rfl, by decide, .inr (.inr (by decide))⟩))

/-- `readme` has no dot, and counts as long. -/
theorem isLFN_readme : ¬∀ name : List UInt8, name ≠ [] → name.length < 2 ^ 32 → (isLFN name = false ↔ Representable name) := by
  intro hall
  have hlong := (hall [114, 101, 97, 100, 109, 101] (by decide) (by decide)).mpr ⟨by decide, .inl (by decide)⟩
  rw [isLFN_noDot (by decide)] at hlong
  cases hlong

end File
end Vsf
