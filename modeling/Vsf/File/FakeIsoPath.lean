/-
# The path tables of an ISO 9660 volume

`fakeiso_fill_path_table` walks the tree from its root, skips what is in front of the block, and
fills the block from there. A record that the block begins inside of is copied in two parts, but its
identifier from the beginning; all that follows in the block is late by as much (`fold_emit`), and
the tables are right just where that does not show.
-/
import Mathlib
import Vsf.File.FakeIso
import Vsf.File.FakeIsoLayout
import Vsf.Lib.LittleEndian
import Vsf.Lib.Paging

namespace Vsf
namespace FakeIso

open File Paging List Option

variable {p : Param} {f : Node} {fs : Files} {little : Bool}

/-! ### What the tables are to say -/

/-- A directory of the table, and the directory it is in, with its number. -/
structure PathDir where
  node : Node
  parent : Node
  number : ℕ

/-- The directories of an array and below, in order, numbered from `next`. -/
def dirsFrom (up : Node) (number next : ℕ) : Files → List PathDir
  | .null => []
  | .nil => []
  | .cons f filelist rest =>
    let below := if f.isDir ∧ ¬ f.isDots then ⟨f, up, number⟩ :: dirsFrom f next (next + 1) filelist else []
    below ++ dirsFrom up number (next + below.length) rest

/-- The directories of the volume. The root is its own parent. -/
def dirs (p : Param) : List PathDir := ⟨p.root, p.root, 1⟩ :: dirsFrom p.root 1 2 p.filelist

/-- A directory identifier; that of the root is a zero. -/
def identifier (f : Node) : List UInt8 := if f.isDots then [0] else f.name

def inOrder (little : Bool) (bs : List UInt8) : List UInt8 := if little then bs else bs.reverse

/-- The record of a directory. -/
def record (little : Bool) (e : PathDir) : List UInt8 :=
  [UInt8.ofNat (identifier e.node).length, 0] ++ inOrder little (LE.bytes32 e.node.firstLba) ++
    inOrder little (LE.bytes16 (UInt16.ofNat e.number)) ++
    (identifier e.node ++ if (identifier e.node).length % 2 = 1 then [0] else [])

def records (p : Param) (little : Bool) : List (List UInt8) := (dirs p).map (record little)

/-! ### `fakeiso_fill_path_table` -/

def Files.isNull : Files → Bool
  | .null => true
  | _ => false

/-- What a walk works on: `param->diridx`, what to skip, the block and its rest. -/
structure Fill where
  diridx : UInt16
  offset : ℕ
  out : List UInt8
  remain : ℕ

/-- `fakeiso_fill_path_table_record`. -/
def fillPathTableRecord (f : Node) (parent : UInt16) (little : Bool) : List UInt8 :=
  [UInt8.ofNat (min 0xFF f.name.length), 0] ++ inOrder little (LE.bytes32 f.firstLba) ++ inOrder little (LE.bytes16 parent)

/-- The first 8 bytes of a record, or those that are missing. -/
def fillHead (f : Node) (parent : UInt16) (little : Bool) (s : Fill) : Fill :=
  if s.offset < 8 then
    let copySize := min s.remain (8 - s.offset)
    { s with
      offset := 0
      out := s.out ++ ((fillPathTableRecord f parent little).drop s.offset).take copySize
      remain := s.remain - copySize }
  else s

/-- `fakeiso_fill_path_table` for the directory itself, and whether it goes on. The block was cleared, and
of the root's identifier only the first byte is written. -/
def fillSelf (little root : Bool) (f : Node) (parent : UInt16) (s : Fill) : Fill × Bool :=
  let size := calcPathTableRecordSize f
  let s := { s with diridx := s.diridx + 1 }
  if s.offset ≥ size then ({ s with offset := s.offset - size }, true)
  else
    let s := fillHead f parent little s
    let copySize := min s.remain (size - 8)
    if copySize = 0 then (s, false)
    else
      let name := if root then 0 :: List.replicate (copySize - 1) 0 else (f.name ++ [0]).take copySize
      ({ s with offset := 0, out := s.out ++ name, remain := s.remain - copySize }, true)

/-- `fakeiso_fill_path_table`; `listed` is whether there is a `filelist`, `parent` the parent's `diridx`. -/
def fillPathTable (little root : Bool) (f : Node) (listed : Bool) (parent : UInt16) (below : UInt16 → Fill → Fill) (s : Fill) : Fill :=
  if f.isDir = false ∨ listed = false then s
  else if s.remain = 0 then s
  else
    let r := fillSelf little root f parent s
    if r.2 then below s.diridx r.1 else r.1

/-- The loop over the files of a directory. -/
def fillFiles (little : Bool) (parent : UInt16) : Files → Fill → Fill
  | .null, s => s
  | .nil, s => s
  | .cons f filelist next, s =>
    let s := if f.isDir ∧ ¬ f.isDots then
        fillPathTable little false f (!filelist.isNull) parent (fun diridx => fillFiles little diridx filelist) s
      else s
    fillFiles little parent next s

/-- The number of blocks of a table. -/
def pathTableBlocks (p : Param) : UInt32 := (p.pathTableSize + 2048 - 1) / 2048

/-- The part of `fakeiso_drv_readblock_nb` for the path tables. -/
def readPathTable (p : Param) (lba : UInt32) : Option (List UInt8) :=
  if lba ≥ p.pathTableLba ∧ lba < p.pathTableLba + 2 * pathTableBlocks p then
    let little : Bool := lba < p.pathTableLba + pathTableBlocks p
    let offset := (if little then lba - p.pathTableLba else lba - p.pathTableLba - pathTableBlocks p) * 2048
    let r := fillPathTable little true p.root (!p.filelist.isNull) 1 (fun diridx => fillFiles little diridx p.filelist)
      ⟨1, offset.toNat, [], 2048⟩
    some (r.out ++ List.replicate (2048 - r.out.length) 0)
  else none

/-- The blocks of a table. -/
def tableBytes (p : Param) (little : Bool) : List UInt8 :=
  (List.range (pathTableBlocks p).toNat).flatMap fun k =>
    (readPathTable p (p.pathTableLba + (if little then 0 else pathTableBlocks p) + UInt32.ofNat k)).getD []

/-! ### The claims about them -/

/-- A volume that was initialised, as far as the tables go. -/
structure Tabled (p : Param) : Prop where
  name : p.root.name = dotName
  dir : p.root.isDir = true
  lba : p.pathTableLba = 18
  size : p.pathTableSize = UInt32.ofNat (calcPathTableSize p.root p.filelist)

/-- Each directory has a file list. -/
def Files.Listed : Files → Prop
  | .null => True
  | .nil => True
  | .cons f filelist next => (f.isDir ∧ ¬ f.isDots → filelist.isNull = false) ∧ filelist.Listed ∧ next.Listed

instance decListed : ∀ fs : Files, Decidable fs.Listed
  | .null => isTrue trivial
  | .nil => isTrue trivial
  | .cons f filelist next =>
    have := decListed filelist
    have := decListed next
    inferInstanceAs (Decidable ((f.isDir ∧ ¬ f.isDots → filelist.isNull = false) ∧ filelist.Listed ∧ next.Listed))

/-- The directories of an array and below, in the order of a walk. -/
def Files.directories : Files → List Node
  | .null => []
  | .nil => []
  | .cons f filelist next => (if f.isDir ∧ ¬ f.isDots then f :: filelist.directories else []) ++ next.directories

/-- The directories come behind their parents, whose places are the numbers. -/
def Numbered (first : PathDir) (es : List PathDir) : Prop :=
  ∀ i e, es[i]? = some e → i = 0 ∧ e = first ∨
    1 ≤ e.number ∧ e.number ≤ i ∧ ∃ e', es[e.number - 1]? = some e' ∧ e'.node = e.parent

/-- Both tables are right: a record for each directory, behind its parent's, with its number. -/
structure PathTables (p : Param) : Prop where
  read : ∀ little, (tableBytes p little).take p.pathTableSize.toNat = (records p little).flatten
  all : (dirs p).map PathDir.node = p.root :: p.filelist.directories
  parents : Numbered ⟨p.root, p.root, 1⟩ (dirs p)
  numbers : ∀ e ∈ dirs p, (UInt16.ofNat e.number).toNat = e.number

/-- How many bytes of an identifier are in front of `o`, if that is inside of one. -/
def cut : List (List UInt8) → ℕ → ℕ
  | [], _ => 0
  | r :: rs, o => if r.length ≤ o then cut rs (o - r.length) else o - 8

/-- A block that begins inside of an identifier has the bytes so many in front. -/
def Unbroken (p : Param) (little : Bool) : Prop :=
  ∀ i < (records p little).flatten.length,
    (records p little).flatten.getD (i - cut (records p little) (2048 * (i / 2048))) 0 = (records p little).flatten.getD i 0

/-! ### Records -/

/-- A directory with a name that its identifier can be: the length is a byte. -/
def Fits (f : Node) : Prop := f.name ≠ [] ∧ f.name.length ≤ 255

theorem length_inOrder (little : Bool) (bs : List UInt8) : (inOrder little bs).length = bs.length := by
  unfold inOrder
  split_ifs
  · rfl
  · exact length_reverse

theorem fillPathTableRecord_length (f : Node) (parent : UInt16) (little : Bool) : (fillPathTableRecord f parent little).length = 8 := by
  simp [fillPathTableRecord, length_inOrder]

/-- The part of a record behind its first 8 bytes. -/
def recordTail (f : Node) : List UInt8 := identifier f ++ if (identifier f).length % 2 = 1 then [0] else []

theorem recordTail_length (hf : Fits f) : 8 + (recordTail f).length = calcPathTableRecordSize f := by
  obtain ⟨-, hlen⟩ := hf
  have hpad : (recordTail f).length = (identifier f).length + (identifier f).length % 2 := by
    unfold recordTail
    rw [length_append]
    split_ifs with h
    · rw [h]
      rfl
    · rw [show (identifier f).length % 2 = 0 by omega]
      rfl
  rw [hpad]
  unfold calcPathTableRecordSize identifier
  dsimp only
  split_ifs
  · rfl
  · omega

theorem record_eq (little : Bool) {e : PathDir} (hf : Fits e.node) (hdot : e.node.isDots → e.node.name = dotName) :
    record little e = fillPathTableRecord e.node (UInt16.ofNat e.number) little ++ recordTail e.node := by
  have hlen : (identifier e.node).length = min 0xFF e.node.name.length := by
    have := hf.2
    unfold identifier
    split_ifs with hd
    · rw [hdot hd]
      rfl
    · omega
  unfold record fillPathTableRecord recordTail
  rw [hlen]

theorem record_length (little : Bool) {e : PathDir} (hf : Fits e.node) (hdot : e.node.isDots → e.node.name = dotName) :
    (record little e).length = calcPathTableRecordSize e.node := by
  rw [record_eq little hf hdot, length_append, fillPathTableRecord_length, recordTail_length hf]

/-- A record in a block. -/
def emit (r : List UInt8) (s : Fill) : Fill :=
  if s.remain = 0 then s
  else if r.length ≤ s.offset then { s with diridx := s.diridx + 1, offset := s.offset - r.length }
  else
    { diridx := s.diridx + 1
      offset := 0
      out := s.out ++ (r.drop (min s.offset 8)).take s.remain
      remain := s.remain - (r.length - min s.offset 8) }

theorem copied_name (root : Bool) (hroot : if root then f.name = dotName else f.isDots = false) {n : ℕ}
    (hn : n ≤ (recordTail f).length) (hpos : n ≠ 0) :
    (if root then 0 :: List.replicate (n - 1) 0 else (f.name ++ [0]).take n) = (recordTail f).take n := by
  cases root with
  | true =>
    have htail : recordTail f = [0, 0] := by
      have hdots : f.isDots = true := by
        unfold Node.isDots
        rw [if_pos rfl] at hroot
        rw [hroot]
        rfl
      unfold recordTail identifier
      rw [if_pos hdots]
      rfl
    rw [htail] at hn ⊢
    have hn2 : n ≤ 2 := hn
    interval_cases n
    · exact absurd rfl hpos
    · rfl
    · rfl
  | false =>
    have hid : identifier f = f.name := by
      unfold identifier
      rw [if_neg (by rw [if_neg (by decide)] at hroot; rw [hroot]; decide)]
    unfold recordTail at hn ⊢
    rw [hid] at hn ⊢
    rw [if_neg (by decide)]
    split_ifs at hn ⊢ with hodd
    · rfl
    · rw [append_nil] at hn ⊢
      exact take_append_of_le_length hn

theorem recordTail_pos (hf : Fits f) : 0 < (recordTail f).length := by
  have hname := length_pos_iff.mpr hf.1
  have hid : 0 < (identifier f).length := by
    unfold identifier
    split_ifs
    · exact one_pos
    · exact hname
  unfold recordTail
  rw [length_append]
  omega

theorem take_room {l : List UInt8} {n : ℕ} (h : l.length = n) (room : ℕ) : l.take (min room n) = l.take room := by
  rw [← h, ← take_eq_take_min]

/-- **The part for the directory itself** puts its record, up to the end of the block. -/
theorem fillSelf_emit (little : Bool) {e : PathDir} {s : Fill} (hf : Fits e.node) (root : Bool)
    (hroot : if root then e.node.name = dotName else e.node.isDots = false) (hremain : s.remain ≠ 0) :
    (fillSelf little root e.node (UInt16.ofNat e.number) s).1 = emit (record little e) s ∧
      ((fillSelf little root e.node (UInt16.ofNat e.number) s).2 = false →
        (fillSelf little root e.node (UInt16.ofNat e.number) s).1.remain = 0) := by
  have hdot : e.node.isDots → e.node.name = dotName := by
    intro hd
    cases root with
    | true => exact hroot
    | false =>
      rw [if_neg (by decide)] at hroot
      rw [hroot] at hd
      exact absurd hd (by decide)
  have hrec := record_eq little hf hdot
  have hhead := fillPathTableRecord_length e.node (UInt16.ofNat e.number) little
  have hsize := recordTail_length hf
  have htail := recordTail_pos hf
  have hlen := record_length little hf hdot
  unfold fillSelf emit
  rw [if_neg hremain, hlen]
  by_cases hskip : s.offset ≥ calcPathTableRecordSize e.node
  · rw [if_pos hskip, if_pos hskip]
    exact ⟨rfl, fun h => by cases h⟩
  rw [if_neg hskip, if_neg hskip]
  unfold fillHead
  by_cases h8 : s.offset < 8
  · have hmin : min s.offset 8 = s.offset := by omega
    have hdrop : ((fillPathTableRecord e.node (UInt16.ofNat e.number) little).drop s.offset).length = 8 - s.offset := by
      rw [length_drop, hhead]
    have hsplit : ((record little e).drop s.offset).take s.remain =
        ((fillPathTableRecord e.node (UInt16.ofNat e.number) little).drop s.offset).take s.remain ++
          (recordTail e.node).take (s.remain - (8 - s.offset)) := by
      rw [hrec, drop_append_of_le_length (by omega), take_append, hdrop]
    have hleft : s.remain - min s.remain (8 - s.offset) = s.remain - (8 - s.offset) := by omega
    simp only [if_pos h8]
    rw [take_room hdrop, hleft, hmin, hsplit]
    by_cases hfull : s.remain - (8 - s.offset) = 0
    · rw [hfull, zero_min, if_pos rfl, take_zero, append_nil]
      have hnone : s.remain - (calcPathTableRecordSize e.node - s.offset) = 0 := by omega
      rw [hnone]
      exact ⟨rfl, fun _ => rfl⟩
    · have hcopy : min (s.remain - (8 - s.offset)) (calcPathTableRecordSize e.node - 8) ≠ 0 := by omega
      have hname := copied_name root hroot (n := min (s.remain - (8 - s.offset)) (calcPathTableRecordSize e.node - 8)) (by omega) hcopy
      rw [if_neg hcopy, hname]
      refine ⟨?_, fun h => by cases h⟩
      have hrest : s.remain - (8 - s.offset) - min (s.remain - (8 - s.offset)) (calcPathTableRecordSize e.node - 8) =
          s.remain - (calcPathTableRecordSize e.node - s.offset) := by omega
      rw [take_room (by omega), append_assoc, hrest]
  · have hmin : min s.offset 8 = 8 := by omega
    have hdrop : (record little e).drop 8 = recordTail e.node := by
      rw [hrec, ← hhead, drop_left]
    have hcopy : min s.remain (calcPathTableRecordSize e.node - 8) ≠ 0 := by omega
    have hname := copied_name root hroot (n := min s.remain (calcPathTableRecordSize e.node - 8)) (by omega) hcopy
    simp only [if_neg h8]
    rw [if_neg hcopy, hname, hmin, hdrop]
    refine ⟨?_, fun h => by cases h⟩
    have hrest : s.remain - min s.remain (calcPathTableRecordSize e.node - 8) =
        s.remain - (calcPathTableRecordSize e.node - 8) := by omega
    rw [take_room (by omega), hrest]

/-! ### A walk -/

variable {r : List UInt8} {s : Fill} {es : List PathDir} {init : Option (Param → Option Param)} {p₀ : Param}

theorem emit_full (h : s.remain = 0) : emit r s = s := by
  unfold emit
  rw [if_pos h]

theorem foldl_emit_full (h : s.remain = 0) : ∀ rs : List (List UInt8), rs.foldl (fun s r => emit r s) s = s
  | [] => rfl
  | r :: rs => by
    rw [foldl_cons, emit_full h]
    exact foldl_emit_full h rs

theorem emit_diridx (h : s.remain ≠ 0) : (emit r s).diridx = s.diridx + 1 := by
  unfold emit
  rw [if_neg h]
  split_ifs
  · rfl
  · rfl

theorem foldl_emit_diridx : ∀ (rs : List (List UInt8)) (s : Fill), (rs.foldl (fun s r => emit r s) s).remain ≠ 0 →
    (rs.foldl (fun s r => emit r s) s).diridx = s.diridx + UInt16.ofNat rs.length
  | [], s, _ => by simp
  | r :: rs, s, h => by
    have hs : s.remain ≠ 0 := by
      intro hzero
      rw [foldl_emit_full hzero] at h
      exact h hzero
    rw [foldl_cons] at h ⊢
    rw [foldl_emit_diridx rs _ h, emit_diridx hs, length_cons, UInt16.ofNat_add, UInt16.add_assoc, UInt16.add_comm 1]
    rfl

theorem fillFiles_full {parent : UInt16} : ∀ (fs : Files) {s : Fill}, s.remain = 0 → fillFiles little parent fs s = s
  | .null, _, _ => rfl
  | .nil, _, _ => rfl
  | .cons f filelist next, s, h => by
    have hself : (if f.isDir ∧ ¬ f.isDots then
        fillPathTable little false f (!filelist.isNull) parent (fun diridx => fillFiles little diridx filelist) s else s) = s := by
      unfold fillPathTable
      split_ifs
      all_goals rfl
    rw [fillFiles, hself]
    exact fillFiles_full next h

theorem dirsFrom_cons (up f : Node) (number next : ℕ) (filelist rest : Files) (h : f.isDir ∧ ¬ f.isDots) :
    dirsFrom up number next (.cons f filelist rest) = (⟨f, up, number⟩ :: dirsFrom f next (next + 1) filelist) ++
      dirsFrom up number (next + 1 + (dirsFrom f next (next + 1) filelist).length) rest := by
  rw [dirsFrom, if_pos h, length_cons, add_assoc next 1, add_comm 1]

theorem dirsFrom_skip (up f : Node) (number next : ℕ) (filelist rest : Files) (h : ¬ (f.isDir ∧ ¬ f.isDots)) :
    dirsFrom up number next (.cons f filelist rest) = dirsFrom up number next rest := by
  rw [dirsFrom, if_neg h]
  rfl

theorem directories_cons (f : Node) (filelist next : Files) (h : f.isDir ∧ ¬ f.isDots) :
    (Files.cons f filelist next).directories = f :: (filelist.directories ++ next.directories) := by
  rw [Files.directories, if_pos h]
  rfl

theorem directories_skip (f : Node) (filelist next : Files) (h : ¬ (f.isDir ∧ ¬ f.isDots)) :
    (Files.cons f filelist next).directories = next.directories := by
  rw [Files.directories, if_neg h]
  rfl

theorem fillPathTable_fold {up : Node} {number : ℕ} {below : UInt16 → Fill → Fill} (hf : Fits f)
    (root : Bool) (hroot : if root then f.name = dotName else f.isDots = false) (hdir : f.isDir = true)
    (hbelow : ∀ t : Fill, (t.remain ≠ 0 → t.diridx = s.diridx + 1) →
      below s.diridx t = (es.map (record little)).foldl (fun s r => emit r s) t) :
    fillPathTable little root f true (UInt16.ofNat number) below s =
      ((⟨f, up, number⟩ :: es).map (record little)).foldl (fun s r => emit r s) s := by
  unfold fillPathTable
  rw [if_neg (by rw [hdir]; decide)]
  by_cases hremain : s.remain = 0
  · rw [if_pos hremain, foldl_emit_full hremain]
  obtain ⟨hemit, hstop⟩ := fillSelf_emit little (e := ⟨f, up, number⟩) hf root hroot hremain
  rw [if_neg hremain, map_cons, foldl_cons]
  dsimp only at hemit hstop ⊢
  rw [← hemit]
  split_ifs with hgo
  · refine hbelow _ fun _ => ?_
    rw [hemit, emit_diridx hremain]
  · rw [foldl_emit_full (hstop (Bool.eq_false_iff.mpr hgo))]

/-- **A walk through the files** puts the records one behind the other. -/
theorem fillFiles_fold : ∀ {fs : Files} {up : Node} {number next : ℕ} {s : Fill}, (∀ f ∈ fs.directories, Fits f) → fs.Listed →
    (s.remain ≠ 0 → s.diridx = UInt16.ofNat next) →
      fillFiles little (UInt16.ofNat number) fs s =
        ((dirsFrom up number next fs).map (record little)).foldl (fun s r => emit r s) s
  | .null, _, _, _, _, _, _, _ => rfl
  | .nil, _, _, _, _, _, _, _ => rfl
  | .cons f filelist rest, up, number, next, s, hfits, ⟨hlist, hbelow, hrest⟩, hnext => by
    rw [fillFiles]
    by_cases hdir : f.isDir ∧ ¬ f.isDots
    · rw [directories_cons _ _ _ hdir] at hfits
      have hdots : f.isDots = false := Bool.eq_false_iff.mpr hdir.2
      rw [if_pos hdir, hlist hdir, dirsFrom_cons _ _ _ _ _ _ hdir, map_append, foldl_append]
      by_cases hfull : s.remain = 0
      · have hself : fillPathTable little false f (!false) (UInt16.ofNat number)
            (fun diridx => fillFiles little diridx filelist) s = s := by
          unfold fillPathTable
          rw [if_neg (by rw [hdir.1]; decide), if_pos hfull]
        rw [hself, foldl_emit_full hfull, foldl_emit_full hfull, fillFiles_full _ hfull]
      have hself : fillPathTable little false f (!false) (UInt16.ofNat number)
          (fun diridx => fillFiles little diridx filelist) s =
            ((⟨f, up, number⟩ :: dirsFrom f next (next + 1) filelist).map (record little)).foldl (fun s r => emit r s) s := by
        refine fillPathTable_fold (hfits f mem_cons_self) false ?_ hdir.1 fun t ht => ?_
        · rw [if_neg (by decide)]
          exact hdots
        · rw [hnext hfull] at ht ⊢
          refine fillFiles_fold (fun g hg => hfits g (mem_cons_of_mem _ (mem_append_left _ hg))) hbelow fun hne => ?_
          rw [ht hne, UInt16.ofNat_add]
          rfl
      rw [hself]
      refine fillFiles_fold (fun g hg => hfits g (mem_cons_of_mem _ (mem_append_right _ hg))) hrest fun hne => ?_
      rw [foldl_emit_diridx _ _ hne, hnext hfull, length_map, length_cons, ← UInt16.ofNat_add, add_assoc next 1,
        add_comm 1]
    · rw [directories_skip _ _ _ hdir] at hfits
      rw [if_neg hdir, dirsFrom_skip _ _ _ _ _ _ hdir]
      exact fillFiles_fold hfits hrest hnext

/-! ### A block -/

theorem cut_le : ∀ (rs : List (List UInt8)) (o : ℕ), cut rs o ≤ o
  | [], o => Nat.zero_le o
  | r :: rs, o => by
    have ih := cut_le rs (o - r.length)
    unfold cut
    split_ifs
    · omega
    · omega

theorem cut_zero : ∀ rs : List (List UInt8), cut rs 0 = 0
  | [] => rfl
  | r :: rs => by
    have ih := cut_zero rs
    unfold cut
    rw [Nat.zero_sub]
    split_ifs
    · exact ih
    · rfl

/-- **What a walk puts into the block**: the records, or those bytes late that are cut. -/
theorem fold_emit : ∀ (rs : List (List UInt8)) (s : Fill),
    (rs.foldl (fun s r => emit r s) s).out = s.out ++ (rs.flatten.drop (s.offset - cut rs s.offset)).take s.remain
  | [], s => by simp
  | r :: rs, s => by
    by_cases hremain : s.remain = 0
    · rw [foldl_emit_full hremain, hremain, take_zero, append_nil]
    rw [foldl_cons, fold_emit rs, flatten_cons, cut]
    unfold emit
    rw [if_neg hremain]
    have hle := cut_le rs (s.offset - r.length)
    split_ifs with hskip
    · dsimp only
      have hnone : r.drop (s.offset - cut rs (s.offset - r.length)) = [] := drop_of_length_le (by omega)
      rw [drop_append, hnone, nil_append]
      congr 3
      omega
    · dsimp only
      have hmin : s.offset - (s.offset - 8) = min s.offset 8 := by omega
      rw [cut_zero, Nat.sub_zero, drop_zero, hmin, drop_append_of_le_length (by omega), take_append,
        length_drop, append_assoc]

/-! ### The tables -/

theorem calcPathTableSize_listed (hnull : fs.isNull = false) (hdir : f.isDir = true) :
    calcPathTableSize f fs = calcPathTableRecordSize f + calcPathTableLoop fs := by
  cases fs with
  | null => cases hnull
  | nil => simp [calcPathTableSize, hdir]
  | cons => simp [calcPathTableSize, hdir]

theorem length_dirsFrom : ∀ {fs : Files} {up : Node} {number next : ℕ}, (∀ f ∈ fs.directories, Fits f) → fs.Listed →
    ((dirsFrom up number next fs).map (record little)).flatten.length = calcPathTableLoop fs
  | .null, _, _, _, _, _ => rfl
  | .nil, _, _, _, _, _ => rfl
  | .cons f filelist rest, up, number, next, hfits, ⟨hlist, hbelow, hrest⟩ => by
    rw [calcPathTableLoop_cons]
    by_cases hdir : f.isDir ∧ ¬ f.isDots
    · rw [directories_cons _ _ _ hdir] at hfits
      rw [if_pos hdir, calcPathTableSize_listed (hlist hdir) hdir.1, dirsFrom_cons _ _ _ _ _ _ hdir, map_append,
        flatten_append, length_append, map_cons, flatten_cons, length_append,
        record_length little (hfits f mem_cons_self) (fun hd => absurd hd hdir.2),
        length_dirsFrom (fun g hg => hfits g (mem_cons_of_mem _ (mem_append_left _ hg))) hbelow,
        length_dirsFrom (fun g hg => hfits g (mem_cons_of_mem _ (mem_append_right _ hg))) hrest]
    · rw [directories_skip _ _ _ hdir] at hfits
      rw [if_neg hdir, dirsFrom_skip _ _ _ _ _ _ hdir, length_dirsFrom hfits hrest, zero_add]

theorem dirsFrom_nodes : ∀ {fs : Files} {up : Node} {number next : ℕ},
    (dirsFrom up number next fs).map PathDir.node = fs.directories
  | .null, _, _, _ => rfl
  | .nil, _, _, _ => rfl
  | .cons f filelist rest, up, number, next => by
    by_cases hdir : f.isDir ∧ ¬ f.isDots
    · rw [dirsFrom_cons _ _ _ _ _ _ hdir, directories_cons _ _ _ hdir, map_append, map_cons, dirsFrom_nodes,
        dirsFrom_nodes, cons_append]
    · rw [dirsFrom_skip _ _ _ _ _ _ hdir, directories_skip _ _ _ hdir, dirsFrom_nodes]

theorem directories_dots : ∀ {fs : Files}, ∀ f ∈ fs.directories, f.isDots = false
  | .null, _, hf => absurd hf not_mem_nil
  | .nil, _, hf => absurd hf not_mem_nil
  | .cons g filelist rest, f, hf => by
    by_cases hdir : g.isDir ∧ ¬ g.isDots
    · rw [directories_cons _ _ _ hdir, mem_cons, mem_append] at hf
      rcases hf with rfl | hf | hf
      · exact Bool.eq_false_iff.mpr hdir.2
      · exact directories_dots f hf
      · exact directories_dots f hf
    · rw [directories_skip _ _ _ hdir] at hf
      exact directories_dots f hf

theorem Numbered.add {first : PathDir} (h : Numbered first es) {up : Node} {number : ℕ} (hpos : 1 ≤ number)
    (hup : ∃ e', es[number - 1]? = some e' ∧ e'.node = up) (f : Node) : Numbered first (es ++ [⟨f, up, number⟩]) := by
  intro i e he
  have hmono {j : ℕ} {e' : PathDir} (hj : es[j]? = some e') : (es ++ [⟨f, up, number⟩])[j]? = some e' := by
    rw [getElem?_append_left (List.getElem?_eq_some_iff.mp hj).1, hj]
  by_cases hi : i < es.length
  · rw [getElem?_append_left hi] at he
    rcases h i e he with hfirst | ⟨hone, hle, e', he', hnode⟩
    · exact .inl hfirst
    · exact .inr ⟨hone, hle, e', hmono he', hnode⟩
  · have hlast : i = es.length := by
      have := (List.getElem?_eq_some_iff.mp he).1
      rw [length_append, length_singleton] at this
      omega
    rw [hlast, getElem?_append_right (le_refl _), Nat.sub_self] at he
    obtain rfl := some.inj he
    obtain ⟨e', he', hnode⟩ := hup
    have hlt := (List.getElem?_eq_some_iff.mp he').1
    exact .inr ⟨hpos, by dsimp only; omega, e', hmono he', hnode⟩

/-- **The directories below one that has been** come behind their parents. -/
theorem dirsFrom_parents : ∀ {fs : Files} {first : PathDir} {es : List PathDir} {up : Node} {number : ℕ}, Numbered first es →
    1 ≤ number → (∃ e', es[number - 1]? = some e' ∧ e'.node = up) →
      Numbered first (es ++ dirsFrom up number (es.length + 1) fs)
  | .null, _, es, _, _, h, _, _ => by rwa [dirsFrom, append_nil]
  | .nil, _, es, _, _, h, _, _ => by rwa [dirsFrom, append_nil]
  | .cons f filelist rest, first, es, up, number, h, hpos, hup => by
    by_cases hdir : f.isDir ∧ ¬ f.isDots
    · have hself := h.add hpos hup f
      have hlen : (es ++ [(⟨f, up, number⟩ : PathDir)]).length = es.length + 1 := by rw [length_append, length_singleton]
      have hlast : ∃ e', (es ++ [(⟨f, up, number⟩ : PathDir)])[es.length + 1 - 1]? = some e' ∧ e'.node = f := by
        refine ⟨⟨f, up, number⟩, ?_, rfl⟩
        rw [Nat.add_sub_cancel, getElem?_append_right (le_refl _), Nat.sub_self]
        rfl
      have hbelow : Numbered first (es ++ [⟨f, up, number⟩] ++ dirsFrom f (es.length + 1) (es.length + 1 + 1) filelist) := by
        rw [← hlen]
        rw [← hlen] at hlast
        exact dirsFrom_parents hself (by omega) hlast
      have hup' : ∃ e', (es ++ [⟨f, up, number⟩] ++ dirsFrom f (es.length + 1) (es.length + 1 + 1) filelist)[number - 1]? = some e' ∧
          e'.node = up := by
        obtain ⟨e', he', hnode⟩ := hup
        have hlt := (List.getElem?_eq_some_iff.mp he').1
        refine ⟨e', ?_, hnode⟩
        rw [append_assoc, getElem?_append_left hlt, he']
      have hrest := @dirsFrom_parents rest _ _ _ _ hbelow hpos hup'
      rw [length_append, hlen, add_right_comm _ (List.length _) 1, append_assoc, append_assoc] at hrest
      rw [dirsFrom_cons _ _ _ _ _ _ hdir]
      exact hrest
    · rw [dirsFrom_skip _ _ _ _ _ _ hdir]
      exact dirsFrom_parents h hpos hup

/-! ### The blocks -/

/-- Each directory has a file list, and a name fit for an identifier. -/
structure Named (p : Param) : Prop where
  listed : p.filelist.isNull = false ∧ p.filelist.Listed
  fits : ∀ f ∈ p.filelist.directories, Fits f
  count : (dirs p).length < 65536

theorem calcPathTableRecordSize_le (f : Node) : calcPathTableRecordSize f ≤ 264 := by
  unfold calcPathTableRecordSize
  dsimp only
  omega

theorem Tabled.fits (h : Tabled p) : Fits p.root := by
  unfold Fits
  rw [h.name]
  exact ⟨by decide, by decide⟩

theorem length_records (h : Tabled p) (hp : Named p) (little : Bool) :
    (records p little).flatten.length = calcPathTableSize p.root p.filelist := by
  unfold records dirs
  rw [calcPathTableSize_listed hp.listed.1 h.dir, map_cons, flatten_cons, length_append,
    record_length little h.fits (fun _ => h.name), length_dirsFrom hp.fits hp.listed.2]

theorem length_records_le (h : Tabled p) (hp : Named p) (little : Bool) : (records p little).flatten.length ≤ 264 * 65536 := by
  have hall : ∀ r ∈ records p little, r.length ≤ 264 := by
    intro r hr
    obtain ⟨e, he, rfl⟩ := List.mem_map.mp hr
    rcases mem_cons.mp he with rfl | he
    · rw [record_length little h.fits (fun _ => h.name)]
      exact calcPathTableRecordSize_le _
    · have hnode : e.node ∈ p.filelist.directories := by
        rw [← dirsFrom_nodes]
        exact List.mem_map_of_mem he
      have hdots := directories_dots _ hnode
      rw [record_length little (hp.fits _ hnode) (fun hd => by rw [hdots] at hd; cases hd)]
      exact calcPathTableRecordSize_le _
  have hcount : (records p little).length < 65536 := by
    unfold records
    rw [length_map]
    exact hp.count
  have hsum := sum_le_card_nsmul ((records p little).map List.length) 264 (by simpa using hall)
  rw [length_map, smul_eq_mul, mul_comm] at hsum
  rw [length_flatten]
  exact hsum.trans (Nat.mul_le_mul_left 264 hcount.le)

theorem pathTableSize_toNat (h : Tabled p) (hp : Named p) (little : Bool) :
    p.pathTableSize.toNat = (records p little).flatten.length := by
  have hle := length_records_le h hp little
  rw [length_records h hp little] at hle ⊢
  rw [h.size, UInt32.toNat_ofNat']
  omega

theorem pathTableBlocks_toNat (h : Tabled p) (hp : Named p) (little : Bool) :
    (pathTableBlocks p).toNat = ((records p little).flatten.length + 2047) / 2048 := by
  have hle := length_records_le h hp little
  have hsize := pathTableSize_toNat h hp little
  simp only [pathTableBlocks, UInt32.toNat_add, UInt32.toNat_div, UInt32.toNat_sub, hsize, UInt32.reduceToNat]
  omega

theorem fillPathTable_root (h : Tabled p) (hp : Named p) (little : Bool) (offset : ℕ) :
    fillPathTable little true p.root (!p.filelist.isNull) 1 (fun diridx => fillFiles little diridx p.filelist) ⟨1, offset, [], 2048⟩ =
      (records p little).foldl (fun s r => emit r s) ⟨1, offset, [], 2048⟩ := by
  have hroot : if true then p.root.name = dotName else p.root.isDots = false := by
    rw [if_pos rfl]
    exact h.name
  have hfold : fillPathTable little true p.root true (UInt16.ofNat 1) (fun diridx => fillFiles little diridx p.filelist)
      ⟨1, offset, [], 2048⟩ = (records p little).foldl (fun s r => emit r s) ⟨1, offset, [], 2048⟩ := by
    refine fillPathTable_fold h.fits true hroot h.dir fun t ht => ?_
    exact fillFiles_fold hp.fits hp.listed.2 ht
  rw [hp.listed.1]
  exact hfold

theorem fold_window (rs : List (List UInt8)) (offset : ℕ) {r : Fill} (hr : r = rs.foldl (fun s r => emit r s) ⟨1, offset, [], 2048⟩) :
    r.out ++ List.replicate (2048 - r.out.length) 0 = window 0 rs.flatten (offset - cut rs offset) 2048 := by
  have hout := fold_emit rs ⟨1, offset, [], 2048⟩
  rw [← hr, nil_append] at hout
  dsimp only at hout
  rw [hout, ← window_drop, ← window_eq, take_append, length_take]
  congr 1
  rw [take_replicate]
  congr 1
  omega

theorem readPathTable_of (h : Tabled p) (hp : Named p) {lba : UInt32} {o : ℕ}
    (hin : lba ≥ p.pathTableLba ∧ lba < p.pathTableLba + 2 * pathTableBlocks p)
    (hlittle : decide (lba < p.pathTableLba + pathTableBlocks p) = little)
    (ho : ((if little then lba - p.pathTableLba else lba - p.pathTableLba - pathTableBlocks p) * 2048).toNat = o) :
    readPathTable p lba = some (window 0 (records p little).flatten (o - cut (records p little) o) 2048) := by
  subst hlittle ho
  unfold readPathTable
  rw [if_pos hin]
  exact congrArg some (fold_window _ _ (fillPathTable_root h hp _ _))

/-- **A block of a table** is right, or as many bytes late as are cut. -/
theorem readPathTable_eq (h : Tabled p) (hp : Named p) (little : Bool) {k : ℕ} (hk : k < (pathTableBlocks p).toNat) :
    readPathTable p (p.pathTableLba + (if little then 0 else pathTableBlocks p) + UInt32.ofNat k) =
      some (window 0 (records p little).flatten (2048 * k - cut (records p little) (2048 * k)) 2048) := by
  have hle := length_records_le h hp little
  have hblocks := pathTableBlocks_toNat h hp little
  have hknat : (UInt32.ofNat k).toNat = k := by
    rw [UInt32.toNat_ofNat']
    omega
  have h18 : p.pathTableLba.toNat = 18 := by
    rw [h.lba]
    rfl
  have hbegin : (if little then 0 else pathTableBlocks p).toNat = if little then 0 else (pathTableBlocks p).toNat := by
    split_ifs
    · rfl
    · rfl
  have hat : (p.pathTableLba + (if little then 0 else pathTableBlocks p) + UInt32.ofNat k).toNat =
      18 + (if little then 0 else (pathTableBlocks p).toNat) + k := by
    rw [UInt32.toNat_add, UInt32.toNat_add, h18, hknat, hbegin]
    split_ifs
    all_goals omega
  have hfirst : (p.pathTableLba + pathTableBlocks p).toNat = 18 + (pathTableBlocks p).toNat := by
    rw [UInt32.toNat_add, h18]
    omega
  have hlast : (p.pathTableLba + 2 * pathTableBlocks p).toNat = 18 + 2 * (pathTableBlocks p).toNat := by
    rw [UInt32.toNat_add, UInt32.toNat_mul, h18, show (2 : UInt32).toNat = 2 from rfl]
    omega
  refine readPathTable_of h hp ?_ ?_ ?_
  · rw [ge_iff_le, UInt32.le_iff_toNat_le, UInt32.lt_iff_toNat_lt, hat, hlast, h18]
    split_ifs
    all_goals omega
  · cases little with
    | true =>
      refine decide_eq_true ?_
      rw [UInt32.lt_iff_toNat_lt, hat, hfirst, if_pos rfl]
      omega
    | false =>
      refine decide_eq_false ?_
      rw [UInt32.lt_iff_toNat_lt, hat, hfirst, if_neg (by decide)]
      omega
  · have hmul : ∀ n : UInt32, n.toNat = k → (n * 2048).toNat = 2048 * k := by
      intro n hn
      rw [UInt32.toNat_mul, hn, show (2048 : UInt32).toNat = 2048 from rfl]
      omega
    refine hmul _ ?_
    cases little with
    | true =>
      rw [if_pos rfl, UInt32.toNat_sub, hat, h18, if_pos rfl]
      omega
    | false =>
      rw [if_neg (by decide), UInt32.toNat_sub, UInt32.toNat_sub, hat, h18, if_neg (by decide)]
      omega

theorem tableBytes_eq (h : Tabled p) (hp : Named p) (little : Bool) :
    tableBytes p little = (List.range (pathTableBlocks p).toNat).flatMap fun k =>
      window 0 (records p little).flatten (2048 * k - cut (records p little) (2048 * k)) 2048 := by
  unfold tableBytes
  refine flatMap_congr fun k hk => ?_
  rw [readPathTable_eq h hp little (List.mem_range.mp hk), getD_some]

/-- **A table is right** just when no block shows that it begins inside of an identifier. -/
theorem read_iff (h : Tabled p) (hp : Named p) (little : Bool) :
    (tableBytes p little).take p.pathTableSize.toNat = (records p little).flatten ↔ Unbroken p little := by
  have hblocks := pathTableBlocks_toNat h hp little
  have hlong : (records p little).flatten.length ≤ (pathTableBlocks p).toNat * 2048 := by omega
  have hiff := all_windows_iff (z := 0) (fun k => 2048 * k - cut (records p little) (2048 * k)) (Nat.zero_lt_succ 2047) hlong
  rw [tableBytes_eq h hp, pathTableSize_toNat h hp little, hiff]
  unfold Unbroken
  refine forall_congr' fun i => forall_congr' fun _ => ?_
  have hcut := cut_le (records p little) (2048 * (i / 2048))
  have hplace : 2048 * (i / 2048) - cut (records p little) (2048 * (i / 2048)) + i % 2048 =
      i - cut (records p little) (2048 * (i / 2048)) := by omega
  rw [hplace]

/-! ### An initialised volume -/

theorem settle_same (keepout : List Keepout) (f : Node) (cur : UInt32) :
    (settle keepout f cur).1.name = f.name ∧ (settle keepout f cur).1.attr = f.attr := by
  unfold settle
  dsimp only
  split_ifs
  all_goals exact ⟨rfl, rfl⟩

theorem place_same (p : Param) (parent : Option Node) (row : List Node) (f : Node) (filelist : List Node) (cur : UInt32) :
    (place p parent row f filelist cur).1.name = f.name ∧ (place p parent row f filelist cur).1.attr = f.attr := by
  unfold place
  dsimp only
  split_ifs
  · split
    · exact ⟨rfl, rfl⟩
    · exact settle_same _ _ _
  · exact settle_same _ _ _

theorem calcPathTableSize_congr {f g : Node} {fs gs : Files} (hname : f.name = g.name) (hattr : f.attr = g.attr)
    (hnull : fs.isNull = gs.isNull) (hloop : calcPathTableLoop fs = calcPathTableLoop gs) :
    calcPathTableSize f fs = calcPathTableSize g gs := by
  have hdir : f.isDir = g.isDir := by
    unfold Node.isDir
    rw [hattr]
  have hrec : calcPathTableRecordSize f = calcPathTableRecordSize g := by
    unfold calcPathTableRecordSize Node.isDots
    rw [hname]
  have hsize : ∀ (f : Node) (fs : Files), calcPathTableSize f fs =
      if fs.isNull then 0 else if f.isDir then calcPathTableRecordSize f + calcPathTableLoop fs else 0 := by
    intro f fs
    cases fs with
    | null => rfl
    | nil => simp [calcPathTableSize, Files.isNull]
    | cons => simp [calcPathTableSize, Files.isNull]
  rw [hsize, hsize, hnull, hdir, hrec, hloop]

/-- The walk of `fakeiso_init` has no say in the path tables. -/
theorem initFiles_path : ∀ (fs : Files) (parent : Option Node) (done : List Node) (cur : UInt32),
    calcPathTableLoop (initFiles p parent done cur fs).1 = calcPathTableLoop fs ∧
      (initFiles p parent done cur fs).1.isNull = fs.isNull
  | .null, _, _, _ => ⟨rfl, rfl⟩
  | .nil, _, _, _ => ⟨rfl, rfl⟩
  | .cons f filelist next, parent, done, cur => by
    rw [initFiles]
    refine ⟨?_, rfl⟩
    dsimp only
    obtain ⟨hname, hattr⟩ := place_same p parent (done ++ f :: next.row) f filelist.row cur
    set r := place p parent (done ++ f :: next.row) f filelist.row cur with hr
    obtain ⟨hloop, hnull⟩ := initFiles_path filelist (some r.1) [] r.2
    have hdir : (r.1.isDir ∧ ¬ r.1.isDots) = (f.isDir ∧ ¬ f.isDots) := by
      unfold Node.isDir Node.isDots
      rw [hname, hattr]
    rw [calcPathTableLoop_cons, calcPathTableLoop_cons, (initFiles_path next _ _ _).1, calcPathTableSize_congr hname hattr hnull hloop]
    simp only [hdir]

theorem prepare_root {cur : UInt32} (h : prepare init p₀ = some (p, cur)) :
    p.root.name = dotName ∧ p.root.isDir = true := by
  simp only [prepare, bind_eq_bind, bind_eq_some_iff] at h
  obtain ⟨p₁, -, h⟩ := h
  split_ifs at h with hname
  obtain ⟨gs, hinit, h⟩ := bind_eq_some_iff.mp h
  simp only [fileInit, Option.pure_def, bind_eq_bind, bind_eq_some_iff] at hinit
  obtain ⟨root, hroot, filelist, hfiles, next, -, hgs⟩ := hinit
  obtain rfl := some.inj hgs
  obtain ⟨size, rfl⟩ := callInit_eq hroot
  simp only [Option.some.injEq, Prod.mk.injEq] at h
  obtain ⟨rfl, rfl⟩ := h
  refine ⟨not_not.mp hname, ?_⟩
  show decide (fileattrDirectory &&& fileattrDirectory ≠ 0) = true
  decide

/-- **An initialised volume** has what its path tables need. -/
theorem tabled_of_init {capacity : Capacity} (h : drvInitNb init p₀ = some (p, capacity)) : Tabled p := by
  cases hprep : prepare init p₀ with
  | none => simp [drvInitNb, hprep] at h
  | some r =>
    obtain ⟨q, cur⟩ := r
    obtain ⟨hlba, hsize, -⟩ := prepare_spec hprep
    obtain ⟨hname, hdir⟩ := prepare_root hprep
    rw [drvInitNb_eq hprep] at h
    obtain ⟨rfl, -⟩ := Prod.mk.inj (some.inj h)
    obtain ⟨hsame, hattr⟩ := place_same q none [q.root] q.root q.filelist.row cur
    obtain ⟨hloop, hnull⟩ := initFiles_path (p := q) q.filelist (some (place q none [q.root] q.root q.filelist.row cur).1) []
      (place q none [q.root] q.root q.filelist.row cur).2
    refine ⟨hsame.trans hname, ?_, hlba, ?_⟩
    · unfold Node.isDir at hdir ⊢
      rw [← hdir, ← hattr]
    · dsimp only
      rw [hsize, calcPathTableSize_congr hsame hattr hnull hloop]

/-- **The path tables** are right just when no block shows that it begins inside of an identifier. -/
theorem pathTables_iff {init : Option (Param → Option Param)} {p₀ : Param} {capacity : Capacity}
    (h : drvInitNb init p₀ = some (p, capacity)) (hp : Named p) : PathTables p ↔ ∀ little, Unbroken p little := by
  have ht := tabled_of_init h
  constructor
  · intro hall little
    exact (read_iff ht hp little).mp (hall.read little)
  · intro hall
    have hfirst : Numbered ⟨p.root, p.root, 1⟩ [⟨p.root, p.root, 1⟩] := by
      intro i e he
      have hi : i = 0 := by
        have := (List.getElem?_eq_some_iff.mp he).1
        rw [length_singleton] at this
        omega
      subst hi
      exact .inl ⟨rfl, (some.inj he).symm⟩
    have hnumbered : Numbered ⟨p.root, p.root, 1⟩ (dirs p) := dirsFrom_parents hfirst (le_refl 1) ⟨_, rfl, rfl⟩
    refine ⟨fun little => (read_iff ht hp little).mpr (hall little), ?_, hnumbered, ?_⟩
    · rw [dirs, map_cons, dirsFrom_nodes]
    · intro e he
      have hcount := hp.count
      obtain ⟨i, hi, hget⟩ := mem_iff_getElem.mp he
      have hnumber : e.number < 65536 := by
        rcases hnumbered i e (List.getElem?_eq_some_iff.mpr ⟨hi, hget⟩) with ⟨-, rfl⟩ | ⟨-, hle, -⟩
        · show 1 < 65536
          decide
        · omega
      rw [UInt16.toNat_ofNat']
      omega

/-- A volume with a directory `a`, in which is a directory `b`. -/
def twoDeep : Files := .cons (given [97] fileattrDirectory 0) (givenDir (.cons (given [98] fileattrDirectory 0) (givenDir .nil) .nil)) .nil

theorem pathTables_iff_two : ∃ q capacity, drvInitNb none (givenParam twoDeep []) = some (q, capacity) ∧ PathTables q := by
  have hinit := drvInitNb_eq (prepare_given twoDeep [] rfl rfl)
  refine ⟨_, _, hinit, (pathTables_iff hinit ⟨⟨rfl, ?_⟩, ?_, ?_⟩).mpr ?_⟩
  · decide +kernel
  · unfold Fits
    decide +kernel
  · decide +kernel
  · unfold Unbroken
    decide +kernel

/-- Directories with a name of 221 characters, the last 31 of which are others. -/
def longNames : ℕ → Files
  | 0 => .nil
  | n + 1 => .cons (given (List.replicate 190 97 ++ List.replicate 31 98) fileattrDirectory 0) (givenDir .nil) (longNames n)

/-- The second block begins inside the ninth name, and has it from its beginning. -/
theorem pathTables_late : ∃ q capacity, drvInitNb none (givenParam (longNames 9) []) = some (q, capacity) ∧ Named q ∧
    ¬ PathTables q := by
  have hinit := drvInitNb_eq (prepare_given (longNames 9) [] rfl rfl)
  refine ⟨_, _, hinit, (and_iff_left_of_imp ?_).mpr ⟨⟨rfl, ?_⟩, ?_, ?_⟩⟩
  · intro hnamed hall
    have hread := (read_iff (tabled_of_init hinit) hnamed true).mp (hall.read true) 2048
    revert hread
    decide +kernel
  · decide +kernel
  · unfold Fits
    decide +kernel
  · decide +kernel

end FakeIso
end Vsf
