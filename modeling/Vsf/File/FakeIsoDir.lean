/-
# The directories of an ISO 9660 volume

`fakeiso_fill_dir` walks over the records of all files and puts those into a block that have room
for. A record that does not fit ends only the loop over its file's extents, so a shorter one behind
it is put into this block and the next. A file without bytes has no record, though
`fakeiso_calc_dir_size` counts one; and the name is copied with its zero. `dirList_iff` says when
none of that shows.
-/
import Mathlib
import Vsf.File.FakeIso
import Vsf.File.FakeIsoPath
import Vsf.Lib.ByteMem
import Vsf.Lib.CStr
import Vsf.Lib.LittleEndian
import Vsf.Lib.NextFit
import Vsf.Lib.Text

namespace Vsf
namespace FakeIso

open ByteMem CStr File NextFit Text

/-! ### `fakeiso_fill_dir` -/

/-- `FAKEISO_FILEATTR_NOT_FINAL`. -/
def fileattrNotFinal : UInt8 := 0x80

/-- A part of a file that has a record: all of it if it has less than 4 GiB. -/
structure Extent where
  file : Node
  lba : UInt32
  len : UInt32
  last : Bool

/-- `fakeiso_calc_file_record_size`. -/
def Extent.size (e : Extent) : ℕ := calcFileRecordSize e.file

/-- The length of a file identifier. -/
def identifierSize (f : Node) : ℕ :=
  if f.isDots then 1
  else if f.isDir then min (0xFE - 33) f.name.length
  else min (0xFE - 33) (f.name.length + 2)

/-- A number of 32 bits in both orders. -/
def both32 (v : UInt32) : List UInt8 := LE.bytes32 v ++ (LE.bytes32 v).reverse

def both16 (v : UInt16) : List UInt8 := LE.bytes16 v ++ (LE.bytes16 v).reverse

/-- `fakeiso_fill_file_record`, with what `fakeiso_fill_dir` puts over its fields. -/
def fillFileRecord (e : Extent) : List UInt8 :=
  [UInt8.ofNat e.size, 0] ++ both32 e.lba ++ both32 e.len ++ List.replicate 7 0 ++
    [e.file.attr ||| if e.last then 0 else fileattrNotFinal] ++ [0, 0] ++ both16 e.file.volumeSequenceNumber ++
    [UInt8.ofNat (identifierSize e.file)]

/-- What is put behind these 33 bytes. -/
def nameBytes (f : Node) : List UInt8 :=
  if f.name = dotName then [0]
  else if f.name = dotdotName then [1]
  else if f.isDir then f.name ++ [0]
  else f.name ++ ascii ";1" ++ [0]

/-- What a walk works on: `*offset`, `page_size`, `buff` and `*remain_size`. -/
structure DirFill where
  offset : ℕ
  page : ℕ
  mem : Mem
  buff : ℕ
  remain : ℕ

/-- A record is put into the buffer; no result if a byte is put outside. -/
def putExtent (e : Extent) (s : DirFill) : Option DirFill := do
  let mem ← memcpy 2048 s.mem s.buff (fillFileRecord e)
  let mem ← memcpy 2048 mem (s.buff + 33) (nameBytes e.file)
  some { s with mem, buff := s.buff + e.size, remain := s.remain - e.size }

/-- The pages in front of the block are counted. -/
def passExtent (entrySize : ℕ) (s : DirFill) : DirFill :=
  if s.offset > 0 then
    if s.page + entrySize > 2048 then { s with offset := s.offset - 2048, page := entrySize }
    else { s with page := s.page + entrySize }
  else s

/-- The next part of a file, of which `fileSize` bytes are left. -/
def nextExtent (f : Node) (fileSize : ℕ) (curLba : UInt32) : Extent :=
  { file := f
    lba := f.firstLba + curLba
    len := if fileSize ≥ 2 ^ 32 then 0xFFFFF800 else UInt32.ofNat fileSize
    last := fileSize < 2 ^ 32 }

/-- The loop over the parts of a file; `fileSize` rounds are enough. -/
def fillExtents (f : Node) : (rounds fileSize : ℕ) → UInt32 → DirFill → Option DirFill
  | 0, _, _, s => some s
  | rounds + 1, fileSize, curLba, s =>
    if fileSize = 0 then some s
    else
      let e := nextExtent f fileSize curLba
      let curBlockSize := (e.len + 2048 - 1) / 2048
      let s := passExtent e.size s
      if s.offset = 0 then
        if s.remain < e.size then some s
        else (putExtent e s).bind (fillExtents f rounds (fileSize - e.len.toNat) (curLba + curBlockSize))
      else fillExtents f rounds (fileSize - e.len.toNat) (curLba + curBlockSize) s

/-- `fakeiso_fill_dir`, and whether it returns `VSFERR_NONE`. -/
def fillDir (d : Node) (filelist : Files) (s : DirFill) : Option (Bool × DirFill) :=
  if s.offset % 2048 ≠ 0 ∨ d.isDir = false ∨ filelist.isNull = true then some (false, s)
  else if s.remain = 0 then some (true, s)
  else (filelist.row.foldlM (fun s f => fillExtents f f.size.toNat f.size.toNat 0 s) s).map fun s => (true, s)

/-- `fakeiso_dir_read` of block `k` into a buffer of zeros. -/
def dirRead (d : Node) (filelist : Files) (k : ℕ) : Option (List UInt8) :=
  (fillDir d filelist ⟨2048 * k, 0, fun _ => 0, 0, 2048⟩).bind fun r => if r.1 then some (text r.2.mem 2048) else none

/-! ### What is read -/

/-- The records of a block, up to a length of zero; none may end behind it. -/
def splitRecords : ℕ → List UInt8 → Option (List (List UInt8))
  | 0, _ => some []
  | _ + 1, [] => some []
  | n + 1, b :: bs =>
    if b = 0 then some []
    else if b.toNat ≤ bs.length + 1 then
      (splitRecords n ((b :: bs).drop b.toNat)).map ((b :: bs).take b.toNat :: ·)
    else none

/-- What a record says. -/
structure DirRecord where
  lba : UInt32
  len : UInt32
  flags : UInt8
  identifier : List UInt8
  deriving DecidableEq

def DirRecord.of (b : List UInt8) : DirRecord :=
  ⟨LE.get32 b 2, LE.get32 b 10, LE.get8 b 25, (b.drop 33).take (LE.get8 b 32).toNat⟩

/-- What the records of block `k` say. -/
def dirRecords (d : Node) (filelist : Files) (k : ℕ) : Option (List DirRecord) :=
  (dirRead d filelist k).bind fun b => (splitRecords b.length b).map fun rs => rs.map DirRecord.of

/-- A file identifier: that of a file has a version behind the name. -/
def fileIdentifier (f : Node) : List UInt8 :=
  if f.name = dotName then [0]
  else if f.name = dotdotName then [1]
  else if f.isDir then f.name
  else f.name ++ ascii ";1"

/-- The records of one file: one, or parts that are all of it. -/
structure Extents (f : Node) (rs : List DirRecord) : Prop where
  name : ∀ r ∈ rs, r.identifier = fileIdentifier f
  single : f.size.toNat < 2 ^ 32 → rs.length = 1
  lba : ∀ i r, rs[i]? = some r → r.lba.toNat = f.firstLba.toNat + ((rs.take i).map fun r => blocks r.len.toNat).sum
  len : (rs.map fun r => r.len.toNat).sum = f.size.toNat
  flags : ∀ i r, rs[i]? = some r → r.flags = f.attr ||| if i + 1 = rs.length then 0 else fileattrNotFinal

/-- The blocks of a directory list its files in their order, each one once. -/
structure DirList (d : Node) (filelist : Files) : Prop where
  read : ∀ k, (dirRecords d filelist k).isSome = true
  listed : ∃ groups, List.Forall₂ Extents filelist.row groups ∧
    ∃ n₀, ∀ n ≥ n₀, (List.range n).flatMap (fun k => (dirRecords d filelist k).getD []) = groups.flatten
  count : {k | (dirRecords d filelist k).getD [] ≠ []}.ncard = blocks (UInt64.ofNat (calcDirSize filelist.row)).toNat

/-! ### When it is read -/

/-- The parts of a file. -/
def extentsFrom (f : Node) : (rounds fileSize : ℕ) → UInt32 → List Extent
  | 0, _, _ => []
  | rounds + 1, fileSize, curLba =>
    if fileSize = 0 then []
    else
      let e := nextExtent f fileSize curLba
      e :: extentsFrom f rounds (fileSize - e.len.toNat) (curLba + (e.len + 2048 - 1) / 2048)

def extents (f : Node) : List Extent := extentsFrom f f.size.toNat f.size.toNat 0

/-- The parts of all files of a directory. -/
def allExtents (row : List Node) : List Extent := row.flatMap extents

/-- The records that are to be in block `k`. -/
def dirPage (row : List Node) (k : ℕ) : List Extent := page Extent.size 2048 0 (behind Extent.size 2048 k (allExtents row))

/-- The name is copied with its zero, and that is behind the record. -/
def Extent.spills (e : Extent) : Bool := !e.file.isDots && identifierSize e.file % 2 = 1

/-- What it takes for a directory to be read. -/
structure Pageable (row : List Node) : Prop where
  nonempty : ∀ f ∈ row, f.size ≠ 0
  room : ∀ k, ∀ e ∈ behind Extent.size 2048 (k + 1) (allExtents row), 2048 < total Extent.size (dirPage row k) + e.size
  zero : ∀ k e, (dirPage row k).getLast? = some e → total Extent.size (dirPage row k) = 2048 → e.spills = false
  lba : ∀ f ∈ row, f.firstLba.toNat + ((extents f).length - 1) * 0x1FFFFF < 2 ^ 32
  size : calcDirSize row < 2 ^ 64

/-- A directory with a list of files, with names that are not too long. -/
structure Directory (d : Node) (filelist : Files) : Prop where
  dir : d.isDir = true
  listed : filelist.isNull = false
  names : ∀ f ∈ filelist.row, f.name.length ≤ 219

variable {f : Node} {e : Extent} {d : Node} {filelist : Files}

/-! ### A record -/

/-- A record as it is to be read. -/
def dirRecord (e : Extent) : List UInt8 :=
  fillFileRecord e ++ (fileIdentifier e.file ++ if identifierSize e.file % 2 = 0 then [0] else [])

/-- What a record says. -/
def Extent.seen (e : Extent) : DirRecord :=
  ⟨e.lba, e.len, e.file.attr ||| if e.last then 0 else fileattrNotFinal, fileIdentifier e.file⟩

theorem fillFileRecord_length (e : Extent) : (fillFileRecord e).length = 33 := rfl

theorem isDots_iff (f : Node) : f.isDots = true ↔ f.name = dotName ∨ f.name = dotdotName := by
  unfold Node.isDots
  rw [Bool.or_eq_true, decide_eq_true_eq, decide_eq_true_eq]

theorem fileIdentifier_length (h : f.name.length ≤ 219) : (fileIdentifier f).length = identifierSize f := by
  have hdots := isDots_iff f
  unfold fileIdentifier identifierSize
  by_cases h1 : f.name = dotName
  · rw [if_pos h1, if_pos (hdots.mpr (.inl h1))]
    rfl
  by_cases h2 : f.name = dotdotName
  · rw [if_neg h1, if_pos h2, if_pos (hdots.mpr (.inr h2))]
    rfl
  rw [if_neg h1, if_neg h2, if_neg (fun hd => (hdots.mp hd).elim h1 h2)]
  split_ifs
  · omega
  · rw [List.length_append, show (ascii ";1").length = 2 from rfl]
    omega

theorem extent_size (h : e.file.name.length ≤ 219) :
    e.size = 33 + identifierSize e.file + (if identifierSize e.file % 2 = 0 then 1 else 0) := by
  have hsize : calcFileRecordSize e.file = (33 + identifierSize e.file + 1) / 2 * 2 := by
    unfold calcFileRecordSize identifierSize
    dsimp only
    by_cases hdots : e.file.isDots = true
    · rw [if_pos hdots, if_pos hdots]
      rfl
    · rw [if_neg hdots, if_neg hdots]
      by_cases hdir : e.file.isDir = true
      · rw [if_pos hdir, if_pos hdir]
        omega
      · rw [if_neg hdir, if_neg hdir]
        omega
  unfold Extent.size
  rw [hsize]
  split_ifs
  all_goals omega

theorem size_bounds (h : e.file.name.length ≤ 219) : 33 < e.size ∧ e.size ≤ 254 := by
  unfold Extent.size calcFileRecordSize
  dsimp only
  split_ifs <;> omega

theorem dirRecord_length (h : e.file.name.length ≤ 219) : (dirRecord e).length = e.size := by
  unfold dirRecord
  rw [List.length_append, fillFileRecord_length, List.length_append, fileIdentifier_length h, extent_size h]
  split_ifs <;> simp only [List.length_singleton, List.length_nil] <;> omega

theorem nameBytes_eq (e : Extent) : fillFileRecord e ++ nameBytes e.file =
    dirRecord e ++ if e.spills then [0] else [] := by
  have hdots := isDots_iff e.file
  unfold dirRecord nameBytes fileIdentifier Extent.spills
  by_cases h1 : e.file.name = dotName
  · have hsize : identifierSize e.file = 1 := if_pos (hdots.mpr (.inl h1))
    rw [if_pos h1, if_pos h1, hsize, hdots.mpr (.inl h1)]
    simp
  by_cases h2 : e.file.name = dotdotName
  · have hsize : identifierSize e.file = 1 := if_pos (hdots.mpr (.inr h2))
    rw [if_neg h1, if_neg h1, if_pos h2, if_pos h2, hsize, hdots.mpr (.inr h2)]
    simp
  have hno : e.file.isDots = false := Bool.eq_false_iff.mpr fun hd => (hdots.mp hd).elim h1 h2
  rw [if_neg h1, if_neg h1, if_neg h2, if_neg h2, hno]
  by_cases hodd : identifierSize e.file % 2 = 1
  · have hpad : ¬ identifierSize e.file % 2 = 0 := by omega
    simp only [hodd, Bool.not_false, Bool.true_and, decide_true, if_true, if_neg (show ¬ (1 : ℕ) = 0 by decide), List.append_nil]
    split_ifs <;> simp
  · have hpad : identifierSize e.file % 2 = 0 := by omega
    simp only [hpad, Bool.not_false, Bool.true_and, if_true, show decide ((0 : ℕ) = 1) = false from rfl]
    split_ifs <;> simp_all

theorem seen_of (h : e.file.name.length ≤ 219) : DirRecord.of (dirRecord e) = e.seen := by
  have hsmall : identifierSize e.file < 256 := by
    unfold identifierSize
    split_ifs
    all_goals omega
  have hlba : LE.get32 (dirRecord e) 2 = e.lba := LE.get32_bytes32 e.lba ((dirRecord e).drop 6)
  have hlen : LE.get32 (dirRecord e) 10 = e.len := LE.get32_bytes32 e.len ((dirRecord e).drop 14)
  have hflags : LE.get8 (dirRecord e) 25 = e.file.attr ||| if e.last then 0 else fileattrNotFinal := rfl
  have hcount : (LE.get8 (dirRecord e) 32).toNat = identifierSize e.file := by
    show (UInt8.ofNat (identifierSize e.file)).toNat = _
    rw [UInt8.toNat_ofNat']
    exact Nat.mod_eq_of_lt hsmall
  have hname : ((dirRecord e).drop 33).take (identifierSize e.file) = fileIdentifier e.file := by
    unfold dirRecord
    rw [← fillFileRecord_length e, List.drop_left, ← fileIdentifier_length h, List.take_left]
  unfold DirRecord.of Extent.seen
  rw [hlba, hlen, hflags, hcount, hname]

/-! ### A record is put into the buffer -/

/-- A buffer of zeros with `out` in it. -/
def bufferOf (out : List UInt8) : Mem := write (fun _ => 0) 0 out

theorem bufferOf_append (out bs : List UInt8) : write (bufferOf out) out.length bs = bufferOf (out ++ bs) := by
  unfold bufferOf
  rw [write_append, zero_add]

theorem bufferOf_zero (out : List UInt8) : bufferOf (out ++ [0]) = bufferOf out := by
  rw [← bufferOf_append]
  funext i
  by_cases hi : i = out.length
  · have hat : write (bufferOf out) out.length [0] (out.length + 0) = ([0] : List UInt8)[0] := write_at (by decide)
    rw [add_zero] at hat
    rw [hi, hat]
    unfold bufferOf
    rw [write_ge (by omega)]
    rfl
  · rcases lt_or_gt_of_ne hi with hlt | hgt
    · exact write_lt hlt
    · exact write_ge (by rw [List.length_singleton]; omega)

theorem text_bufferOf {out : List UInt8} (h : out.length ≤ 2048) :
    text (bufferOf out) 2048 = out ++ List.replicate (2048 - out.length) 0 := by
  refine List.ext_getElem (by simp [text]; omega) fun i hi _ => ?_
  simp only [text, List.getElem_map, List.getElem_range]
  by_cases hlt : i < out.length
  · have hat := write_at (m := fun _ => 0) (a := 0) hlt
    rw [zero_add] at hat
    rw [List.getElem_append_left hlt]
    exact hat
  · rw [List.getElem_append_right (not_lt.mp hlt), List.getElem_replicate]
    exact write_ge (by omega)

/-- What a walk works on when `out` is in the buffer. -/
def fillOf (offset page : ℕ) (out : List UInt8) : DirFill := ⟨offset, page, bufferOf out, out.length, 2048 - out.length⟩

/-- **A record goes behind those there**, if no zero comes behind the buffer. -/
theorem putExtent_eq (h : e.file.name.length ≤ 219) (offset page : ℕ) {out : List UInt8} (hfit : out.length + e.size ≤ 2048) :
    putExtent e (fillOf offset page out) =
      if e.spills ∧ out.length + e.size = 2048 then none else some (fillOf offset page (out ++ dirRecord e)) := by
  have hlen := dirRecord_length h
  have hsize := size_bounds h
  have hname : 33 + (nameBytes e.file).length = e.size + if e.spills then 1 else 0 := by
    have heq := congrArg List.length (nameBytes_eq e)
    rw [List.length_append, List.length_append, fillFileRecord_length, hlen] at heq
    rw [heq]
    split_ifs <;> rfl
  have hhead : memcpy 2048 (bufferOf out) out.length (fillFileRecord e) = some (bufferOf (out ++ fillFileRecord e)) := by
    unfold memcpy
    rw [if_pos (by rw [fillFileRecord_length]; omega), bufferOf_append]
  have hmem : write (bufferOf (out ++ fillFileRecord e)) (out.length + 33) (nameBytes e.file) = bufferOf (out ++ dirRecord e) := by
    have happ := bufferOf_append (out ++ fillFileRecord e) (nameBytes e.file)
    rw [List.length_append, fillFileRecord_length] at happ
    rw [happ, List.append_assoc, nameBytes_eq]
    split_ifs
    · rw [← List.append_assoc, bufferOf_zero]
    · rw [List.append_nil]
  have hend : 2048 - out.length - e.size = 2048 - (out ++ dirRecord e).length := by
    rw [List.length_append, hlen]
    omega
  have hbuff : out.length + e.size = (out ++ dirRecord e).length := by rw [List.length_append, hlen]
  unfold putExtent fillOf
  dsimp only
  rw [hhead, Option.bind_eq_bind, Option.bind_some, memcpy, hmem, hend, hbuff]
  by_cases hspill : e.spills = true
  · rw [if_pos hspill] at hname
    by_cases hfull : out.length + e.size = 2048
    · rw [if_neg (by omega), if_pos ⟨hspill, hbuff ▸ hfull⟩]
      rfl
    · rw [if_pos (by omega), if_neg (fun hno => hfull (hbuff.trans hno.2))]
      rfl
  · rw [if_neg hspill] at hname
    rw [if_pos (by omega), if_neg (fun hno => hspill hno.1)]
    rfl

/-! ### A walk -/

/-- A round of the walk, for one record. -/
def visit (s : DirFill) (e : Extent) : Option DirFill :=
  let s := passExtent e.size s
  if s.offset = 0 then if s.remain < e.size then some s else putExtent e s
  else some s

theorem visit_full {s : DirFill} {n : ℕ} (h0 : s.offset = 0) (hn : s.remain < n) : ∀ es : List Extent, (∀ e ∈ es, e.size = n) →
    es.foldlM visit s = some s
  | [], _ => rfl
  | e :: es, h => by
    have hpass : passExtent e.size s = s := by
      unfold passExtent
      rw [if_neg (by omega)]
    have hvisit : visit s e = some s := by
      unfold visit
      rw [hpass, if_pos h0, if_pos (by rw [h e List.mem_cons_self]; exact hn)]
    rw [List.foldlM_cons, hvisit]
    exact visit_full h0 hn es fun x hx => h x (List.mem_cons_of_mem _ hx)

theorem extentsFrom_file (f : Node) : ∀ (rounds fileSize : ℕ) (curLba : UInt32), ∀ e ∈ extentsFrom f rounds fileSize curLba, e.file = f
  | 0, _, _, _, he => absurd he List.not_mem_nil
  | rounds + 1, fileSize, curLba, e, he => by
    rw [extentsFrom] at he
    split_ifs at he
    · exact absurd he List.not_mem_nil
    · rcases List.mem_cons.mp he with rfl | he
      · rfl
      · exact extentsFrom_file f rounds _ _ e he

/-- **The loop over the parts of a file** visits each; nothing follows the last. -/
theorem fillExtents_visit (f : Node) : ∀ (rounds fileSize : ℕ) (curLba : UInt32) (s : DirFill),
    fillExtents f rounds fileSize curLba s = (extentsFrom f rounds fileSize curLba).foldlM visit s
  | 0, _, _, _ => rfl
  | rounds + 1, fileSize, curLba, s => by
    rw [fillExtents, extentsFrom]
    split_ifs with h0
    · rfl
    rw [List.foldlM_cons]
    unfold visit
    dsimp only
    split_ifs with hoff hfull
    · have hsame : ∀ e ∈ extentsFrom f rounds (fileSize - (nextExtent f fileSize curLba).len.toNat)
          (curLba + ((nextExtent f fileSize curLba).len + 2048 - 1) / 2048), e.size = (nextExtent f fileSize curLba).size := by
        intro e he
        unfold Extent.size
        rw [extentsFrom_file f _ _ _ e he]
        rfl
      exact (visit_full hoff hfull _ hsame).symm
    · exact congrArg (Option.bind _) (funext fun s => fillExtents_visit f rounds _ _ s)
    · exact fillExtents_visit f rounds _ _ _

theorem fillRow_visit : ∀ (row : List Node) (s : DirFill),
    row.foldlM (fun s f => fillExtents f f.size.toNat f.size.toNat 0 s) s = (allExtents row).foldlM visit s
  | [], _ => rfl
  | f :: row, s => by
    unfold allExtents
    rw [List.foldlM_cons, List.flatMap_cons, List.foldlM_append, fillExtents_visit]
    exact congrArg (Option.bind _) (funext fun s => fillRow_visit row s)

/-- The records one behind the other, until a zero comes behind the buffer. -/
def putAll : List UInt8 → List Extent → Option (List UInt8)
  | out, [] => some out
  | out, e :: es => if e.spills ∧ out.length + e.size = 2048 then none else putAll (out ++ dirRecord e) es

/-- In the block, each record is put that has room. -/
theorem visit_zero : ∀ (es : List Extent) {out : List UInt8} (page : ℕ), (∀ e ∈ es, e.file.name.length ≤ 219) → out.length ≤ 2048 →
    (es.foldlM visit (fillOf 0 page out)).map DirFill.mem = (putAll out (NextFit.walk Extent.size 2048 0 out.length es)).map bufferOf
  | [], _, _, _, _ => rfl
  | e :: es, out, page, hnames, hout => by
    have he := hnames e List.mem_cons_self
    have hes := fun x hx => hnames x (List.mem_cons_of_mem e hx)
    have hvisit : visit (fillOf 0 page out) e = if 2048 - out.length < e.size then some (fillOf 0 page out)
        else putExtent e (fillOf 0 page out) := rfl
    rw [List.foldlM_cons, hvisit, NextFit.walk]
    by_cases hfit : out.length + e.size ≤ 2048
    · rw [if_neg (by omega), if_pos hfit, putExtent_eq he 0 page hfit, putAll]
      split_ifs
      · rfl
      · have hlen : (out ++ dirRecord e).length = out.length + e.size := by rw [List.length_append, dirRecord_length he]
        have ih := visit_zero es page hes (show (out ++ dirRecord e).length ≤ 2048 by omega)
        rw [hlen] at ih
        exact ih
    · rw [if_pos (by omega), if_neg hfit]
      exact visit_zero es page hes hout

/-- In front of the block a record is counted; the one that begins it is put there. -/
theorem visit_pass (he : e.file.name.length ≤ 219) (k u : ℕ) : visit (fillOf (2048 * (k + 1)) u []) e =
    if u + e.size ≤ 2048 then some (fillOf (2048 * (k + 1)) (u + e.size) [])
    else if k = 0 then some (fillOf 0 e.size (dirRecord e))
    else some (fillOf (2048 * k) e.size []) := by
  have hsize := size_bounds he
  have hpos : (fillOf (2048 * (k + 1)) u []).offset > 0 := Nat.succ_pos _
  have hpass : passExtent e.size (fillOf (2048 * (k + 1)) u []) =
      if u + e.size > 2048 then fillOf (2048 * k) e.size [] else fillOf (2048 * (k + 1)) (u + e.size) [] := by
    unfold passExtent fillOf
    rw [if_pos (show 2048 * (k + 1) > 0 from hpos)]
    split_ifs
    · rw [Nat.mul_succ, Nat.add_sub_cancel]
    · rfl
  unfold visit
  rw [hpass]
  by_cases hfit : u + e.size ≤ 2048
  · rw [if_neg (not_lt.mpr hfit), if_pos hfit]
    exact if_neg (Nat.succ_ne_zero _)
  rw [if_pos (not_le.mp hfit), if_neg hfit]
  by_cases hk : k = 0
  · subst hk
    have hone : ([] : List UInt8).length + e.size ≤ 2048 := by
      rw [List.length_nil]
      omega
    have hput := putExtent_eq he 0 e.size hone
    rw [if_neg (fun h => absurd h.2 (by rw [List.length_nil]; omega)), List.nil_append] at hput
    have hroom : ¬ (fillOf (2048 * 0) e.size []).remain < e.size := not_lt.mpr (show e.size ≤ 2048 by omega)
    rw [if_pos rfl, if_pos (show (fillOf (2048 * 0) e.size []).offset = 0 from rfl), if_neg hroom]
    exact hput
  · rw [if_neg hk]
    exact if_neg (fun h => hk ((mul_eq_zero.mp h).resolve_left (by decide)))

/-- **A walk** puts into the block what a walk over the pages finds for it. -/
theorem visit_walk : ∀ (es : List Extent) (k u : ℕ), (∀ e ∈ es, e.file.name.length ≤ 219) →
    (es.foldlM visit (fillOf (2048 * (k + 1)) u [])).map DirFill.mem = (putAll [] (NextFit.walk Extent.size 2048 (k + 1) u es)).map bufferOf
  | [], _, _, _ => rfl
  | e :: es, k, u, hnames => by
    have he := hnames e List.mem_cons_self
    have hes := fun x hx => hnames x (List.mem_cons_of_mem e hx)
    have hsize := size_bounds he
    rw [List.foldlM_cons, NextFit.walk, visit_pass he]
    split_ifs with hfit hk
    · exact visit_walk es k (u + e.size) hes
    · have hzero := visit_zero es e.size hes (show (dirRecord e).length ≤ 2048 by rw [dirRecord_length he]; omega)
      have hno : ¬ (e.spills = true ∧ ([] : List UInt8).length + e.size = 2048) := by
        rw [List.length_nil]
        omega
      rw [dirRecord_length he] at hzero
      rw [putAll, if_neg hno, List.nil_append, hk]
      exact hzero
    · obtain ⟨j, rfl⟩ := Nat.exists_eq_succ_of_ne_zero hk
      exact visit_walk es j e.size hes

/-- The records that are put into block `k`. -/
def dirFilled (row : List Node) (k : ℕ) : List Extent := fill Extent.size 2048 0 (behind Extent.size 2048 k (allExtents row))

theorem fillDir_eq (hd : Directory d filelist) (k : ℕ) (hnames : ∀ e ∈ allExtents filelist.row, e.file.name.length ≤ 219) :
    dirRead d filelist k = (putAll [] (dirFilled filelist.row k)).map fun out => text (bufferOf out) 2048 := by
  have hstart : (⟨2048 * k, 0, fun _ => 0, 0, 2048⟩ : DirFill) = fillOf (2048 * k) 0 [] := by
    unfold fillOf bufferOf
    rw [write_nil]
    rfl
  have hfold : ((allExtents filelist.row).foldlM visit (fillOf (2048 * k) 0 [])).map DirFill.mem =
      (putAll [] (dirFilled filelist.row k)).map bufferOf := by
    cases k with
    | zero =>
      rw [Nat.mul_zero, visit_zero _ 0 hnames (Nat.zero_le _), List.length_nil, walk_zero]
      rfl
    | succ k =>
      rw [visit_walk _ k 0 hnames, walk_behind _ k 0 fun e he => (size_bounds (hnames e he)).2.trans (by decide)]
      rfl
  have hcheck : ¬ ((fillOf (2048 * k) 0 []).offset % 2048 ≠ 0 ∨ d.isDir = false ∨ filelist.isNull = true) := by
    rintro (hmod | hdir | hnull)
    · exact hmod (Nat.mul_mod_right 2048 k)
    · rw [hd.dir] at hdir
      cases hdir
    · rw [hd.listed] at hnull
      cases hnull
  have hroom : ¬ (fillOf (2048 * k) 0 []).remain = 0 := by
    show ¬ 2048 - 0 = 0
    decide
  unfold dirRead fillDir
  rw [hstart, if_neg hcheck, if_neg hroom, fillRow_visit]
  cases hrun : (allExtents filelist.row).foldlM visit (fillOf (2048 * k) 0 []) with
  | none =>
    rw [hrun, Option.map_none] at hfold
    rw [Option.map_eq_none_iff.mp hfold.symm]
    rfl
  | some s =>
    rw [hrun, Option.map_some] at hfold
    obtain ⟨out, hout, hmem⟩ := Option.map_eq_some_iff.mp hfold.symm
    rw [hout, Option.map_some, Option.map_some, Option.bind_some, if_pos rfl, hmem]

/-! ### What is read of a block -/

theorem putAll_some : ∀ (es : List Extent) (out : List UInt8), (∀ e ∈ es, e.file.name.length ≤ 219) →
    out.length + total Extent.size es ≤ 2048 →
      ((∀ e, es.getLast? = some e → out.length + total Extent.size es = 2048 → e.spills = false) →
        putAll out es = some (out ++ es.flatMap dirRecord)) ∧
      ((∃ e, es.getLast? = some e ∧ out.length + total Extent.size es = 2048 ∧ e.spills = true) → putAll out es = none)
  | [], out, _, _ => by
    refine ⟨fun _ => by rw [putAll, List.flatMap_nil, List.append_nil], ?_⟩
    rintro ⟨e, he, -⟩
    cases he
  | e :: es, out, hnames, hle => by
    have he := hnames e List.mem_cons_self
    have hes := fun x hx => hnames x (List.mem_cons_of_mem e hx)
    have hlen : (out ++ dirRecord e).length = out.length + e.size := by rw [List.length_append, dirRecord_length he]
    rw [total_cons] at hle ⊢
    obtain ⟨ihsome, ihnone⟩ := putAll_some es (out ++ dirRecord e) hes (by rw [hlen]; omega)
    rw [hlen] at ihsome ihnone
    cases es with
    | nil =>
      have hzero : total Extent.size [] = 0 := rfl
      rw [hzero, add_zero, putAll, List.flatMap_singleton]
      constructor
      · intro hall
        rw [if_neg (fun h => by rw [hall e rfl h.2] at h; cases h.1)]
        rfl
      · rintro ⟨e', he', hfull, hspill⟩
        obtain rfl := Option.some.inj he'
        rw [if_pos ⟨hspill, hfull⟩]
    | cons e' es =>
      have hmore : 0 < total Extent.size (e' :: es) := by
        have := size_bounds (hes e' List.mem_cons_self)
        rw [total_cons]
        omega
      have hno : ¬ (e.spills = true ∧ out.length + e.size = 2048) := by
        rintro ⟨-, hfull⟩
        omega
      rw [putAll, if_neg hno, List.getLast?_cons_cons, List.flatMap_cons, ← List.append_assoc, ← add_assoc]
      exact ⟨ihsome, ihnone⟩

theorem splitRecords_of : ∀ (es : List Extent) (zeros n : ℕ), (∀ e ∈ es, e.file.name.length ≤ 219) → es.length < n →
    splitRecords n (es.flatMap dirRecord ++ List.replicate zeros 0) = some (es.map dirRecord)
  | _, _, 0, _, hn => absurd hn (Nat.not_lt_zero _)
  | [], 0, n + 1, _, _ => rfl
  | [], zeros + 1, n + 1, _, _ => rfl
  | e :: es, zeros, n + 1, hnames, hn => by
    have he := hnames e List.mem_cons_self
    have hes := fun x hx => hnames x (List.mem_cons_of_mem e hx)
    have hsize := size_bounds he
    have hlen := dirRecord_length he
    have hbyte : (UInt8.ofNat e.size).toNat = e.size := by
      rw [UInt8.toNat_ofNat']
      omega
    obtain ⟨bs, hbs⟩ : ∃ bs, dirRecord e = UInt8.ofNat e.size :: bs := ⟨(dirRecord e).tail, rfl⟩
    have hne : UInt8.ofNat e.size ≠ 0 := by
      intro h
      rw [h] at hbyte
      exact absurd hbyte (by show ¬ 0 = e.size; omega)
    have hcons : (e :: es).flatMap dirRecord ++ List.replicate zeros 0 =
        UInt8.ofNat e.size :: (bs ++ (es.flatMap dirRecord ++ List.replicate zeros 0)) := by
      rw [List.flatMap_cons, hbs, List.append_assoc, List.cons_append]
    have hfront : (UInt8.ofNat e.size :: (bs ++ (es.flatMap dirRecord ++ List.replicate zeros 0))) =
        dirRecord e ++ (es.flatMap dirRecord ++ List.replicate zeros 0) := by
      rw [hbs, List.cons_append]
    have hfit : e.size ≤ (bs ++ (es.flatMap dirRecord ++ List.replicate zeros 0)).length + 1 := by
      rw [hbs, List.length_cons] at hlen
      rw [List.length_append]
      omega
    rw [hcons, splitRecords, if_neg hne, hbyte, if_pos hfit, hfront, ← hlen, List.drop_left, List.take_left,
      splitRecords_of es zeros n hes (Nat.lt_of_succ_lt_succ hn)]
    rfl

theorem length_records_of {es : List Extent} (hnames : ∀ e ∈ es, e.file.name.length ≤ 219) :
    (es.flatMap dirRecord).length = total Extent.size es := by
  rw [List.length_flatMap]
  exact congrArg List.sum (List.map_congr_left fun e he => dirRecord_length (hnames e he))

theorem length_le_total {es : List Extent} (hnames : ∀ e ∈ es, e.file.name.length ≤ 219) : 34 * es.length ≤ total Extent.size es := by
  induction es with
  | nil => exact Nat.zero_le _
  | cons e es ih =>
    have hsize := size_bounds (hnames e List.mem_cons_self)
    have := ih fun x hx => hnames x (List.mem_cons_of_mem _ hx)
    rw [List.length_cons, total_cons]
    omega

theorem dirFilled_sub {row : List Node} (k : ℕ) : ∀ e ∈ dirFilled row k, e ∈ allExtents row := by
  intro e he
  exact behind_sub k _ e (fill_sub _ 0 e he)

/-- **What is read of a block**: its records, if no zero comes behind the buffer. -/
theorem dirRecords_eq (hd : Directory d filelist) (k : ℕ) (hnames : ∀ e ∈ allExtents filelist.row, e.file.name.length ≤ 219) :
    ((∀ e, (dirFilled filelist.row k).getLast? = some e → total Extent.size (dirFilled filelist.row k) = 2048 → e.spills = false) →
      dirRecords d filelist k = some ((dirFilled filelist.row k).map Extent.seen)) ∧
    ((∃ e, (dirFilled filelist.row k).getLast? = some e ∧ total Extent.size (dirFilled filelist.row k) = 2048 ∧ e.spills = true) →
      dirRecords d filelist k = none) := by
  have hfilled := fun e he => hnames e (dirFilled_sub k e he)
  have hle : total Extent.size (dirFilled filelist.row k) ≤ 2048 := by
    have hfill : 0 + total Extent.size (dirFilled filelist.row k) ≤ 2048 := fill_le _ (Nat.zero_le 2048)
    rwa [Nat.zero_add] at hfill
  obtain ⟨hsome, hnone⟩ := putAll_some (dirFilled filelist.row k) [] hfilled (by rwa [List.length_nil, zero_add])
  rw [List.length_nil, zero_add] at hsome hnone
  have hread := fillDir_eq hd k hnames
  unfold dirRecords
  constructor
  · intro hall
    have hlen := length_records_of hfilled
    have hcount := length_le_total hfilled
    rw [hsome hall, List.nil_append, Option.map_some, text_bufferOf (by rw [hlen]; exact hle)] at hread
    rw [hread, Option.bind_some, splitRecords_of _ _ _ hfilled, Option.map_some, List.map_map]
    · exact congrArg some (List.map_congr_left fun e he => seen_of (hfilled e he))
    · rw [List.length_append, List.length_replicate, hlen]
      omega
  · intro hspill
    rw [hnone hspill] at hread
    rw [hread]
    rfl

/-! ### The parts of a file -/

/-- What is known of each part of a file. -/
structure Part (f : Node) (curLba : UInt32) (n i : ℕ) (e : Extent) : Prop where
  file : e.file = f
  lba : e.lba = f.firstLba + (curLba + UInt32.ofNat (i * 0x1FFFFF))
  len : i + 1 < n → e.len = 0xFFFFF800
  last : e.last = decide (i + 1 = n)
  pos : 0 < e.len.toNat

theorem nextExtent_len (f : Node) (fileSize : ℕ) (curLba : UInt32) :
    (nextExtent f fileSize curLba).len.toNat = if fileSize ≥ 2 ^ 32 then 0xFFFFF800 else fileSize := by
  unfold nextExtent
  split_ifs with h
  · rfl
  · rw [UInt32.toNat_ofNat']
    omega

theorem extentsFrom_nil (f : Node) (rounds : ℕ) (curLba : UInt32) : extentsFrom f rounds 0 curLba = [] := by
  cases rounds with
  | zero => rfl
  | succ rounds => rw [extentsFrom, if_pos rfl]

/-- **The parts of a file** follow each other, and are all of it. -/
theorem extentsFrom_part (f : Node) : ∀ (rounds fileSize : ℕ) (curLba : UInt32), fileSize ≤ rounds →
    (∀ i e, (extentsFrom f rounds fileSize curLba)[i]? = some e → Part f curLba (extentsFrom f rounds fileSize curLba).length i e) ∧
      total (fun e => e.len.toNat) (extentsFrom f rounds fileSize curLba) = fileSize ∧
        (0 < fileSize → fileSize < 2 ^ 32 → (extentsFrom f rounds fileSize curLba).length = 1)
  | 0, fileSize, curLba, h => by
    obtain rfl : fileSize = 0 := Nat.le_zero.mp h
    exact ⟨fun i e he => (by cases he), rfl, fun h => absurd h (lt_irrefl 0)⟩
  | rounds + 1, fileSize, curLba, h => by
    rw [extentsFrom]
    by_cases h0 : fileSize = 0
    · rw [if_pos h0]
      exact ⟨fun i e he => (by cases he), h0.symm, fun hpos => absurd h0 hpos.ne'⟩
    rw [if_neg h0]
    dsimp only
    have hlen := nextExtent_len f fileSize curLba
    obtain ⟨ihpart, ihsum, -⟩ := extentsFrom_part f rounds (fileSize - (nextExtent f fileSize curLba).len.toNat)
      (curLba + ((nextExtent f fileSize curLba).len + 2048 - 1) / 2048) (by rw [hlen]; split_ifs <;> omega)
    set T := extentsFrom f rounds (fileSize - (nextExtent f fileSize curLba).len.toNat)
      (curLba + ((nextExtent f fileSize curLba).len + 2048 - 1) / 2048) with hT
    -- it is the last one just when nothing is left
    have hmore : T = [] ↔ fileSize < 2 ^ 32 := by
      constructor
      · intro hnil
        rw [hnil, hlen] at ihsum
        have hleft : 0 = fileSize - if fileSize ≥ 2 ^ 32 then 0xFFFFF800 else fileSize := ihsum
        split_ifs at hleft <;> omega
      · intro hsmall
        rw [if_neg (by omega)] at hlen
        rw [hT, hlen, Nat.sub_self, extentsFrom_nil]
    refine ⟨?_, ?_, ?_⟩
    · intro i e he
      rw [List.length_cons]
      cases i with
      | zero =>
        obtain rfl := Option.some.inj he
        refine ⟨rfl, ?_, ?_, ?_, ?_⟩
        · rw [Nat.zero_mul]
          exact congrArg (f.firstLba + ·) (UInt32.add_zero curLba).symm
        · intro hlt
          have hbig : ¬ fileSize < 2 ^ 32 := by
            rw [← hmore, ← List.length_eq_zero_iff]
            omega
          exact if_pos (not_lt.mp hbig)
        · refine decide_eq_decide.mpr ?_
          rw [← hmore, ← List.length_eq_zero_iff]
          omega
        · rw [hlen]
          split_ifs <;> omega
      | succ i =>
        have hget : T[i]? = some e := he
        have hbig : ¬ fileSize < 2 ^ 32 := by
          rw [← hmore]
          intro hnil
          rw [hnil] at hget
          cases hget
        have hfull : (nextExtent f fileSize curLba).len = 0xFFFFF800 := if_pos (not_lt.mp hbig)
        obtain ⟨hfile, hlba, hl, hlast, hpos⟩ := ihpart i e hget
        refine ⟨hfile, ?_, fun hlt => hl (by omega), ?_, hpos⟩
        · have hblock : (0xFFFFF800 + 2048 - 1) / 2048 = UInt32.ofNat 0x1FFFFF := by decide
          rw [hlba, hfull, hblock, Nat.succ_mul, UInt32.ofNat_add, UInt32.add_assoc curLba, UInt32.add_comm (UInt32.ofNat _)]
        · rw [hlast]
          exact decide_eq_decide.mpr (by omega)
    · rw [total_cons, ihsum, hlen]
      split_ifs <;> omega
    · intro _ hsmall
      rw [List.length_cons, hmore.mpr hsmall]
      rfl

theorem extents_part (f : Node) {i : ℕ} (h : (extents f)[i]? = some e) : Part f 0 (extents f).length i e :=
  (extentsFrom_part f f.size.toNat f.size.toNat 0 (le_refl _)).1 i e h

theorem extents_mem (f : Node) (h : e ∈ extents f) : e.file = f ∧ 0 < e.len.toNat := by
  obtain ⟨i, hi⟩ := List.mem_iff_getElem?.mp h
  have hpart := extents_part f hi
  exact ⟨hpart.file, hpart.pos⟩

/-- The bytes of some parts. -/
def Extent.bytes (e : Extent) : ℕ := e.len.toNat

theorem extents_total (f : Node) : total Extent.bytes (extents f) = f.size.toNat :=
  (extentsFrom_part f f.size.toNat f.size.toNat 0 (le_refl _)).2.1

theorem extents_blocks (f : Node) {i : ℕ} (hi : i < (extents f).length) :
    ((((extents f).map Extent.seen).take i).map fun r => blocks r.len.toNat).sum = i * 0x1FFFFF := by
  have hall : ∀ b ∈ (((extents f).map Extent.seen).take i).map (fun r => blocks r.len.toNat), b = 0x1FFFFF := by
    intro b hb
    obtain ⟨r, hr, rfl⟩ := List.mem_map.mp hb
    obtain ⟨j, hj⟩ := List.mem_iff_getElem?.mp hr
    have hji : j < i := by
      have hlt := (List.getElem?_eq_some_iff.mp hj).1
      rw [List.length_take] at hlt
      omega
    rw [List.getElem?_take_of_lt hji, List.getElem?_map] at hj
    obtain ⟨e, he, rfl⟩ := Option.map_eq_some_iff.mp hj
    have hlen := (extents_part f he).len (by omega)
    show blocks e.len.toNat = _
    rw [hlen]
    decide
  rw [List.sum_eq_card_nsmul _ _ hall, smul_eq_mul, List.length_map, List.length_take, List.length_map, min_eq_left hi.le]

theorem extents_lba (f : Node) (hfit : f.firstLba.toNat + ((extents f).length - 1) * 0x1FFFFF < 2 ^ 32) {i : ℕ}
    (h : (extents f)[i]? = some e) : e.lba.toNat = f.firstLba.toNat + i * 0x1FFFFF := by
  have hi := (List.getElem?_eq_some_iff.mp h).1
  rw [(extents_part f h).lba, UInt32.zero_add, UInt32.toNat_add, UInt32.toNat_ofNat']
  omega

/-- **The parts of a file** are as its records are to be, if their addresses fit. -/
theorem extents_seen (f : Node) (h0 : f.size ≠ 0) (hfit : f.firstLba.toNat + ((extents f).length - 1) * 0x1FFFFF < 2 ^ 32) :
    Extents f ((extents f).map Extent.seen) := by
  have hpos : 0 < f.size.toNat := pos_of_ne_zero fun h => h0 (UInt64.toNat_inj.mp h)
  refine ⟨?_, ?_, ?_, ?_, ?_⟩
  · intro r hr
    obtain ⟨e, he, rfl⟩ := List.mem_map.mp hr
    exact congrArg fileIdentifier (extents_mem f he).1
  · intro hsmall
    rw [List.length_map]
    exact (extentsFrom_part f f.size.toNat f.size.toNat 0 (le_refl _)).2.2 hpos hsmall
  · intro i r hr
    rw [List.getElem?_map] at hr
    obtain ⟨e, he, rfl⟩ := Option.map_eq_some_iff.mp hr
    rw [extents_blocks f (List.getElem?_eq_some_iff.mp he).1]
    exact extents_lba f hfit he
  · rw [List.map_map]
    exact extents_total f
  · intro i r hr
    rw [List.getElem?_map] at hr
    obtain ⟨e, he, rfl⟩ := Option.map_eq_some_iff.mp hr
    have hpart := extents_part f he
    rw [List.length_map]
    show e.file.attr ||| (if e.last = true then 0 else fileattrNotFinal) = _
    rw [hpart.file, hpart.last]
    simp only [decide_eq_true_eq]

/-! ### `fakeiso_calc_dir_size` -/

theorem recordLoop_add (f : Node) : ∀ (rounds fileSize : ℕ) (curLba : UInt32) (s : Pages),
    recordLoop (calcFileRecordSize f) rounds fileSize s = (extentsFrom f rounds fileSize curLba).foldl (fun s e => s.add e.size) s
  | 0, _, _, _ => rfl
  | rounds + 1, fileSize, curLba, s => by
    rw [recordLoop, extentsFrom]
    by_cases h0 : fileSize = 0
    · rw [if_pos h0, if_pos h0]
      rfl
    · have hlen := nextExtent_len f fileSize curLba
      rw [if_neg h0, if_neg h0, ← hlen]
      exact recordLoop_add f rounds _ _ _

theorem addFile_eq (f : Node) (h0 : f.size ≠ 0) (s : Pages) : addFile s f = (extents f).foldl (fun s e => s.add e.size) s := by
  unfold addFile
  rw [if_neg h0]
  exact recordLoop_add f _ _ 0 s

theorem foldl_add : ∀ (es : List Extent) (s : Pages),
    (es.foldl (fun s e => s.add e.size) s).size + (es.foldl (fun s e => s.add e.size) s).page = s.size + span Extent.size 2048 s.page es
  | [], s => rfl
  | e :: es, s => by
    rw [List.foldl_cons, foldl_add es, span]
    unfold Pages.add
    by_cases hfit : s.page + e.size ≤ 2048
    · rw [if_neg (by omega), if_pos hfit]
    · rw [if_pos (by omega), if_neg hfit, add_assoc]

/-- **`fakeiso_calc_dir_size`** is how far the records reach, one for each file. -/
theorem calcDirSize_span {row : List Node} (h : ∀ f ∈ row, f.size ≠ 0) : calcDirSize row = span Extent.size 2048 0 (allExtents row) := by
  have hfold : ∀ (row : List Node) (s : Pages), (∀ f ∈ row, f.size ≠ 0) →
      row.foldl addFile s = (allExtents row).foldl (fun s e => s.add e.size) s := by
    intro row
    induction row with
    | nil => exact fun _ _ => rfl
    | cons f row ih =>
      intro s hrow
      unfold allExtents at ih ⊢
      rw [List.foldl_cons, List.flatMap_cons, List.foldl_append, addFile_eq f (hrow f List.mem_cons_self),
        ih _ fun g hg => hrow g (List.mem_cons_of_mem _ hg)]
  unfold calcDirSize
  rw [hfold row _ h]
  rw [foldl_add, zero_add]

/-! ### The blocks -/

theorem Directory.names_all (hd : Directory d filelist) : ∀ e ∈ allExtents filelist.row, e.file.name.length ≤ 219 := by
  intro e he
  obtain ⟨f, hf, hef⟩ := List.mem_flatMap.mp he
  rw [(extents_mem f hef).1]
  exact hd.names f hf

theorem Directory.sizes (hd : Directory d filelist) : ∀ e ∈ allExtents filelist.row, 0 < e.size ∧ e.size ≤ 2048 := by
  intro e he
  have := size_bounds (hd.names_all e he)
  exact ⟨by omega, by omega⟩

/-- A block that is read has its records, and no zero came behind the buffer. -/
theorem dirRecords_some (hd : Directory d filelist) {k : ℕ} (h : (dirRecords d filelist k).isSome = true) :
    dirRecords d filelist k = some ((dirFilled filelist.row k).map Extent.seen) ∧
      ∀ e, (dirFilled filelist.row k).getLast? = some e → total Extent.size (dirFilled filelist.row k) = 2048 → e.spills = false := by
  obtain ⟨hsome, hnone⟩ := dirRecords_eq hd k hd.names_all
  have hall : ∀ e, (dirFilled filelist.row k).getLast? = some e → total Extent.size (dirFilled filelist.row k) = 2048 →
      e.spills = false := by
    intro e he hfull
    by_contra hspill
    rw [hnone ⟨e, he, hfull, Bool.eq_true_of_not_eq_false hspill⟩] at h
    cases h
  exact ⟨hsome hall, hall⟩

theorem dirRecords_count (hd : Directory d filelist) (hread : ∀ k, (dirRecords d filelist k).isSome = true)
    (h : ∀ f ∈ filelist.row, f.size ≠ 0) :
    {k | (dirRecords d filelist k).getD [] ≠ []}.ncard = blocks (calcDirSize filelist.row) := by
  have hset : {k | (dirRecords d filelist k).getD [] ≠ []} = ↑(Finset.range (blocks (calcDirSize filelist.row))) := by
    ext k
    have hempty : dirFilled filelist.row k = [] ↔ behind Extent.size 2048 k (allExtents filelist.row) = [] :=
      fill_empty fun e he => (hd.sizes e (behind_sub k _ e he)).2
    have hbehind := behind_iff (Nat.succ_pos 2047) k (allExtents filelist.row) hd.sizes
    rw [Set.mem_ofPred_eq, (dirRecords_some hd (hread k)).1, Option.getD_some, ne_eq, List.map_eq_nil_iff, hempty, Finset.coe_range,
      Set.mem_Iio, calcDirSize_span h]
    exact hbehind
  rw [hset, Set.ncard_coe_finset, Finset.card_range]

theorem dirPage_iff (row : List Node) (k : ℕ) : dirFilled row k = dirPage row k ↔
    ∀ e ∈ behind Extent.size 2048 (k + 1) (allExtents row), 2048 < total Extent.size (dirPage row k) + e.size := by
  unfold dirFilled dirPage
  rw [fill_iff, behind_succ, zero_add]

theorem dirPage_all (hd : Directory d filelist) {n : ℕ} (h : ∀ f ∈ filelist.row, f.size ≠ 0)
    (hn : blocks (calcDirSize filelist.row) ≤ n) : behind Extent.size 2048 n (allExtents filelist.row) = [] := by
  rw [calcDirSize_span h] at hn
  exact behind_nil (by decide) hd.sizes hn

/-- **A directory** whose records are all in their pages is listed. -/
theorem Pageable.list (hd : Directory d filelist) (h : Pageable filelist.row) : DirList d filelist := by
  have hpage : ∀ k, dirFilled filelist.row k = dirPage filelist.row k := fun k => (dirPage_iff _ k).mpr (h.room k)
  have hsome : ∀ k, dirRecords d filelist k = some ((dirFilled filelist.row k).map Extent.seen) := by
    intro k
    refine (dirRecords_eq hd k hd.names_all).1 ?_
    rw [hpage k]
    exact h.zero k
  have hread : ∀ k, (dirRecords d filelist k).isSome = true := by
    intro k
    rw [hsome k]
    rfl
  refine ⟨hread, ⟨filelist.row.map fun f => (extents f).map Extent.seen, ?_, blocks (calcDirSize filelist.row), ?_⟩, ?_⟩
  · rw [List.forall₂_map_right_iff, List.forall₂_same]
    exact fun f hf => extents_seen f (h.nonempty f hf) (h.lba f hf)
  · intro n hn
    have hpages : (List.range n).flatMap (dirPage filelist.row) ++ behind Extent.size 2048 n (allExtents filelist.row) =
        allExtents filelist.row := pages_behind _ n
    rw [dirPage_all hd h.nonempty hn, List.append_nil] at hpages
    have hall : (allExtents filelist.row).map Extent.seen = (filelist.row.map fun f => (extents f).map Extent.seen).flatten := by
      unfold allExtents
      rw [List.map_flatMap, List.flatMap_def]
    rw [← hall, ← hpages, List.map_flatMap]
    refine List.flatMap_congr fun k _ => ?_
    rw [hsome k, Option.getD_some, hpage k]
  · rw [dirRecords_count hd hread h.nonempty, UInt64.toNat_ofNat', Nat.mod_eq_of_lt h.size]

theorem forall₂_mem {α β : Type*} {R : α → β → Prop} : ∀ {xs : List α} {ys : List β}, List.Forall₂ R xs ys →
    ∀ x ∈ xs, ∃ y ∈ ys, R x y
  | _, _, .nil, x, hx => absurd hx List.not_mem_nil
  | _, _, .cons (a := a) (b := b) hab h, x, hx => by
    rcases List.mem_cons.mp hx with rfl | hx
    · exact ⟨b, List.mem_cons_self, hab⟩
    · obtain ⟨y, hy, hxy⟩ := forall₂_mem h x hx
      exact ⟨y, List.mem_cons_of_mem _ hy, hxy⟩

theorem DirList.nonempty (hd : Directory d filelist) (h : DirList d filelist) : ∀ f ∈ filelist.row, f.size ≠ 0 := by
  intro f hf h0
  obtain ⟨groups, hgroups, n₀, hlist⟩ := h.listed
  obtain ⟨g, hg, hext⟩ := forall₂_mem hgroups f hf
  have hsize : f.size.toNat = 0 := by
    rw [h0]
    rfl
  obtain ⟨r, rfl⟩ := List.length_eq_one_iff.mp (hext.single (by omega))
  have hlen : r.len.toNat = 0 := by
    have := hext.len
    rw [hsize, List.map_singleton, List.sum_singleton] at this
    exact this
  have hr : r ∈ (List.range n₀).flatMap fun k => (dirRecords d filelist k).getD [] := by
    rw [hlist n₀ (le_refl _)]
    exact List.mem_flatten.mpr ⟨[r], hg, List.mem_singleton_self r⟩
  obtain ⟨k, -, hk⟩ := List.mem_flatMap.mp hr
  rw [(dirRecords_some hd (h.read k)).1, Option.getD_some] at hk
  obtain ⟨e, he, rfl⟩ := List.mem_map.mp hk
  obtain ⟨f', -, he'⟩ := List.mem_flatMap.mp (dirFilled_sub k e he)
  have hpos := (extents_mem f' he').2
  exact absurd hlen hpos.ne'

theorem groups_total : ∀ {row : List Node} {groups : List (List DirRecord)}, List.Forall₂ Extents row groups →
    total (fun r => r.len.toNat) groups.flatten = total Extent.bytes (allExtents row)
  | _, _, .nil => rfl
  | _, _, .cons (a := f) hfg h => by
    unfold allExtents
    rw [List.flatten_cons, total_append, List.flatMap_cons, total_append, extents_total, groups_total h]
    exact congrArg (· + _) hfg.len

/-- **The blocks of a directory that is listed** are its pages. -/
theorem DirList.page (hd : Directory d filelist) (h : DirList d filelist) (k : ℕ) :
    dirFilled filelist.row k = dirPage filelist.row k := by
  obtain ⟨groups, hgroups, n₀, hlist⟩ := h.listed
  have hne := h.nonempty hd
  obtain ⟨n, hn₀, hblocks, hk⟩ : ∃ n, n₀ ≤ n ∧ blocks (calcDirSize filelist.row) ≤ n ∧ k < n :=
    ⟨n₀ + blocks (calcDirSize filelist.row) + k + 1, by omega, by omega, by omega⟩
  have hpos : ∀ e ∈ allExtents filelist.row, 0 < e.bytes := by
    intro e he
    obtain ⟨f, -, hef⟩ := List.mem_flatMap.mp he
    exact (extents_mem f hef).2
  have hfilled : ((List.range n).flatMap (dirFilled filelist.row)).map Extent.seen = groups.flatten := by
    rw [← hlist n hn₀, List.map_flatMap]
    refine List.flatMap_congr fun k _ => ?_
    rw [(dirRecords_some hd (h.read k)).1, Option.getD_some]
  have htotal : total Extent.bytes ((List.range n).flatMap (dirFilled filelist.row)) = total Extent.bytes (allExtents filelist.row) := by
    rw [← groups_total hgroups, ← hfilled]
    unfold total
    rw [List.map_map]
    rfl
  exact filled_page hpos (dirPage_all hd hne hblocks) htotal hk

/-- Records that list some files are cut where the parts of the files are. -/
theorem groups_eq : ∀ {row : List Node} {groups : List (List DirRecord)}, List.Forall₂ Extents row groups →
    (allExtents row).map Extent.seen = groups.flatten → ∀ f ∈ row, Extents f ((extents f).map Extent.seen)
  | [], [], .nil, _, f, hf => absurd hf List.not_mem_nil
  | a :: row, b :: groups, .cons hab h, heq, f, hf => by
    unfold allExtents at heq
    rw [List.flatMap_cons, List.map_append, List.flatten_cons] at heq
    have hpos : ∀ r ∈ (extents a).map Extent.seen ++ (row.flatMap extents).map Extent.seen, 0 < r.len.toNat := by
      intro r hr
      rw [← List.map_append] at hr
      obtain ⟨e, he, rfl⟩ := List.mem_map.mp hr
      rcases List.mem_append.mp he with he | he
      · exact (extents_mem a he).2
      · obtain ⟨g, -, hg⟩ := List.mem_flatMap.mp he
        exact (extents_mem g hg).2
    have htotal : total (fun r => r.len.toNat) ((extents a).map Extent.seen) = total (fun r => r.len.toNat) b := by
      refine Eq.trans ?_ hab.len.symm
      unfold total
      rw [List.map_map]
      exact extents_total a
    obtain ⟨hfirst, hrest⟩ := append_total_inj hpos heq htotal
    rcases List.mem_cons.mp hf with rfl | hf
    · rw [hfirst]
      exact hab
    · exact groups_eq h hrest f hf

theorem Extents.fits (h0 : f.size ≠ 0) (h : Extents f ((extents f).map Extent.seen)) :
    f.firstLba.toNat + ((extents f).length - 1) * 0x1FFFFF < 2 ^ 32 := by
  have hne : extents f ≠ [] := by
    intro hnil
    have htotal := extents_total f
    rw [hnil] at htotal
    exact h0 (UInt64.toNat_inj.mp htotal.symm)
  have hpos := List.length_pos_iff.mpr hne
  have hi : (extents f).length - 1 < (extents f).length := by omega
  have hlba := h.lba ((extents f).length - 1) (extents f)[(extents f).length - 1].seen (by
    rw [List.getElem?_map, List.getElem?_eq_getElem hi, Option.map_some])
  rw [extents_blocks f hi] at hlba
  rw [← hlba]
  exact UInt32.toNat_lt _

/-- **The directories that are listed** are those that take what it takes. -/
theorem DirList.pageable (hd : Directory d filelist) (h : DirList d filelist) : Pageable filelist.row := by
  have hne := h.nonempty hd
  refine ⟨hne, fun k => (dirPage_iff _ k).mp (h.page hd k), fun k => ?_, fun f hf => ?_, ?_⟩
  · rw [← h.page hd k]
    exact (dirRecords_some hd (h.read k)).2
  · obtain ⟨groups, hgroups, n₀, hlist⟩ := h.listed
    have hn := hlist (n₀ + blocks (calcDirSize filelist.row)) (Nat.le_add_right _ _)
    have hpages : (List.range (n₀ + blocks (calcDirSize filelist.row))).flatMap (dirPage filelist.row) ++
        behind Extent.size 2048 (n₀ + blocks (calcDirSize filelist.row)) (allExtents filelist.row) = allExtents filelist.row :=
      pages_behind _ _
    rw [dirPage_all hd hne (Nat.le_add_left _ _), List.append_nil] at hpages
    have hall : (allExtents filelist.row).map Extent.seen = groups.flatten := by
      rw [← hn, ← hpages, List.map_flatMap]
      refine List.flatMap_congr fun k _ => ?_
      rw [(dirRecords_some hd (h.read k)).1, Option.getD_some, h.page hd k]
    exact (groups_eq hgroups hall f hf).fits (hne f hf)
  · have hcount := (dirRecords_count hd h.read hne).symm.trans h.count
    rw [UInt64.toNat_ofNat'] at hcount
    unfold blocks at hcount
    omega

/-- **The blocks of a directory** list its files just when no file is empty, nothing behind a page has room
in it, no name's zero is behind the buffer, and addresses and size fit. -/
theorem dirList_iff (hd : Directory d filelist) : DirList d filelist ↔ Pageable filelist.row :=
  ⟨fun h => h.pageable hd, fun h => h.list hd⟩

/-- A directory with its `.` and `..`, and these files. -/
def listDir (files : List (List UInt8 × UInt64)) : Files :=
  .cons (given dotName fileattrDirectory 2048) .null (.cons (given dotdotName fileattrDirectory 2048) .null
    (files.foldr (fun f next => .cons (given f.1 0 f.2) .null next) .nil))

/-- A file `a` of 5 bytes. -/
theorem dirList_iff_one : DirList (given [100] fileattrDirectory 2048) (listDir [([97], 5)]) := by
  have hrest : ∀ k, behind Extent.size 2048 (k + 1) (allExtents (listDir [([97], 5)]).row) = [] := by
    intro k
    have hone : rest Extent.size 2048 0 (allExtents (listDir [([97], 5)]).row) = [] := by decide +kernel
    rw [behind, hone, behind_empty]
  refine (dirList_iff ⟨by decide, by decide, by decide⟩).mpr ⟨by decide +kernel, ?_, ?_, by decide +kernel, by decide +kernel⟩
  · intro k e he
    rw [hrest k] at he
    exact absurd he List.not_mem_nil
  · intro k e _ hfull
    cases k with
    | zero =>
      have hroom : total Extent.size (dirPage (listDir [([97], 5)]).row 0) ≠ 2048 := by decide +kernel
      exact absurd hfull hroom
    | succ k =>
      unfold dirPage at hfull
      rw [hrest k] at hfull
      exact absurd hfull (by decide)

/-- A name of `n` characters. -/
def longName (n : ℕ) : List UInt8 := List.replicate n 97

/-- An empty file is not listed; `b` is listed twice; and a zero comes behind the buffer. -/
theorem dirList_breaks :
    (Directory (given [100] fileattrDirectory 2048) (listDir [([97], 0)]) ∧
      ¬ DirList (given [100] fileattrDirectory 2048) (listDir [([97], 0)])) ∧
    (Directory (given [100] fileattrDirectory 2048) (listDir (List.replicate 8 (longName 219, 1) ++ [([98], 1)])) ∧
      ¬ DirList (given [100] fileattrDirectory 2048) (listDir (List.replicate 8 (longName 219, 1) ++ [([98], 1)]))) ∧
    Directory (given [100] fileattrDirectory 2048) (listDir (List.replicate 7 (longName 219, 1) ++ [(longName 167, 1)])) ∧
      ¬ DirList (given [100] fileattrDirectory 2048) (listDir (List.replicate 7 (longName 219, 1) ++ [(longName 167, 1)])) := by
  have hempty : Directory (given [100] fileattrDirectory 2048) (listDir [([97], 0)]) := ⟨by decide, by decide, by decide⟩
  have hlate : Directory (given [100] fileattrDirectory 2048) (listDir (List.replicate 8 (longName 219, 1) ++ [([98], 1)])) :=
    ⟨by decide, by decide, by decide +kernel⟩
  have hzero : Directory (given [100] fileattrDirectory 2048) (listDir (List.replicate 7 (longName 219, 1) ++ [(longName 167, 1)])) :=
    ⟨by decide, by decide, by decide +kernel⟩
  refine ⟨⟨hempty, fun h => ?_⟩, ⟨hlate, fun h => ?_⟩, hzero, fun h => ?_⟩
  · have hne := (h.pageable hempty).nonempty
    revert hne
    decide +kernel
  · have hroom := (h.pageable hlate).room 0
    revert hroom
    decide +kernel
  · have hall := (h.pageable hzero).zero 0
    have hlast : ((dirPage (listDir (List.replicate 7 (longName 219, 1) ++ [(longName 167, 1)])).row 0).getLast?.map Extent.spills) =
        some true := by decide +kernel
    have hfull : total Extent.size (dirPage (listDir (List.replicate 7 (longName 219, 1) ++ [(longName 167, 1)])).row 0) = 2048 := by
      decide +kernel
    obtain ⟨e, he, hspill⟩ := Option.map_eq_some_iff.mp hlast
    rw [hall e he hfull] at hspill
    cases hspill

end FakeIso
end Vsf
