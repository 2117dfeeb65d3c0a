/-
# A FAT32 volume that is never stored: its directories

`fakefat32_dir_read` makes the entries of a directory: for each file its long name, in pieces of 13
characters in reverse, and its short entry. It may start in the middle of a file's entries. `.` and
`..` get their cluster when they are read, so reading changes the tree.
-/
import Mathlib
import Vsf.File.FakeFat

namespace Vsf
namespace FakeFat

open File

/-! ### Names -/

/-- `'~'`. -/
def tilde : UInt8 := 126

/-- `'1'`. -/
def one : UInt8 := 49

/-- `strncpy_fill`. -/
def strncpyFill (src : List UInt8) (fill : UInt8) (n : ℕ) : List UInt8 := src.take n ++ List.replicate (n - src.length) fill

/-- `fakefat32_get_shortname`. -/
def getShortname (name : List UInt8) : List UInt8 :=
  let ext := getfileext name
  if name = dotName then dot :: List.replicate 10 space
  else if name = dotdotName then dot :: dot :: List.replicate 9 space
  else
    let base :=
      if isLFN name then (name.take 6).map toUpper ++ [tilde, one]
      else (name.take (name.length - (ext.length + 1))).map toUpper
    LE.put (LE.put (List.replicate 11 space) 0 base) 8 ((ext.take 3).map toUpper)

/-- The checksum of a short name in its long entries. -/
def checksum (short : List UInt8) : UInt8 := short.foldl (fun checksum c => (checksum <<< 7 ||| checksum >>> 1) + c) 0

/-! ### Entries -/

/-- The 13 characters of a long entry; a name that ends before gets one `\0`. -/
def longChars : ℕ → List UInt8 → List UInt8
  | 0, _ => []
  | n + 1, c :: cs => c :: 0 :: longChars n cs
  | n + 1, [] => 0 :: 0 :: List.replicate (2 * n) 0xFF

/-- The first character of a long entry in the name. -/
def longStart (index : UInt8) : UInt32 := 13 * ((index &&& 0xBF).toUInt32 - 1)

/-- A long entry. The characters stand at 1, 14 and 28. -/
def longEntry (name short : List UInt8) (index : UInt8) : List UInt8 :=
  let chars := longChars 13 (name.drop (longStart index).toNat)
  index :: chars.take 10 ++ [attrLongname, 0, checksum short] ++ (chars.drop 10).take 12 ++ [0, 0] ++ chars.drop 22

/-- The index of the next long entry. -/
def longNext (index : UInt8) : UInt8 := (index &&& 0xBF) - 1

/-- The loop over the long entries: the entries, and what is left of the page. -/
def longEntries (name short : List UInt8) : ℕ → UInt32 → UInt8 → List UInt8 × UInt32
  | 0, page, _ => ([], page)
  | n + 1, page, index =>
    if page = 0 ∨ index = 0 then ([], page)
    else
      let r := longEntries name short n (page - 0x20) (longNext index)
      (longEntry name short index ++ r.1, r.2)

/-- `longname_entry_num`. -/
def longNum (f : Node) : UInt8 := ((calcLongnameLen f + 12) / 13).toUInt8

/-- The first long entry read: the last piece, unless it starts at an offset. -/
def longIndex (f : Node) (offset : UInt8) : UInt8 :=
  let index := if longNum f ≥ 0x40 then 0x3F else longNum f
  if offset = 0 then index ||| 0x40 else index - offset

def recordBytes (r : Record) : List UInt8 :=
  r.crtTimeTenth :: LE.bytes16 r.crtTime ++ LE.bytes16 r.crtData ++ LE.bytes16 r.lstAccData ++ LE.bytes16 r.fstClusHI ++
    LE.bytes16 r.wrtTime ++ LE.bytes16 r.wrtData ++ LE.bytes16 r.fstClusLO

/-- The case bits of a file without a long name. -/
def ntAttr (name : List UInt8) : UInt8 :=
  (if isLower (findFirstAlphabet name) then 0x08 else 0) ||| (if isLower (findFirstAlphabet (getfileext name)) then 0x10 else 0)

/-- The short entry of a file. A directory has no size there. -/
def shortEntry (f : Node) : List UInt8 :=
  getShortname f.name ++ [f.attr, if isLFN f.name then 0 else ntAttr f.name] ++ recordBytes f.record ++
    LE.bytes32 (if f.isDir then 0 else f.size.toUInt32)

/-- The entry of a volume label. -/
def volumeEntry (f : Node) : List UInt8 := strncpyFill f.name space 11 ++ f.attr :: List.replicate 20 0

/-- A record with the cluster of another file. -/
def Record.withCluster (r : Record) (cluster : UInt32) : Record :=
  { r with fstClusHI := (cluster >>> 16).toUInt16, fstClusLO := cluster.toUInt16 }

/-- `.` has the record of its directory, `..` that of the one above, unless that is the root. -/
def fixRecord (dir : Node) (up : List Node) (f : Node) : Node :=
  if f.name = dotName then { f with record := f.record.withCluster dir.firstCluster }
  else if f.name = dotdotName then
    match up with
    | parent :: _ :: _ => { f with record := f.record.withCluster parent.firstCluster }
    | _ => f
  else f

/-! ### `fakefat32_dir_read` -/

/-- The second loop of `fakefat32_dir_read`: the entries, and the files after it. -/
def dirEntries (dir : Node) (up : List Node) (page : UInt32) (offset : UInt8) : Files → List UInt8 × Files
  | .nil => ([], .nil)
  | .cons f child next =>
    if page = 0 then ([], .cons f child next)
    else if f.attr = attrVolumid then
      let r := dirEntries dir up (page - 0x20) offset next
      (volumeEntry f ++ r.1, .cons f child r.2)
    else
      let long := if isLFN f.name then longEntries f.name (getShortname f.name) 256 page (longIndex f offset) else ([], page)
      if isLFN f.name ∧ long.2 = 0 then (long.1, .cons f child next)
      else
        let f := fixRecord dir up f
        let r := dirEntries dir up (long.2 - 0x20) (if isLFN f.name then 0 else offset) next
        (long.1 ++ shortEntry f ++ r.1, .cons f child r.2)

/-- `current_entry_size`. -/
def entrySize (f : Node) : UInt32 :=
  if f.attr ≠ attrVolumid ∧ isLFN f.name then (1 + (longNum f).toUInt32) * 0x20 else 0x20

/-- The first loop of `fakefat32_dir_read`, which looks for the entry at `addr`. -/
def dirSeek (dir : Node) (up : List Node) (page : UInt32) (addr : UInt64) : Files → List UInt8 × Files
  | .nil => ([], .nil)
  | .cons f child next =>
    if addr = 0 then dirEntries dir up page 0 (.cons f child next)
    else if addr < (entrySize f).toUInt64 then dirEntries dir up page (addr / 0x20).toUInt8 (.cons f child next)
    else
      let r := dirSeek dir up page (addr - (entrySize f).toUInt64) next
      (r.1, .cons f child r.2)

/-- `fakefat32_dir_read` of `dir` with the files `child`: the `page` bytes, and the files after it. -/
def dirRead (dir : Node) (up : List Node) (child : Files) (addr : UInt64) (page : UInt32) : File.Err × List UInt8 × Files :=
  if dir.isDir then
    let r := dirSeek dir up page addr child
    (.none, (r.1 ++ List.replicate page.toNat 0).take page.toNat, r.2)
  else (.fail, List.replicate page.toNat 0, child)

theorem dirRead_length (dir : Node) (up : List Node) (child : Files) (addr : UInt64) (page : UInt32) :
    (dirRead dir up child addr page).2.1.length = page.toNat := by
  unfold dirRead
  split_ifs
  · rw [List.length_take, List.length_append, List.length_replicate]
    omega
  · exact List.length_replicate

end FakeFat
end Vsf
