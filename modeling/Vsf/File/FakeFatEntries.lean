/-
# A FAT32 volume that is never stored: a sector of a directory

The files of a directory: volume labels, `.` and `..`, and files with a name (`Listed`). In a sector
of whole short entries, what `fakefat32_dir_read` makes are those of its files (`dirRead_whole`). An
entry written to its own file leaves it as it is exactly if it says what the file is
(`fromEntry_self_iff`).
-/
import Mathlib
import Vsf.File.FakeFatBack
import Vsf.File.FakeFatPaging

namespace Vsf
namespace FakeFat

open File ByteMem List

variable {p : Param} {m : Mal} {o : Owner} {f g : Node} {c page block : UInt32} {buff : List UInt8}

/-! ### An entry that is read as it was made -/

theorem get8_drop (b : List UInt8) (k i : ℕ) : LE.get8 (b.drop k) i = LE.get8 b (k + i) := by
  rw [LE.get8_eq_getElem?, getElem?_drop, LE.get8_eq_getElem?]

theorem recordOf_recordBytes (r : Record) (rest : List UInt8) : recordOf (recordBytes r ++ rest) = r := by
  have h16 : ∀ v : UInt16, UInt16.ofNat ((UInt8.ofNat v.toNat).toNat + 256 * (UInt8.ofNat (v.toNat / 256)).toNat) = v := by
    intro v
    exact LE.get16_bytes16 v []
  unfold recordOf recordBytes LE.bytes16
  simp only [LE.get16, LE.get8, cons_append, nil_append, getD_cons_zero, getD_cons_succ, h16]

theorem shortEntry_drop (h : (getShortname f.name).length = 11) : (shortEntry f).drop 11 = shortRest f := by
  rw [shortEntry_eq, drop_left' h]

theorem fromEntry_drop (g : Node) {e e' : List UInt8} (h : e.drop 11 = e'.drop 11) : g.fromEntry e = g.fromEntry e' := by
  have hget : ∀ i, LE.get8 e (11 + i) = LE.get8 e' (11 + i) := by
    intro i
    rw [← get8_drop, h, get8_drop]
  have h16 : ∀ i, LE.get16 e (11 + i) = LE.get16 e' (11 + i) := by
    intro i
    unfold LE.get16
    rw [hget, add_assoc, hget]
  have h32 : ∀ i, LE.get32 e (11 + i) = LE.get32 e' (11 + i) := by
    intro i
    unfold LE.get32
    simp only [add_assoc, hget]
  have hdrop : e.drop 13 = e'.drop 13 := by
    have := congrArg (List.drop 2) h
    rwa [drop_drop, drop_drop] at this
  unfold Node.fromEntry wantCluster
  rw [h32 17, h16 15, h16 9, hdrop]

theorem fromEntry_shortEntry (g : Node) (h : (getShortname f.name).length = 11) : g.fromEntry (shortEntry f) =
    { g with
      size := if g.isDir then g.size else if f.isDir then 0 else f.size.toUInt32.toUInt64
      firstCluster := f.record.fstClusLO.toUInt32
      record := f.record } := by
  have hdrop := shortEntry_drop h
  have h13 : (shortEntry f).drop 13 = recordBytes f.record ++ LE.bytes32 (if f.isDir then 0 else f.size.toUInt32) := by
    have := congrArg (List.drop 2) hdrop
    rwa [drop_drop] at this
  have hget : ∀ i, LE.get8 (shortEntry f) (13 + i) =
      LE.get8 (recordBytes f.record ++ LE.bytes32 (if f.isDir then 0 else f.size.toUInt32)) i := by
    intro i
    rw [← h13, get8_drop]
  have hsize : LE.get32 (shortEntry f) 28 = if f.isDir then 0 else f.size.toUInt32 := by
    have := LE.get32_append_right (recordBytes f.record) (LE.bytes32 (if f.isDir then 0 else f.size.toUInt32)) 0
    rw [recordBytes_length] at this
    have h32 := LE.get32_bytes32 (if f.isDir then 0 else f.size.toUInt32) []
    rw [append_nil] at h32
    rw [← h32, ← this]
    simp only [LE.get32, ← hget]
  have hlo : LE.get16 (shortEntry f) 26 = f.record.fstClusLO := by
    have := congrArg Record.fstClusLO (recordOf_recordBytes f.record (LE.bytes32 (if f.isDir then 0 else f.size.toUInt32)))
    rw [← this, ← h13]
    simp only [recordOf, LE.get16, get8_drop]
  have hwant : wantCluster (shortEntry f) = f.record.fstClusLO := by
    have hshift : ∀ a b : UInt16, (a.toUInt32 + b.toUInt32 <<< 16).toUInt16 = a := by
      intro a b
      apply UInt16.toNat_inj.mp
      simp only [UInt32.toNat_toUInt16, UInt32.toNat_add, UInt32.toNat_shiftLeft, UInt16.toNat_toUInt32, UInt32.reduceToNat,
        Nat.shiftLeft_eq, Nat.reduceMod, Nat.reducePow]
      have := a.toNat_lt
      omega
    rw [wantCluster, hlo, hshift]
  unfold Node.fromEntry
  rw [hsize, hwant, h13, recordOf_recordBytes]
  congr 1
  split_ifs <;> rfl

/-- The entry of the file says what the file is. -/
structure Node.Entered (f : Node) : Prop where
  size : f.isDir ∨ f.size.toNat < 2 ^ 32
  cluster : f.firstCluster = f.record.fstClusLO.toUInt32

/-- Then it stays as it is when its entry is written, and only then. -/
theorem fromEntry_self_iff (h : (getShortname f.name).length = 11) :
    (f.fromEntry (shortEntry f)).size = f.size ∧ (f.fromEntry (shortEntry f)).firstCluster = f.firstCluster ↔ f.Entered := by
  have hsize : f.size.toUInt32.toUInt64 = f.size ↔ f.size.toNat < 2 ^ 32 := by
    rw [← UInt64.toNat_inj, UInt32.toNat_toUInt64, UInt64.toNat_toUInt32]
    exact ⟨fun h => h ▸ Nat.mod_lt _ (by decide), Nat.mod_eq_of_lt⟩
  rw [fromEntry_shortEntry f h]
  constructor
  · rintro ⟨h1, h2⟩
    refine ⟨?_, h2.symm⟩
    by_cases hd : f.isDir
    · exact .inl hd
    · rw [if_neg hd, if_neg hd] at h1
      exact .inr (hsize.mp h1)
  · rintro ⟨h1, h2⟩
    refine ⟨?_, h2.symm⟩
    by_cases hd : f.isDir
    · rw [if_pos hd]
    · rw [if_neg hd, if_neg hd]
      exact hsize.mpr (h1.resolve_left hd)

theorem Node.Entered.same (hf : f.Entered) (h : (getShortname f.name).length = 11) : f.fromEntry (shortEntry f) = f := by
  obtain ⟨h1, h2⟩ := (fromEntry_self_iff h).mpr hf
  have h3 : (f.fromEntry (shortEntry f)).record = f.record := by rw [fromEntry_shortEntry f h]
  calc f.fromEntry (shortEntry f) = { f with
          size := (f.fromEntry (shortEntry f)).size
          firstCluster := (f.fromEntry (shortEntry f)).firstCluster
          record := (f.fromEntry (shortEntry f)).record } := rfl
    _ = f := by rw [h1, h2, h3]

/-! ### The entries of a directory -/

/-- A file listed as it is meant: a label, `.`, `..`, or a file with a name. -/
inductive Listed (f : Node) : Prop
  | label (attr : f.attr = attrVolumid) (zero : 0 ∉ f.name)
  | dots (label : f.attr ≠ attrVolumid) (long : f.attr ≠ attrLongname) (name : f.name = dotName ∨ f.name = dotdotName)
  | file (good : GoodFile f)

theorem dots_spec (h : f.name = dotName ∨ f.name = dotdotName) (hlabel : f.attr ≠ attrVolumid) (hlong : f.attr ≠ attrLongname) :
    isLFN f.name = false ∧ (getShortname f.name).length = 11 ∧ ShortOk (shortEntry f) ∧ shortName (shortEntry f) = f.name := by
  have hname : isLFN f.name = false ∧ (getShortname f.name).length = 11 ∧ 0 ∉ getShortname f.name ∧
      LE.get8 (getShortname f.name) 0 ≠ 0xE5 ∧ LE.get8 (getShortname f.name) 8 = space ∧
      ∀ lower : Bool, nameChars lower ((getShortname f.name).take 8) = f.name := by
    rcases h with h | h <;> rw [h] <;> decide
  obtain ⟨hl, hlen, hzero, hlive, h8, hchars⟩ := hname
  refine ⟨hl, hlen, shortOk_of_name hlen hzero hlive hlong hlabel, ?_⟩
  have hext : LE.get8 (shortEntry f) 8 = space := by
    rw [shortEntry_eq, LE.get8_append_left (by omega), h8]
  rw [shortName, if_neg fun h => h hext, append_nil, shortBase, shortEntry_eq, take_append_of_le_length (by omega), hchars]

theorem Listed.short_ok (h : Listed f) (hlabel : f.attr ≠ attrVolumid) : ShortOk (shortEntry f) := by
  cases h with
  | label hattr _ => exact absurd hattr hlabel
  | dots hlabel hlong hname => exact (dots_spec hname hlabel hlong).2.2.1
  | file hgood => exact shortOk_shortEntry hgood.name hgood.not_long hgood.not_label

theorem Listed.short_length (h : Listed f) (hlabel : f.attr ≠ attrVolumid) : (getShortname f.name).length = 11 ∧ 0 ∉ f.name := by
  cases h with
  | label hattr _ => exact absurd hattr hlabel
  | dots hlabel hlong hname =>
    refine ⟨(dots_spec hname hlabel hlong).2.1, ?_⟩
    rcases hname with hname | hname <;> rw [hname] <;> decide
  | file hgood => exact ⟨hgood.name.short_spec.1, hgood.name.zero⟩

/-- The only entry of the file is its short one. -/
def Plain (f : Node) : Prop := f.attr ≠ attrVolumid ∧ isLFN f.name = false

theorem Listed.name_short (h : Listed f) (hp : Plain f) : shortName (shortEntry f) = f.name := by
  cases h with
  | label hattr _ => exact absurd hattr hp.1
  | dots hlabel hlong hname => exact (dots_spec hname hlabel hlong).2.2.2
  | file hgood =>
    obtain ⟨base, ext, hs, hname⟩ := hgood.name.form.resolve_right fun h => absurd (hp.2.symm.trans h.1) (by decide)
    exact shortName_shortEntry hs hname

theorem Listed.size (h : Listed f) : (entrySize f).toNat = 32 * (entries f).length := by
  by_cases hlabel : f.attr = attrVolumid
  · rw [entries_length, if_neg fun h => h.1 hlabel, entrySize, if_neg fun h => h.1 hlabel]
    rfl
  refine entrySize_entries ?_
  cases h with
  | label hattr _ => exact absurd hattr hlabel
  | dots _ _ hname => rcases hname with hname | hname <;> rw [hname] <;> decide
  | file hgood =>
    rcases hgood.name.form with ⟨base, ext, hs, hname⟩ | ⟨_, hle⟩
    · have hb := hs.base_le
      have he := hs.ext_le
      rw [hname, length_append, length_cons]
      omega
    · omega

/-! ### A sector of a directory -/

/-- The sector at `a` begins behind the entries of a file, and holds whole short entries. -/
def Whole : ℕ → ℕ → List Node → Prop
  | _, _, [] => True
  | a, n, f :: fs =>
    if a = 0 then n = 0 ∨ Plain f ∧ 32 ≤ n ∧ Whole 0 (n - 32) fs
    else 32 * (entries f).length ≤ a ∧ Whole (a - 32 * (entries f).length) n fs

/-- The files of the sector. -/
def sectorFiles : ℕ → ℕ → List Node → List Node
  | _, _, [] => []
  | a, n, f :: fs =>
    if a = 0 then (if n = 0 then [] else f :: sectorFiles 0 (n - 32) fs)
    else sectorFiles (a - 32 * (entries f).length) n fs

theorem sectorFiles_sublist : ∀ (a n : ℕ) (fs : List Node), (sectorFiles a n fs).Sublist fs
  | _, _, [] => List.Sublist.refl _
  | a, n, f :: fs => by
    unfold sectorFiles
    split_ifs
    · exact nil_sublist _
    · exact (sectorFiles_sublist _ _ fs).cons_cons f
    · exact (sectorFiles_sublist _ _ fs).cons f

theorem sectorFiles_whole : ∀ (a n : ℕ) (fs : List Node), Whole a n fs →
    (∀ f ∈ sectorFiles a n fs, Plain f) ∧ 32 * (sectorFiles a n fs).length ≤ n
  | _, _, [], _ => ⟨fun _ hf => absurd hf not_mem_nil, Nat.zero_le _⟩
  | a, n, f :: fs, h => by
    unfold Whole at h
    unfold sectorFiles
    split_ifs at h ⊢ with ha hn
    · exact ⟨fun _ hf => absurd hf not_mem_nil, Nat.zero_le _⟩
    · obtain ⟨hf, hle, hrest⟩ := h.resolve_left hn
      obtain ⟨hplain, hcount⟩ := sectorFiles_whole _ _ fs hrest
      refine ⟨forall_mem_cons.mpr ⟨hf, hplain⟩, ?_⟩
      rw [length_cons]
      omega
    · exact sectorFiles_whole _ _ fs h.2

theorem Listed.congr (h : Listed f) (hname : g.name = f.name) (hattr : g.attr = f.attr) : Listed g := by
  cases h with
  | label ha h0 => exact .label (hattr.trans ha) (hname ▸ h0)
  | dots ha hl hn => exact .dots (hattr ▸ ha) (hattr ▸ hl) (hname ▸ hn)
  | file hg => exact .file ⟨hname ▸ hg.name, hattr ▸ hg.not_long, hattr ▸ hg.not_label⟩

/-- What is known of the files of a directory after a read. -/
structure SectorRead (a n : ℕ) (fs fs' : Files) : Prop where
  listed : ∀ f ∈ fs'.list, Listed f
  whole : Whole a n fs'.list
  names : fs'.list.map Node.name = fs.list.map Node.name

/-- The entries that are read are those of the files of the sector. -/
theorem dirEntries_whole (dir : Node) (up : List Node) : ∀ (fs : Files) (page : UInt32), (∀ f ∈ fs.list, Listed f) →
    Whole 0 page.toNat fs.list → ∃ fs', dirEntries dir up page 0 fs =
      ((sectorFiles 0 page.toNat fs'.list).flatMap shortEntry, fs') ∧ SectorRead 0 page.toNat fs fs'
  | .nil, _, h, hw => ⟨.nil, rfl, h, hw, rfl⟩
  | .cons f child next, page, h, hw => by
    have hlist : ∀ (f : Node) (next : Files), (Files.cons f child next).list = f :: next.list := fun _ _ => rfl
    by_cases hp0 : page = 0
    · refine ⟨.cons f child next, ?_, h, hw, rfl⟩
      rw [dirEntries, if_pos hp0, hp0]
      rfl
    have hpn : page.toNat ≠ 0 := fun h0 => hp0 (UInt32.toNat_inj.mp h0)
    rw [hlist, Whole, if_pos rfl] at hw
    obtain ⟨hplain, hle, hrest⟩ := hw.resolve_left hpn
    have hsub : (page - 0x20).toNat = page.toNat - 32 := toNat_sub_32 (k := 0) (by omega)
    obtain ⟨hname, hattr⟩ := fixRecord_same dir up f
    obtain ⟨next', hnext', hread⟩ := dirEntries_whole dir up next (page - 0x20) (fun g hg => h g (mem_cons_of_mem _ hg)) (hsub ▸ hrest)
    rw [hsub] at hnext' hread
    refine ⟨.cons (fixRecord dir up f) child next', ?_, ?_, ?_, ?_⟩
    · rw [dirEntries_short dir up child next hplain.1 hplain.2 hp0, hnext', hlist, sectorFiles, if_pos rfl, if_neg hpn]
      rfl
    · intro g hg
      rcases mem_cons.mp hg with rfl | hg
      · exact (h f mem_cons_self).congr hname hattr
      · exact hread.listed g hg
    · rw [hlist, Whole, if_pos rfl]
      exact .inr ⟨⟨hattr ▸ hplain.1, hname ▸ hplain.2⟩, hle, hread.whole⟩
    · rw [hlist, hlist, map_cons, map_cons, hname, hread.names]

theorem dirSeek_whole (dir : Node) (up : List Node) (page : UInt32) : ∀ (fs : Files) (addr : UInt64), (∀ f ∈ fs.list, Listed f) →
    Whole addr.toNat page.toNat fs.list → ∃ fs', dirSeek dir up page addr fs =
      ((sectorFiles addr.toNat page.toNat fs'.list).flatMap shortEntry, fs') ∧ SectorRead addr.toNat page.toNat fs fs'
  | .nil, _, h, hw => ⟨.nil, rfl, h, hw, rfl⟩
  | .cons f child next, addr, h, hw => by
    have hf : Listed f := h f mem_cons_self
    have hlist : ∀ (f : Node) (next : Files), (Files.cons f child next).list = f :: next.list := fun _ _ => rfl
    by_cases ha : addr = 0
    · rw [ha, UInt64.toNat_zero] at hw
      obtain ⟨fs', heq, hread⟩ := dirEntries_whole dir up (.cons f child next) page h hw
      refine ⟨fs', ?_, ?_⟩
      · rw [dirSeek, if_pos ha, heq, ha, UInt64.toNat_zero]
      · rwa [ha, UInt64.toNat_zero]
    have han : addr.toNat ≠ 0 := fun h0 => ha (UInt64.toNat_inj.mp h0)
    rw [hlist, Whole, if_neg han] at hw
    obtain ⟨hle, hrest⟩ := hw
    have hsize := hf.size
    have hge : (entrySize f).toUInt64 ≤ addr := by
      rw [UInt64.le_iff_toNat_le, UInt32.toNat_toUInt64]
      omega
    have hsub : (addr - (entrySize f).toUInt64).toNat = addr.toNat - 32 * (entries f).length := by
      rw [UInt64.toNat_sub_of_le _ _ hge, UInt32.toNat_toUInt64, hsize]
    obtain ⟨next', hnext', hread⟩ := dirSeek_whole dir up page next (addr - (entrySize f).toUInt64)
      (fun g hg => h g (mem_cons_of_mem _ hg)) (hsub ▸ hrest)
    rw [hsub] at hnext' hread
    refine ⟨.cons f child next', ?_, ?_, ?_, ?_⟩
    · rw [dirSeek, if_neg ha, if_neg (UInt64.not_lt.mpr hge), hnext', hlist, sectorFiles, if_neg han]
    · intro g hg
      rcases mem_cons.mp hg with rfl | hg
      · exact hf
      · exact hread.listed g hg
    · rw [hlist, Whole, if_neg han]
      exact ⟨hle, hread.whole⟩
    · rw [hlist, hlist, map_cons, map_cons, hread.names]

/-- The files of a sector as items of the parser. -/
def items (L : List Node) : List Item := L.map fun f => .short (shortEntry f)

theorem items_bytes (L : List Node) : (items L).flatMap Item.bytes = L.flatMap shortEntry := by
  rw [items, flatMap_map]
  rfl

theorem items_count : ∀ L : List Node, entryCount (items L) = L.length
  | [] => rfl
  | f :: L => by
    rw [show items (f :: L) = .short (shortEntry f) :: items L from rfl, entryCount_cons, items_count L, length_cons]
    exact add_comm 1 _

theorem items_valid {L : List Node} (h : ∀ f ∈ L, Listed f) (hp : ∀ f ∈ L, Plain f) : ∀ it ∈ items L, it.Valid := by
  intro it hit
  obtain ⟨f, hf, rfl⟩ := mem_map.mp hit
  exact (h f hf).short_ok (hp f hf).1

/-- **A sector of whole short entries.** -/
theorem dirRead_whole {dir : Node} (up : List Node) {fs : Files} {addr : UInt64} (hdir : dir.isDir) (h : ∀ f ∈ fs.list, Listed f)
    (hw : Whole addr.toNat page.toNat fs.list) : ∃ fs', SectorRead addr.toNat page.toNat fs fs' ∧ dirRead dir up fs addr page =
      (.none, (items (sectorFiles addr.toNat page.toNat fs'.list)).flatMap Item.bytes ++
        List.replicate (page.toNat - 32 * (sectorFiles addr.toNat page.toNat fs'.list).length) 0, fs') := by
  obtain ⟨fs', heq, hread⟩ := dirSeek_whole dir up page fs addr h hw
  obtain ⟨hplain, hcount⟩ := sectorFiles_whole _ _ _ hread.whole
  have hvalid := items_valid (fun f hf => hread.listed f ((sectorFiles_sublist _ _ _).subset hf)) hplain
  have hlen := flatMap_bytes_length fun it hit => (hvalid it hit).bytes_length
  rw [items_count] at hlen
  refine ⟨fs', hread, ?_⟩
  rw [dirRead, if_pos hdir, heq, ← items_bytes]
  dsimp only
  rw [take_append, take_of_length_le (by omega), take_replicate, hlen, min_eq_left (Nat.sub_le _ _)]

end FakeFat
end Vsf
