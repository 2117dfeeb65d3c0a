/-
# A directory that is read page by page

A page of a directory may begin and end between any two of its entries. The pages are those of one
list, `listing`, whichever size they have (`dirRead_window`, `dirPages_window`). A file with the
empty name has no piece, and its loop goes on from 255 downward; everything is right just when there
is none and the size fits into 32 bits (`paged_iff`).
-/
import Mathlib
import Vsf.File.DentryCodec
import Vsf.File.FakeFatDir
import Vsf.Lib.Paging
import Vsf.Lib.Text

namespace Vsf
namespace FakeFat

open File Paging Text List

variable {dir : Node} {up : List Node} {f : Node} {fs : Files} {page : UInt32}

/-! ### What there is to read -/

/-- The entries of a file: the pieces of its name, last first, and the short entry. -/
def entries (f : Node) : List (List UInt8) :=
  if f.attr = attrVolumid then [volumeEntry f]
  else (if isLFN f.name then allPieces f.name (getShortname f.name) (pieceNum f.name) else []) ++ [shortEntry f]

/-- The entries of a directory. -/
def listing (dir : Node) (up : List Node) (fs : Files) : List (List UInt8) :=
  fs.list.flatMap fun f => entries (fixRecord dir up f)

/-- The reads at 0, `page`, `2 * page` .., each on the tree the one before left. -/
def dirPages (dir : Node) (up : List Node) (page : UInt32) (fs : Files) : ℕ → List UInt8 × Files
  | 0 => ([], fs)
  | n + 1 =>
    let r := dirPages dir up page fs n
    let q := dirRead dir up r.2 (UInt64.ofNat (n * page.toNat)) page
    (r.1 ++ q.2.1, q.2.2)

/-- A file with a name. -/
def Named (f : Node) : Prop := f.attr ≠ attrVolumid → f.name ≠ []

/-- A directory is read as it is, in any pages, and its clusters have room. -/
structure Paged (p : Param) (dir : Node) (up : List Node) (fs : Files) : Prop where
  pages : ∀ (page : UInt32) (n : ℕ), 32 ∣ page.toNat → n * page.toNat ≤ 2 ^ 64 →
    (dirPages dir up page fs n).1 = window 0 (listing dir up fs).flatten 0 (n * page.toNat)
  whole : ∀ (page all : UInt32) (n : ℕ), 32 ∣ page.toNat → n * page.toNat ≤ 2 ^ 64 → 32 ∣ all.toNat →
    (listing dir up fs).flatten.length ≤ all.toNat →
    (dirPages dir up page fs n).1 = window 0 (dirRead dir up fs 0 all).2.1 0 (n * page.toNat)
  fits : (listing dir up fs).flatten.length ≤ (calcDirClusters p dir fs).toNat * (clusterSize p).toNat

/-! ### The records of `.` and `..` -/

/-- The records as every read leaves them. -/
def fixAll (dir : Node) (up : List Node) : Files → Files
  | .nil => .nil
  | .cons f child next => .cons (fixRecord dir up f) child (fixAll dir up next)

@[simp] theorem fixRecord_name (dir : Node) (up : List Node) (f : Node) : (fixRecord dir up f).name = f.name := (fixRecord_same dir up f).1

@[simp] theorem fixRecord_attr (dir : Node) (up : List Node) (f : Node) : (fixRecord dir up f).attr = f.attr := (fixRecord_same dir up f).2

@[simp] theorem fixRecord_fixRecord (dir : Node) (up : List Node) (f : Node) : fixRecord dir up (fixRecord dir up f) = fixRecord dir up f := by
  by_cases hdot : f.name = dotName
  · simp [fixRecord, hdot, Record.withCluster]
  by_cases hdots : f.name = dotdotName
  · rcases up with _ | ⟨parent, _ | ⟨above, up⟩⟩
    all_goals simp [fixRecord, hdots, Record.withCluster, show dotdotName ≠ dotName by decide]
  · simp [fixRecord, hdot, hdots]

@[simp] theorem longIndex_fixRecord (dir : Node) (up : List Node) (f : Node) (offset : UInt8) :
    longIndex (fixRecord dir up f) offset = longIndex f offset := by
  unfold longIndex longNum calcLongnameLen
  rw [fixRecord_name]

@[simp] theorem volumeEntry_fixRecord (dir : Node) (up : List Node) (f : Node) : volumeEntry (fixRecord dir up f) = volumeEntry f := by
  simp only [volumeEntry, fixRecord_name, fixRecord_attr]

@[simp] theorem entrySize_fixRecord (dir : Node) (up : List Node) (f : Node) : entrySize (fixRecord dir up f) = entrySize f := by
  simp only [entrySize, longNum, calcLongnameLen, fixRecord_name, fixRecord_attr]

/-- What the loop makes depends on the files as they are then. -/
theorem dirEntries_fixAll (dir : Node) (up : List Node) : ∀ (fs : Files) (page : UInt32) (offset : UInt8),
    (dirEntries dir up page offset (fixAll dir up fs)).1 = (dirEntries dir up page offset fs).1 ∧
      fixAll dir up (dirEntries dir up page offset fs).2 = fixAll dir up fs
  | .nil, _, _ => ⟨rfl, rfl⟩
  | .cons f child next, page, offset => by
    rw [fixAll, dirEntries, dirEntries]
    simp only [fixRecord_name, fixRecord_attr, fixRecord_fixRecord, longIndex_fixRecord, volumeEntry_fixRecord]
    split_ifs with hp hlabel hlong hlong
    all_goals
      simp only [fixAll, fixRecord_fixRecord, dirEntries_fixAll dir up next, and_self]

theorem dirSeek_fixAll (dir : Node) (up : List Node) (page : UInt32) : ∀ (fs : Files) (addr : UInt64),
    (dirSeek dir up page addr (fixAll dir up fs)).1 = (dirSeek dir up page addr fs).1 ∧
      fixAll dir up (dirSeek dir up page addr fs).2 = fixAll dir up fs
  | .nil, _ => ⟨rfl, rfl⟩
  | .cons f child next, addr => by
    have hhere := dirEntries_fixAll dir up (.cons f child next) page
    rw [fixAll] at hhere
    rw [fixAll, dirSeek, dirSeek, entrySize_fixRecord]
    split_ifs
    · exact hhere 0
    · exact hhere _
    · have ih := dirSeek_fixAll dir up page next (addr - (entrySize f).toUInt64)
      simp only [fixAll, ih, and_self]

/-- **A read** depends on the files as every read leaves them. -/
theorem dirRead_fixAll (dir : Node) (up : List Node) (fs : Files) (addr : UInt64) (page : UInt32) :
    (dirRead dir up (fixAll dir up fs) addr page).2.1 = (dirRead dir up fs addr page).2.1 ∧
      fixAll dir up (dirRead dir up fs addr page).2.2 = fixAll dir up fs := by
  have hseek := dirSeek_fixAll dir up page fs addr
  unfold dirRead
  split_ifs
  · exact ⟨by simp only [hseek.1], hseek.2⟩
  · exact ⟨rfl, rfl⟩

theorem dirPages_eq (dir : Node) (up : List Node) (page : UInt32) (fs : Files) : ∀ n : ℕ,
    (dirPages dir up page fs n).1 =
        (List.range n).flatMap (fun k => (dirRead dir up fs (UInt64.ofNat (k * page.toNat)) page).2.1) ∧
      fixAll dir up (dirPages dir up page fs n).2 = fixAll dir up fs
  | 0 => ⟨rfl, rfl⟩
  | n + 1 => by
    obtain ⟨hbytes, hfix⟩ := dirPages_eq dir up page fs n
    have hread := dirRead_fixAll dir up (dirPages dir up page fs n).2 (UInt64.ofNat (n * page.toNat)) page
    rw [hfix] at hread
    rw [dirPages]
    refine ⟨?_, hread.2⟩
    rw [hbytes, ← hread.1, (dirRead_fixAll dir up fs _ page).1, range_succ, flatMap_append, flatMap_singleton]

/-! ### The entries of a file -/

theorem getShortname_length {name : List UInt8} (h : name.length < 2 ^ 32) : (getShortname name).length = 11 := by
  unfold getShortname
  split_ifs with hdot hdots hlong
  · rfl
  · rfl
  · have hbase : ((name.take 6).map toUpper ++ [tilde, one]).length ≤ 8 := by
      simp only [length_append, length_map, length_take, length_cons, length_nil]
      omega
    have hput : (LE.put (List.replicate 11 space) 0 ((name.take 6).map toUpper ++ [tilde, one])).length = (List.replicate 11 space).length :=
      LE.length_put (by rw [length_replicate]; omega)
    rw [LE.length_put, hput, length_replicate]
    rw [hput, length_map, length_take, length_replicate]
    omega
  · have hbase : ((name.take (name.length - ((getfileext name).length + 1))).map toUpper).length ≤ 8 := by
      simp only [length_map, length_take]
      by_contra hlt
      have hle : (getfileext name).length + 1 ≤ name.length := by omega
      unfold isLFN at hlong
      rw [if_pos] at hlong
      · exact hlong rfl
      · left
        have hsub : (UInt32.ofNat name.length - (UInt32.ofNat (getfileext name).length + 1)) =
            UInt32.ofNat (name.length - ((getfileext name).length + 1)) := by
          rw [UInt32.ofNat_sub hle, UInt32.ofNat_add]
          rfl
        show 8 < _
        rw [hsub, UInt32.lt_iff_toNat_lt, UInt32.toNat_ofNat_of_lt' (lt_of_le_of_lt (Nat.sub_le _ _) h)]
        show 8 < _
        omega
    have hput : (LE.put (List.replicate 11 space) 0
        ((name.take (name.length - ((getfileext name).length + 1))).map toUpper)).length = (List.replicate 11 space).length :=
      LE.length_put (by rw [length_replicate]; omega)
    rw [LE.length_put, hput, length_replicate]
    rw [hput, length_map, length_take, length_replicate]
    omega

theorem shortEntry_length (h : f.name.length < 2 ^ 32) : (shortEntry f).length = 32 := by
  rw [shortEntry_eq, length_append, getShortname_length h, shortRest_length]

theorem pieces_width (name short : List UInt8) : ∀ n, ∀ e ∈ pieces name short n, e.length = 32
  | 0, _, he => absurd he not_mem_nil
  | n + 1, e, he => by
    rcases mem_cons.mp he with rfl | he
    · exact longEntry_length _ _ _
    · exact pieces_width name short n e he

theorem entries_width (h : f.name.length < 2 ^ 32) : ∀ e ∈ entries f, e.length = 32 := by
  intro e he
  unfold entries at he
  split_ifs at he with hlabel hlong
  · obtain rfl := mem_singleton.mp he
    simp only [volumeEntry, strncpyFill, length_append, length_take, length_cons, length_replicate]
    omega
  · rcases mem_append.mp he with he | he
    · generalize pieceNum f.name = n at he
      cases n with
      | zero => exact absurd he not_mem_nil
      | succ n =>
        rcases mem_cons.mp he with rfl | he
        · exact longEntry_length _ _ _
        · exact pieces_width _ _ n e he
    · obtain rfl := mem_singleton.mp he
      exact shortEntry_length h
  · obtain rfl := mem_singleton.mp he
    exact shortEntry_length h

theorem listing_width (h : ∀ f ∈ fs.list, f.name.length ≤ 255) : ∀ e ∈ listing dir up fs, e.length = 32 := by
  intro e he
  obtain ⟨f, hf, he⟩ := mem_flatMap.mp he
  refine entries_width ?_ e he
  rw [fixRecord_name]
  exact (h f hf).trans_lt (by decide)

theorem entries_length (f : Node) : (entries f).length = if f.attr ≠ attrVolumid ∧ isLFN f.name then pieceNum f.name + 1 else 1 := by
  unfold entries
  by_cases hlabel : f.attr = attrVolumid
  · rw [if_pos hlabel, if_neg (fun hand => hand.1 hlabel)]
    rfl
  · by_cases hlong : isLFN f.name
    · rw [if_neg hlabel, if_pos hlong, if_pos ⟨hlabel, hlong⟩, length_append, allPieces_length]
      rfl
    · rw [if_neg hlabel, if_neg hlong, if_neg (fun hand => hlong hand.2)]
      rfl

theorem entries_length_fix (dir : Node) (up : List Node) (f : Node) : (entries (fixRecord dir up f)).length = (entries f).length := by
  rw [entries_length, entries_length, fixRecord_name, fixRecord_attr]

theorem entrySize_entries (h : f.name.length ≤ 255) : (entrySize f).toNat = 32 * (entries f).length := by
  have hle := pieceNum_le h
  rw [entries_length]
  unfold entrySize
  split_ifs
  · have hall : ∀ n ≤ 20, ((1 + (UInt8.ofNat n).toUInt32) * 0x20).toNat = 32 * (n + 1) := by decide
    rw [longNum_piece h, hall _ hle]
  · rfl

/-! ### The pieces up to the end of a page -/

theorem index_next : ∀ n < 20, longNext (UInt8.ofNat (n + 1)) = UInt8.ofNat n ∧ longNext (UInt8.ofNat (0x40 + (n + 1))) = UInt8.ofNat n ∧
    UInt8.ofNat (n + 1) ≠ 0 ∧ UInt8.ofNat (0x40 + (n + 1)) ≠ 0 := by
  decide

theorem page_zero {q : ℕ} (hq : page.toNat = 32 * q) : page = 0 ↔ q = 0 := by
  rw [← UInt32.toNat_inj, UInt32.toNat_zero, hq]
  omega

theorem page_sub {q : ℕ} (hq : page.toNat = 32 * (q + 1)) : (page - 0x20).toNat = 32 * q := by
  rw [toNat_sub_32 (k := 0) (by omega), hq]
  omega

theorem longEntries_cut (name short : List UInt8) : ∀ (n fuel q : ℕ) (page : UInt32), n ≤ 20 → n < fuel → page.toNat = 32 * q →
    (longEntries name short fuel page (UInt8.ofNat n)).1 = ((pieces name short n).take q).flatten ∧
      (longEntries name short fuel page (UInt8.ofNat n)).2.toNat = 32 * (q - n)
  | _, 0, _, _, _, h, _ => absurd h (Nat.not_lt_zero _)
  | 0, fuel + 1, q, page, _, _, hq => by
    rw [longEntries, if_pos (.inr rfl)]
    exact ⟨by simp [pieces], hq⟩
  | n + 1, fuel + 1, 0, page, _, _, hq => by
    rw [longEntries, if_pos (.inl ((page_zero hq).mpr rfl))]
    exact ⟨rfl, by rw [hq, Nat.zero_sub]⟩
  | n + 1, fuel + 1, q + 1, page, hn, hfuel, hq => by
    obtain ⟨hnext, -, hne, -⟩ := index_next n hn
    have hpage : page ≠ 0 := fun h0 => absurd ((page_zero hq).mp h0) (Nat.succ_ne_zero q)
    obtain ⟨h1, h2⟩ := longEntries_cut name short n fuel q (page - 0x20) (by omega) (by omega) (page_sub hq)
    rw [longEntries, if_neg (not_or.mpr ⟨hpage, hne⟩), hnext]
    dsimp only
    rw [h1, h2, pieces, take_succ_cons, flatten_cons]
    exact ⟨rfl, by omega⟩

/-- The first index has the flag, if the name is read from its last piece on. -/
theorem longEntries_first (name short : List UInt8) {n : ℕ} (fuel q : ℕ) (hn : n < 20) (hfuel : n + 1 < fuel)
    (hq : page.toNat = 32 * q) :
    (longEntries name short fuel page (UInt8.ofNat (0x40 + (n + 1)))).1 = ((allPieces name short (n + 1)).take q).flatten ∧
      (longEntries name short fuel page (UInt8.ofNat (0x40 + (n + 1)))).2.toNat = 32 * (q - (n + 1)) := by
  obtain ⟨fuel, rfl⟩ := Nat.exists_eq_succ_of_ne_zero (show fuel ≠ 0 by omega)
  obtain ⟨-, hnext, -, hne⟩ := index_next n hn
  cases q with
  | zero =>
    rw [longEntries, if_pos (.inl ((page_zero hq).mpr rfl))]
    exact ⟨rfl, by rw [hq, Nat.zero_sub]⟩
  | succ q =>
    have hpage : page ≠ 0 := fun h0 => absurd ((page_zero hq).mp h0) (Nat.succ_ne_zero q)
    obtain ⟨h1, h2⟩ := longEntries_cut name short n fuel q (page - 0x20) (by omega) (by omega) (page_sub hq)
    rw [longEntries, if_neg (not_or.mpr ⟨hpage, hne⟩), hnext]
    dsimp only
    rw [h1, h2, allPieces, take_succ_cons, flatten_cons]
    exact ⟨rfl, by omega⟩

theorem pieces_drop (name short : List UInt8) : ∀ n o, (pieces name short n).drop o = pieces name short (n - o)
  | n, 0 => rfl
  | 0, o + 1 => by simp [pieces]
  | n + 1, o + 1 => by
    rw [pieces, drop_succ_cons, pieces_drop name short n o, Nat.add_sub_add_right]

/-- What is read of a name from piece `o` on, and what is left of the page. -/
theorem longEntries_offset (h : f.name.length ≤ 255) (hne : f.name ≠ []) (short : List UInt8) {o q : ℕ} (ho : o ≤ pieceNum f.name)
    (hq : page.toNat = 32 * q) :
    (longEntries f.name short 256 page (longIndex f (UInt8.ofNat o))).1 =
        (((allPieces f.name short (pieceNum f.name)).drop o).take q).flatten ∧
      (longEntries f.name short 256 page (longIndex f (UInt8.ofNat o))).2.toNat = 32 * (q - (pieceNum f.name - o)) := by
  have hle := pieceNum_le h
  have hpos : 0 < pieceNum f.name := by
    have := length_pos_iff.mpr hne
    unfold pieceNum
    omega
  rw [longIndex, longNum_piece h]
  obtain ⟨n, hn⟩ : ∃ n, pieceNum f.name = n + 1 := Nat.exists_eq_add_of_le' hpos
  rw [hn] at ho hle ⊢
  cases o with
  | zero =>
    have hall : ∀ n < 20, (if UInt8.ofNat (n + 1) ≥ 0x40 then 0x3F else UInt8.ofNat (n + 1)) ||| 0x40 = UInt8.ofNat (0x40 + (n + 1)) := by
      decide
    rw [if_pos (show UInt8.ofNat 0 = 0 from rfl), hall n hle]
    exact longEntries_first f.name short 256 q hle (by omega) hq
  | succ o =>
    have hall : ∀ n < 20, ∀ o < 20, o ≤ n → UInt8.ofNat (o + 1) ≠ 0 ∧
        (if UInt8.ofNat (n + 1) ≥ 0x40 then 0x3F else UInt8.ofNat (n + 1)) - UInt8.ofNat (o + 1) = UInt8.ofNat (n - o) := by
      decide
    obtain ⟨ho0, hsub⟩ := hall n hle o (by omega) (by omega)
    rw [if_neg ho0, hsub, allPieces, drop_succ_cons, pieces_drop, Nat.add_sub_add_right]
    exact longEntries_cut f.name short (n - o) 256 q page (by omega) (by omega) hq

/-! ### A page -/

theorem listing_cons (dir : Node) (up : List Node) (f : Node) (child next : Files) :
    listing dir up (.cons f child next) = entries (fixRecord dir up f) ++ listing dir up next := rfl

theorem take_flatten_append {α : Type*} (A B : List (List α)) (q : ℕ) :
    ((A ++ B).take q).flatten = (A.take q).flatten ++ (B.take (q - A.length)).flatten := by
  rw [take_append, flatten_append]

theorem dirEntries_at (hlabel : f.attr ≠ attrVolumid) (hlen : f.name.length ≤ 255) (hname : f.name ≠ []) (child next : Files) {o q : ℕ}
    (ho : o < (entries f).length) (hpage : page.toNat = 32 * (q + 1))
    (hnext : ∀ (page : UInt32) (q : ℕ), page.toNat = 32 * q → (dirEntries dir up page 0 next).1 = ((listing dir up next).take q).flatten) :
    (dirEntries dir up page (UInt8.ofNat o) (.cons f child next)).1 =
      (((listing dir up (.cons f child next)).drop o).take (q + 1)).flatten := by
  have hp0 : page ≠ 0 := fun h0 => absurd ((page_zero hpage).mp h0) (Nat.succ_ne_zero q)
  have hlong : listing dir up (.cons f child next) =
      (if isLFN f.name then allPieces f.name (getShortname f.name) (pieceNum f.name) else []) ++
        shortEntry (fixRecord dir up f) :: listing dir up next := by
    rw [listing_cons, entries, fixRecord_name, fixRecord_attr, if_neg hlabel, append_assoc]
    rfl
  rw [hlong, dirEntries, if_neg hp0, if_neg hlabel]
  by_cases hl : isLFN f.name
  · rw [entries_length, if_pos ⟨hlabel, hl⟩] at ho
    obtain ⟨hbytes, hleft⟩ := longEntries_offset hlen hname (getShortname f.name) (Nat.lt_succ_iff.mp ho) hpage
    have hdrop : ((allPieces f.name (getShortname f.name) (pieceNum f.name)).drop o).length = pieceNum f.name - o := by
      rw [length_drop, allPieces_length]
    simp only [fixRecord_name, hl, if_true, true_and]
    rw [drop_append_of_le_length (by rw [allPieces_length]; omega), take_flatten_append, hbytes, hdrop]
    by_cases hend : q + 1 ≤ pieceNum f.name - o
    · have hzero : (longEntries f.name (getShortname f.name) 256 page (longIndex f (UInt8.ofNat o))).2 = 0 :=
        (page_zero hleft).mpr (by omega)
      rw [if_pos hzero, Nat.sub_eq_zero_of_le hend]
      simp
    · obtain ⟨r, hr⟩ := Nat.exists_eq_add_of_lt (not_le.mp hend)
      have hsub : q + 1 - (pieceNum f.name - o) = r + 1 := by omega
      rw [hsub] at hleft ⊢
      have hne : (longEntries f.name (getShortname f.name) 256 page (longIndex f (UInt8.ofNat o))).2 ≠ 0 :=
        fun h0 => absurd ((page_zero hleft).mp h0) (Nat.succ_ne_zero r)
      rw [if_neg hne]
      rw [hnext _ r (page_sub hleft), take_succ_cons, flatten_cons, append_assoc]
  · rw [entries_length, if_neg (fun hand => hl hand.2)] at ho
    obtain rfl : o = 0 := by omega
    simp only [fixRecord_name, hl, Bool.false_eq_true, if_false, false_and, nil_append, drop_zero]
    rw [take_succ_cons, flatten_cons]
    exact congrArg (shortEntry (fixRecord dir up f) ++ ·) (hnext _ q (page_sub hpage))

/-- **The loop over the entries** goes as far as the page does. -/
theorem dirEntries_window (dir : Node) (up : List Node) : ∀ (fs : Files) (page : UInt32) (q : ℕ), (∀ f ∈ fs.list, Named f) →
    (∀ f ∈ fs.list, f.name.length ≤ 255) → page.toNat = 32 * q →
    (dirEntries dir up page 0 fs).1 = ((listing dir up fs).take q).flatten
  | .nil, _, q, _, _, _ => by simp [dirEntries, listing, Files.list]
  | .cons f child next, page, 0, _, _, hpage => by
    rw [dirEntries, if_pos ((page_zero hpage).mpr rfl)]
    rfl
  | .cons f child next, page, q + 1, hnamed, hlen, hpage => by
    have hnext : ∀ (page : UInt32) (q : ℕ), page.toNat = 32 * q →
        (dirEntries dir up page 0 next).1 = ((listing dir up next).take q).flatten := fun page q =>
      dirEntries_window dir up next page q (fun g hg => hnamed g (mem_cons_of_mem _ hg))
        (fun g hg => hlen g (mem_cons_of_mem _ hg))
    by_cases hlabel : f.attr = attrVolumid
    · have hp0 : page ≠ 0 := fun h0 => absurd ((page_zero hpage).mp h0) (Nat.succ_ne_zero q)
      have hone : entries (fixRecord dir up f) = [volumeEntry f] := by
        rw [entries, fixRecord_attr, if_pos hlabel, volumeEntry_fixRecord]
      rw [dirEntries, if_neg hp0, if_pos hlabel, listing_cons, hone, singleton_append, take_succ_cons, flatten_cons]
      exact congrArg (volumeEntry f ++ ·) (hnext _ q (page_sub hpage))
    · have hpos : 0 < (entries f).length := by
        rw [entries_length]
        split_ifs <;> omega
      exact dirEntries_at hlabel (hlen f mem_cons_self) (hnamed f mem_cons_self hlabel) child next hpos hpage hnext

theorem offset_of_addr {addr : UInt64} {a : ℕ} (ha : addr.toNat = 32 * a) : (addr / 0x20).toUInt8 = UInt8.ofNat a := by
  have h32 : (0x20 : UInt64).toNat = 32 := rfl
  apply UInt8.toNat_inj.mp
  rw [UInt64.toNat_toUInt8, UInt64.toNat_div, h32, ha, Nat.mul_div_cancel_left a (by decide), UInt8.toNat_ofNat']

/-- **The search for the entry at an address** goes on inside a file's entries. -/
theorem dirSeek_window (dir : Node) (up : List Node) : ∀ (fs : Files) (addr : UInt64) (a q : ℕ), (∀ f ∈ fs.list, Named f) →
    (∀ f ∈ fs.list, f.name.length ≤ 255) → addr.toNat = 32 * a → page.toNat = 32 * q →
    (dirSeek dir up page addr fs).1 = (((listing dir up fs).drop a).take q).flatten
  | .nil, _, a, q, _, _, _, _ => by simp [dirSeek, listing, Files.list]
  | .cons f child next, addr, a, q, hnamed, hlen, ha, hpage => by
    have hf := hlen f mem_cons_self
    have hnamed' : ∀ g ∈ next.list, Named g := fun g hg => hnamed g (mem_cons_of_mem _ hg)
    have hlen' : ∀ g ∈ next.list, g.name.length ≤ 255 := fun g hg => hlen g (mem_cons_of_mem _ hg)
    have hsize : (entrySize f).toUInt64.toNat = 32 * (entries f).length := by
      rw [UInt32.toNat_toUInt64, entrySize_entries hf]
    rw [dirSeek]
    split_ifs with h0 hlt
    · have ha0 : a = 0 := by
        rw [h0, UInt64.toNat_zero] at ha
        omega
      rw [ha0, drop_zero]
      exact dirEntries_window dir up _ page q hnamed hlen hpage
    · rw [UInt64.lt_iff_toNat_lt, hsize, ha] at hlt
      have ha0 : a ≠ 0 := by
        rintro rfl
        exact h0 (UInt64.toNat_inj.mp ha)
      have hlabel : f.attr ≠ attrVolumid := by
        intro hlabel
        rw [entries_length, if_neg (fun hand => hand.1 hlabel)] at hlt
        omega
      rw [offset_of_addr ha]
      cases q with
      | zero =>
        rw [dirEntries, if_pos ((page_zero hpage).mpr rfl)]
        rfl
      | succ q =>
        exact dirEntries_at hlabel hf (hnamed f mem_cons_self hlabel) child next (by omega) hpage fun page q =>
          dirEntries_window dir up next page q hnamed' hlen'
    · have hge : (entrySize f).toUInt64 ≤ addr := UInt64.not_lt.mp hlt
      have hle : (entries f).length ≤ a := by
        rw [UInt64.le_iff_toNat_le, hsize, ha] at hge
        omega
      have hsub : (addr - (entrySize f).toUInt64).toNat = 32 * (a - (entries f).length) := by
        rw [UInt64.toNat_sub_of_le _ _ hge, hsize, ha]
        omega
      have hall : (entries (fixRecord dir up f)).drop a = [] := drop_of_length_le (by rw [entries_length_fix]; exact hle)
      rw [dirSeek_window dir up next _ _ q hnamed' hlen' hsub hpage, listing_cons, drop_append, entries_length_fix, hall,
        nil_append]

/-- **A page** is a window of the listing. -/
theorem dirRead_window (hdir : dir.isDir) (hnamed : ∀ f ∈ fs.list, Named f) (hlen : ∀ f ∈ fs.list, f.name.length ≤ 255) {addr : UInt64}
    (ha : 32 ∣ addr.toNat) (hpage : 32 ∣ page.toNat) :
    (dirRead dir up fs addr page).2.1 = window 0 (listing dir up fs).flatten addr.toNat page.toNat := by
  obtain ⟨a, ha⟩ := ha
  obtain ⟨q, hq⟩ := hpage
  unfold dirRead
  rw [if_pos hdir]
  dsimp only
  rw [dirSeek_window dir up fs addr a q hnamed hlen ha hq, window_eq, ha, hq]
  exact window_pieces (listing_width hlen) a q

/-- **The pages together**, whatever their size. -/
theorem dirPages_window (hdir : dir.isDir) (hnamed : ∀ f ∈ fs.list, Named f) (hlen : ∀ f ∈ fs.list, f.name.length ≤ 255) {n : ℕ}
    (hpage : 32 ∣ page.toNat) (hn : n * page.toNat ≤ 2 ^ 64) :
    (dirPages dir up page fs n).1 = window 0 (listing dir up fs).flatten 0 (n * page.toNat) := by
  rw [(dirPages_eq dir up page fs n).1, ← window_pages]
  refine flatMap_congr fun k hk => ?_
  rcases eq_zero_or_pos page.toNat with h0 | hpos
  · have hpage0 : page = 0 := UInt32.toNat_inj.mp h0
    rw [dirRead_window hdir hnamed hlen (by rw [h0]; exact ⟨0, rfl⟩) hpage, h0]
    rfl
  · have hlt : k * page.toNat < 2 ^ 64 :=
      (mul_lt_mul_of_pos_right (List.mem_range.mp hk) hpos).trans_le hn
    have haddr : (UInt64.ofNat (k * page.toNat)).toNat = k * page.toNat := UInt64.toNat_ofNat_of_lt' hlt
    rw [dirRead_window hdir hnamed hlen (by rw [haddr]; exact hpage.mul_left k) hpage, haddr]

/-! ### The size that is counted -/

theorem calcDirSize_toNat (dir : Node) (up : List Node) : ∀ fs : Files, (∀ f ∈ fs.list, f.name.length ≤ 255) →
    (calcDirSize fs).toNat = (listing dir up fs).flatten.length % 2 ^ 32
  | .nil, _ => rfl
  | .cons f child next, hlen => by
    have hf := hlen f mem_cons_self
    have hnext : ∀ g ∈ next.list, g.name.length ≤ 255 := fun g hg => hlen g (mem_cons_of_mem _ hg)
    have ih := calcDirSize_toNat dir up next hnext
    have h32 : (0x20 : UInt32).toNat = 32 := rfl
    rw [length_pieces (listing_width hnext)] at ih
    rw [length_pieces (listing_width hlen), listing_cons, length_append, entries_length_fix, entries_length, calcDirSize,
      UInt32.toNat_add, ih, UInt32.toNat_add]
    split_ifs
    · rw [UInt32.toNat_mul, longname_num hf, h32]
      omega
    · rw [UInt32.toNat_zero, h32]
      omega

/-- **The clusters have room for the entries** if what is counted is not cut. -/
theorem fits_iff {p : Param} (hdir : dir.isDir) (hcs : 0 < (clusterSize p).toNat) (hlen : ∀ f ∈ fs.list, f.name.length ≤ 255) :
    (listing dir up fs).flatten.length ≤ (calcDirClusters p dir fs).toNat * (clusterSize p).toNat ↔
      fs = .nil ∨ (listing dir up fs).flatten.length + (clusterSize p).toNat ≤ 2 ^ 32 := by
  cases fs with
  | nil => exact ⟨fun _ => .inl rfl, fun _ => Nat.zero_le _⟩
  | cons f child next =>
    have hsize := calcDirSize_toNat dir up (.cons f child next) hlen
    have hcs32 := (clusterSize p).toNat_lt
    have hpos : 0 < (listing dir up (.cons f child next)).flatten.length := by
      rw [length_pieces (listing_width hlen), listing_cons, length_append, entries_length_fix, entries_length]
      split_ifs <;> omega
    have hone : (1 : UInt32).toNat = 1 := rfl
    have hnum : (calcDirClusters p dir (.cons f child next)).toNat =
        (((listing dir up (.cons f child next)).flatten.length + (clusterSize p).toNat - 1) % 2 ^ 32) / (clusterSize p).toNat := by
      have hcalc : calcDirClusters p dir (.cons f child next) =
        if dir.isDir then (calcDirSize (.cons f child next) + clusterSize p - 1) / clusterSize p else 0 := rfl
      rw [hcalc, if_pos hdir, UInt32.toNat_div]
      congr 1
      rw [UInt32.toNat_sub, UInt32.toNat_add, hsize, hone]
      omega
    rw [hnum]
    generalize (listing dir up (.cons f child next)).flatten.length = len at hpos
    have hdm := Nat.div_add_mod ((len + (clusterSize p).toNat - 1) % 2 ^ 32) (clusterSize p).toNat
    have hmod := Nat.mod_lt ((len + (clusterSize p).toNat - 1) % 2 ^ 32) hcs
    rw [mul_comm] at hdm
    constructor
    · intro hle
      right
      by_contra hlt
      omega
    · intro hor
      have hfit : len + (clusterSize p).toNat ≤ 2 ^ 32 := by
        rcases hor with hnil | hfit
        · cases hnil
        · exact hfit
      omega

/-! ### A file with the empty name -/

/-- Its first entry is a piece with the flag alone, not the short entry. -/
theorem dirEntries_empty (hlabel : f.attr ≠ attrVolumid) (hname : f.name = []) (child next : Files) :
    (dirEntries dir up 0x20 0 (.cons f child next)).1 = longEntry [] (getShortname []) 0x40 ∧
      (entries (fixRecord dir up f)).flatten.getD 0 0 = tilde := by
  have hindex : longIndex f 0 = 0x40 := by
    rw [longIndex, longNum, calcLongnameLen, hname]
    decide
  have hl : isLFN [] = true := by decide
  have hlong : longEntries [] (getShortname []) 256 0x20 0x40 = (longEntry [] (getShortname []) 0x40, 0) := by decide
  constructor
  · rw [dirEntries, if_neg (by decide), if_neg hlabel, hname, hl]
    rw [hindex, if_pos rfl, hlong, if_pos ⟨rfl, rfl⟩]
  · have hnum : pieceNum [] = 0 := rfl
    rw [entries, fixRecord_name, fixRecord_attr, if_neg hlabel, hname, hl, if_pos rfl, hnum, allPieces, nil_append,
      flatten_singleton, shortEntry_eq, fixRecord_name, hname]
    rfl

/-- Where the first file with the empty name would have its short entry. -/
theorem dirSeek_empty (dir : Node) (up : List Node) : ∀ fs : Files, (∀ f ∈ fs.list, f.name.length ≤ 255) → (∃ f ∈ fs.list, ¬ Named f) →
    ∃ k ≤ 21 * fs.list.length, (∀ addr : UInt64, addr.toNat = 32 * k →
      (dirSeek dir up 0x20 addr fs).1 = longEntry [] (getShortname []) 0x40) ∧ (listing dir up fs).flatten.getD (32 * k) 0 = tilde
  | .nil, _, hbad => by
    obtain ⟨f, hf, -⟩ := hbad
    exact absurd hf not_mem_nil
  | .cons f child next, hlen, hbad => by
    have hf := hlen f mem_cons_self
    by_cases hnamed : Named f
    · have hbad' : ∃ g ∈ next.list, ¬ Named g := by
        obtain ⟨g, hg, hno⟩ := hbad
        rcases mem_cons.mp hg with rfl | hg
        · exact absurd hnamed hno
        · exact ⟨g, hg, hno⟩
      obtain ⟨k, hk, hseek, hat⟩ := dirSeek_empty dir up next (fun g hg => hlen g (mem_cons_of_mem _ hg)) hbad'
      have hle := pieceNum_le hf
      have hcount : 0 < (entries f).length ∧ (entries f).length ≤ 21 := by
        rw [entries_length]
        split_ifs <;> omega
      have hsize : (entrySize f).toUInt64.toNat = 32 * (entries f).length := by
        rw [UInt32.toNat_toUInt64, entrySize_entries hf]
      have hwidth : (entries (fixRecord dir up f)).flatten.length = 32 * (entries f).length := by
        rw [length_pieces (entries_width (by rw [fixRecord_name]; exact hf.trans_lt (by decide))), entries_length_fix]
      refine ⟨(entries f).length + k, ?_, fun addr ha => ?_, ?_⟩
      · show _ ≤ 21 * (next.list.length + 1)
        omega
      · have hge : (entrySize f).toUInt64 ≤ addr := by
          rw [UInt64.le_iff_toNat_le, hsize, ha]
          omega
        have h0 : addr ≠ 0 := by
          rintro rfl
          rw [UInt64.toNat_zero] at ha
          omega
        rw [dirSeek, if_neg h0, if_neg (UInt64.not_lt.mpr hge)]
        refine hseek _ ?_
        rw [UInt64.toNat_sub_of_le _ _ hge, hsize, ha]
        omega
      · rw [listing_cons, flatten_append, getD_append_right _ _ _ _ (by rw [hwidth]; omega), hwidth, ← Nat.mul_sub,
          Nat.add_sub_cancel_left]
        exact hat
    · unfold Named at hnamed
      push Not at hnamed
      obtain ⟨hlabel, hname⟩ := hnamed
      obtain ⟨hfirst, htilde⟩ : (dirEntries dir up 0x20 0 (.cons f child next)).1 = longEntry [] (getShortname []) 0x40 ∧
          (entries (fixRecord dir up f)).flatten.getD 0 0 = tilde := dirEntries_empty hlabel hname child next
      refine ⟨0, Nat.zero_le _, fun addr ha => ?_, ?_⟩
      · have h0 : addr = 0 := UInt64.toNat_inj.mp ha
        rw [dirSeek, if_pos h0]
        exact hfirst
      · have hpos : 0 < (entries (fixRecord dir up f)).flatten.length := by
          rw [length_pieces (entries_width (by rw [fixRecord_name]; exact hf.trans_lt (by decide))), entries_length_fix, entries_length]
          split_ifs <;> omega
        rw [listing_cons, flatten_append, getD_append _ _ _ _ hpos]
        exact htilde

theorem named_of_pages (hdir : dir.isDir) (hlen : ∀ f ∈ fs.list, f.name.length ≤ 255) (hcount : fs.list.length < 2 ^ 32)
    (h : ∀ n : ℕ, n * 32 ≤ 2 ^ 64 → (dirPages dir up 0x20 fs n).1 = window 0 (listing dir up fs).flatten 0 (n * 32)) :
    ∀ f ∈ fs.list, Named f := by
  by_contra hbad
  push Not at hbad
  obtain ⟨k, hk, hseek, hat⟩ := dirSeek_empty dir up fs hlen hbad
  have haddr : (UInt64.ofNat (k * 32)).toNat = 32 * k := by
    rw [UInt64.toNat_ofNat_of_lt' (show k * 32 < 2 ^ 64 by omega), mul_comm]
  have hfirst := h k (by omega)
  have hlast := h (k + 1) (by omega)
  have hread := dirRead_fixAll dir up (dirPages dir up 0x20 fs k).2 (UInt64.ofNat (k * 32)) 0x20
  rw [(dirPages_eq dir up 0x20 fs k).2] at hread
  have hpage : (dirRead dir up (dirPages dir up 0x20 fs k).2 (UInt64.ofNat (k * 32)) 0x20).2.1 =
      window 0 (longEntry [] (getShortname []) 0x40) 0 32 := by
    rw [← hread.1, (dirRead_fixAll dir up fs _ _).1, dirRead, if_pos hdir]
    dsimp only
    rw [hseek _ haddr]
    exact window_eq _ _ _
  have hsplit : (dirPages dir up 0x20 fs (k + 1)).1 = (dirPages dir up 0x20 fs k).1 ++
      (dirRead dir up (dirPages dir up 0x20 fs k).2 (UInt64.ofNat (k * 32)) 0x20).2.1 := rfl
  rw [hsplit, hfirst, hpage] at hlast
  have hbyte := congrArg (fun l : List UInt8 => l.getD (32 * k) 0) hlast
  rw [getD_append_right _ _ _ _ (by rw [length_window]; omega), length_window, Nat.mul_comm k, Nat.sub_self,
    getD_window (by decide), getD_window (by omega), Nat.zero_add, Nat.zero_add, hat] at hbyte
  exact absurd hbyte (by decide)

/-- **A directory is read as it is, in any pages, and fits its clusters** just when only labels have the
empty name and the size is not cut to 32 bits. -/
theorem paged_iff (p : Param) (up : List Node) (hdir : dir.isDir) (hcs : 0 < (clusterSize p).toNat)
    (hlen : ∀ f ∈ fs.list, f.name.length ≤ 255) (hcount : fs.list.length < 2 ^ 32) :
    Paged p dir up fs ↔ (∀ f ∈ fs.list, Named f) ∧
      (fs = .nil ∨ (listing dir up fs).flatten.length + (clusterSize p).toNat ≤ 2 ^ 32) := by
  constructor
  · intro h
    exact ⟨named_of_pages hdir hlen hcount fun n hn => h.pages 0x20 n (dvd_refl 32) hn, (fits_iff hdir hcs hlen).mp h.fits⟩
  · rintro ⟨hnamed, hfit⟩
    refine ⟨fun page n hpage hn => dirPages_window hdir hnamed hlen hpage hn, fun page all n hpage hn hall hcover => ?_,
      (fits_iff hdir hcs hlen).mpr hfit⟩
    rw [dirPages_window hdir hnamed hlen hpage hn, dirRead_window hdir hnamed hlen (show 32 ∣ (0 : UInt64).toNat from dvd_zero 32) hall]
    exact (window_window hcover _).symm

def pagedNode (name : String) (attr : UInt8) : Node :=
  { name := ascii name, size := 0, attr, buff := none, cb := .dir, firstCluster := 5,
    record := { crtTimeTenth := 0, crtTime := 0, crtData := 0, lstAccData := 0, fstClusHI := 0, wrtTime := 0, wrtData := 0, fstClusLO := 0 } }

def pagedParam : Param :=
  { sectorSize := 512, sectorNumber := 40, sectorsPerCluster := 1, volumeId := 0, diskId := 0, root := pagedNode "" attrDirectory,
    child := .nil, ready := true, mbr := [] }

/-- A label, the directory `.` and a name in two pieces. -/
theorem paged_iff_three : Paged pagedParam (pagedNode "sub" attrDirectory) [] (.cons (pagedNode "LABEL" attrVolumid) .nil
    (.cons (pagedNode "." attrDirectory) .nil (.cons (pagedNode "Read me first.txt" 0) .nil .nil))) :=
  (paged_iff pagedParam [] (by decide) (by decide) (by decide) (by decide)).mpr
    ⟨by simp [Named, Files.list, pagedNode, ascii, attrVolumid], .inr (by decide +kernel)⟩

/-- A file with the empty name: the first entry is a piece whose number is 0. -/
theorem paged_breaks : ¬ Paged pagedParam (pagedNode "sub" attrDirectory) [] (.cons (pagedNode "" 0) .nil .nil) := by
  intro h
  have hpage := h.pages 0x20 1 (by decide) (by decide)
  have hbyte := congrArg (fun l : List UInt8 => l.getD 0 0) hpage
  revert hbyte
  decide +kernel

end FakeFat
end Vsf
