/-
# Searching a directory of a FAT volume

`vsffat_getchild` looks for a file by its name or index. It reads the directory sector by sector,
parses each in place (`Fat.scan`), and goes on. A sector is left for the next one if no entry is
left when the parser is called again; where the parser runs out of entries itself, the search ends.
The lemmas are about short entries, which the parser goes through one after the other.
-/
import Mathlib
import Vsf.Lib.CStr
import Vsf.Lib.Loop
import Vsf.File.Dentry
import Vsf.File.Fat

namespace Vsf
namespace Fat

open ByteMem Bpb File List Option

/-! ### The search of a sector -/

/-- The errors of `vsffat_getchild`. -/
inductive ChildErr
  | none
  | fail
  | notAvailable
  | notEnoughResources
  | notSupport
deriving DecidableEq

/-- What is filled in of a `struct vsfile_fatfile_t`. -/
structure FatFile where
  name : List UInt8
  attr : UInt8
  size : ℕ
  firstCluster : ℕ
deriving DecidableEq

/-- The file of a short entry. -/
def FatFile.read (m : Mem) (entry : ℕ) (name : List UInt8) : FatFile where
  name := name
  attr := m (entry + 11)
  size := load32 m (entry + 28)
  firstCluster := (load16 m (entry + 26) + load16 m (entry + 20) * 2 ^ 16) % 2 ^ 32

/-- `name`, or `idx` where `name` is `NULL`. -/
inductive Query
  | name (path : List UInt8)
  | index (idx : UInt32)

/-- The string at `a`, if it ends within `cap` bytes. -/
def strAt (m : Mem) (cap a : ℕ) : Option (List UInt8) :=
  (CStr.strlenLoop m cap a).map fun z => (List.range (z - a)).map fun i => m (a + i)

/-- Whether the file that was parsed is the one. -/
def Query.test (q : Query) (cap : ℕ) (d : Dparser) (curIndex : UInt32) : Option Bool :=
  match q with
  | .name path => (strAt d.mem cap d.filename).map (vsfileMatch path)
  | .index idx => some (idx = curIndex)

/-- How the search of a sector ends; a name without its `\0` leaves nothing to say. -/
inductive Scan
  | hit (d : Dparser)
  | noMore
  | over (mem : Mem) (curIndex : UInt32)
  | lost

/-- The loop over the files of a sector of `cap` bytes; `n` bounds their number. -/
def scan (q : Query) (cap : ℕ) : ℕ → Dparser → UInt32 → Scan
  | 0, d, curIndex => .over d.mem curIndex
  | n + 1, d, curIndex =>
    if d.entryNum = 0 then .over d.mem curIndex
    else
      let r := parseDentry d
      if r.1 then
        match q.test cap r.2 (curIndex + 1) with
        | some true => .hit r.2
        | some false => scan q cap n { r.2.next with filename := 0 } (curIndex + 1)
        | none => .lost
      else if r.2.entryNum > 0 then .noMore
      else .over r.2.mem curIndex

/-! ### What is looked for -/

/-- The file of an item. -/
def itemFile : Item → Option FatFile
  | .skip _ => none
  | .short b => some (FatFile.read (bufMem b) 0 (shortName b))
  | .long pieces b => some (FatFile.read (bufMem b) 0 (pieceName pieces))

/-- The files of a directory, in the order on the disk. -/
def liveFiles (its : List Item) : List FatFile := its.filterMap itemFile

@[simp] theorem liveFiles_nil : liveFiles [] = [] := rfl

variable {its : List Item} {f : FatFile} {b : List UInt8} {d : Dparser} {n : ℕ}

theorem liveFiles_append (its its' : List Item) : liveFiles (its ++ its') = liveFiles its ++ liveFiles its' :=
  filterMap_append

namespace Query

/-- **What is to be found**: the first file that matches, or the one with the index. -/
def answer (q : Query) (files : List FatFile) : Option FatFile :=
  match q with
  | .name path => files.find? fun f => vsfileMatch path f.name
  | .index idx => files[idx.toNat]?

/-- The first file is the one. -/
def hits (q : Query) (f : FatFile) : Bool :=
  match q with
  | .name path => vsfileMatch path f.name
  | .index idx => idx = 0

/-- What is still looked for behind the file with the index `curIndex`. -/
def since (q : Query) (curIndex : UInt32) : Query :=
  match q with
  | .name path => .name path
  | .index idx => .index (idx - (curIndex + 1))

/-- And behind `n` files. -/
def after (q : Query) (n : ℕ) : Query := q.since (UInt32.ofNat n - 1)

variable (q : Query)

@[simp] theorem since_start : q.since 0xFFFFFFFF = q := by
  cases q with
  | name path => rfl
  | index idx => simp [since]

@[simp] theorem since_since (i j : UInt32) : (q.since i).since j = q.since (i + 1 + j) := by
  cases q with
  | name path => rfl
  | index idx =>
    simp only [since, Query.index.injEq]
    grind

@[simp] theorem answer_nil : q.answer [] = none := by
  cases q <;> rfl

theorem answer_cons (f : FatFile) (fs : List FatFile) : q.answer (f :: fs) = if q.hits f then some f else (q.since 0).answer fs := by
  cases q with
  | name path =>
    by_cases hmatch : vsfileMatch path f.name = true
    · simp [answer, hits, hmatch]
    · simp [answer, hits, since, hmatch]
  | index idx =>
    simp only [answer, hits, since, decide_eq_true_eq]
    by_cases h0 : idx = 0
    · rw [if_pos h0, h0]
      rfl
    · have hpos : idx.toNat ≠ 0 := fun h => h0 (UInt32.toNat_inj.mp h)
      have hle : (0 + 1 : UInt32) ≤ idx := UInt32.le_iff_toNat_le.mpr (pos_of_ne_zero hpos)
      have hsub : (idx - (0 + 1)).toNat = idx.toNat - 1 := UInt32.toNat_sub_of_le _ _ hle
      obtain ⟨n, hn⟩ := Nat.exists_eq_succ_of_ne_zero hpos
      rw [if_neg h0, hsub, hn]
      rfl

theorem after_zero : q.after 0 = q := q.since_start

theorem since_after (n : ℕ) : (q.since 0).after n = q.after (n + 1) := by
  rw [after, after, since_since]
  congr 1
  simp [UInt32.ofNat_add]

theorem since_add (curIndex : UInt32) (n : ℕ) : q.since (curIndex + UInt32.ofNat n) = (q.since curIndex).after n := by
  rw [after, since_since]
  congr 1
  grind

variable {fs gs : List FatFile}

/-- What is found is not changed by files behind it. -/
theorem answer_mono (h : q.answer fs = some f) : q.answer (fs ++ gs) = some f := by
  cases q with
  | name path => exact find?_append.trans (by rw [show fs.find? _ = some f from h]; rfl)
  | index idx =>
    obtain ⟨hi, -⟩ := List.getElem?_eq_some_iff.mp h
    exact (getElem?_append_left hi).trans h

theorem answer_front (h : q.answer (fs ++ gs) = none) : q.answer fs = none := by
  cases hf : q.answer fs with
  | none => rfl
  | some f => exact absurd ((q.answer_mono hf).symm.trans h) (by simp)

theorem answer_append (h : q.answer fs = none) : q.answer (fs ++ gs) = (q.after fs.length).answer gs := by
  induction fs generalizing q with
  | nil => rw [nil_append, length_nil, after_zero]
  | cons f fs ih =>
    rw [answer_cons] at h
    rw [cons_append, answer_cons]
    split_ifs at h ⊢
    rw [ih _ h, since_after, length_cons]

end Query

/-! ### The thread -/

/-- The arguments, and the volume. -/
structure ChildCall where
  dev : Device
  fat : Fat
  firstCluster : ℕ
  query : Query

/-- Where the thread is: it waits for a directory or table sector, or is over. -/
inductive ChildPc
  | sector
  | table (sector : ℕ)
  | stuck

/-- The variables in `vsffat_t`; `look.entry` is `cur_cluster`. -/
structure Child where
  pc : ChildPc
  look : Lookup
  curSector : ℕ
  curIndex : UInt32

/-- The error, and the file. -/
abbrev ChildResult := ChildErr × Option FatFile

/-- What comes of a wait: the sector or anything; and whether there is memory. -/
structure Answer where
  junk : Option Mem
  fileRoom : Bool
  nameRoom : Bool

/-- The test for another sector in the cluster, or in the root directory. -/
def stays (fat : Fat) (cluster sector : ℕ) : Bool :=
  (cluster = 0 && sector < fat.rootsize) || sector % 2 ^ fat.clustersizeBits ≠ 0

namespace Child

variable (c : ChildCall)

/-- Up to the first wait. -/
def enter (look : Lookup) : ChildResult ⊕ Child :=
  let look := { look with entry := c.firstCluster }
  if c.firstCluster = 0 then
    if c.fat.type ≠ .fat12 ∧ c.fat.type ≠ .fat16 then .inl (.fail, none)
    else .inr ⟨.sector, look, c.fat.rootbase, 0xFFFFFFFF⟩
  else .inr ⟨.sector, look, c.fat.clus2sec c.firstCluster, 0xFFFFFFFF⟩

/-- A lookup goes on. -/
def looked (s : Child) (r : Lookup × LookupOut) : ChildResult ⊕ Child :=
  match r.2 with
  | .wait sector => .inr { s with look := r.1, pc := .table sector }
  | .done =>
    if c.fat.entryValid r.1.entry = false ∨ c.fat.entryEOF r.1.entry = true then .inl (.notAvailable, none)
    else
      let cluster := r.1.entry % 2 ^ 28
      .inr { s with look := { r.1 with entry := cluster }, curSector := c.fat.clus2sec cluster, pc := .sector }
  | .fail => .inl (.fail, none)

/-- The next sector. -/
def advance (s : Child) : ChildResult ⊕ Child :=
  if stays c.fat s.look.entry s.curSector then .inr { s with curSector := (s.curSector + 1) % 2 ^ 32, pc := .sector }
  else s.looked c (c.fat.lookupStart s.look)

/-- The sector was searched. -/
def searched (s : Child) (a : Answer) : Scan → ChildResult ⊕ Child
  | .hit d =>
    if a.fileRoom = false ∨ a.nameRoom = false then .inl (.notEnoughResources, none)
    else
      match strAt d.mem c.fat.sectorsize d.filename with
      | some name => .inl (.none, some (FatFile.read d.mem d.entry name))
      | none => .inr { s with pc := .stuck }
  | .noMore => .inl (.notAvailable, none)
  | .over mem curIndex => { s with look := { s.look with buffer := mem }, curIndex := curIndex }.advance c
  | .lost => .inr { s with pc := .stuck }

/-- The sector of the directory is in the buffer, where it is parsed in place. -/
def search (s : Child) (a : Answer) : ChildResult ⊕ Child :=
  let entryNum := UInt16.ofNat (2 ^ (c.fat.sectorsizeBits - 5))
  s.searched c a (scan c.query c.fat.sectorsize entryNum.toNat ⟨s.look.buffer, 0, entryNum, 0, 0⟩ s.curIndex)

/-- The sector it waits for. -/
def request (s : Child) : Option ℕ :=
  match s.pc with
  | .sector => some s.curSector
  | .table sector => some sector
  | .stuck => none

/-- The sector is read; if that fails, anything is there. -/
def filled (s : Child) (sector : ℕ) (junk : Option Mem) : Child :=
  { s with look := { s.look with buffer := junk.getD (c.dev.deliver sector 1 0 s.look.buffer) } }

/-- The thread is entered again. -/
def resume (s : Child) (a : Answer) : ChildResult ⊕ Child :=
  match s.pc with
  | .sector =>
    let s := { s with look := { s.look with curFatsector := 0 } }
    if a.junk.isSome then .inl (.fail, none)
    else if c.fat.type = .exfat then .inl (.notSupport, none)
    else s.search c a
  | .table _ => s.looked c (c.fat.lookupResume s.look a.junk.isNone)
  | .stuck => .inr s

/-- From wait to wait, answered in turn; what `vsf_malfs_read` refuses is never read. -/
def next (as : ℕ → Answer) : ℕ × Child → ChildResult ⊕ (ℕ × Child)
  | (n, s) =>
    match s.request with
    | some sector =>
      if c.dev.accepts sector 1 then ((s.filled c sector (as n).junk).resume c (as n)).map id (n + 1, ·)
      else .inr (n, { s with pc := .stuck })
    | none => .inr (n, s)

end Child

/-- `vsffat_getchild`, with what is in the variables of the lookups before. -/
def Getchild (c : ChildCall) (as : ℕ → Answer) (look : Lookup) (r : ChildResult) : Prop :=
  match Child.enter c look with
  | .inl r' => r = r'
  | .inr s => Loop.Ends (Child.next c as) (0, s) r

/-! ### The files of a sector -/

variable {m m0 : Mem} {e top cap : ℕ} {q : Query}

/-- The parser shows a file: its name, and the fields of its entry. -/
structure Shows (cap : ℕ) (d : Dparser) (f : FatFile) : Prop where
  name : strAt d.mem cap d.filename = some f.name
  fields : FatFile.read d.mem d.entry f.name = f

theorem strAt_holds {a : ℕ} {name : List UInt8} (h : Holds m a (name ++ [0])) (h0 : 0 ∉ name) (hcap : name.length < cap) :
    strAt m cap a = some name := by
  obtain ⟨hname, hzero⟩ := holds_append.mp h
  have hend : CStr.strlenLoop m cap a = some (a + name.length) := by
    refine CStr.strlenLoop_of cap (Nat.le_add_right _ _) (by omega) (holds_cons.mp hzero).1 fun i hlo hhi => ?_
    obtain ⟨k, rfl⟩ := Nat.exists_eq_add_of_le hlo
    rw [hname k (by omega)]
    exact fun hz => h0 (hz ▸ getElem_mem _)
  rw [strAt, hend, map_some, Nat.add_sub_cancel_left]
  refine congrArg some (ext_getElem (by simp) fun i _ hi => ?_)
  rw [getElem_map, getElem_range]
  exact hname i hi

theorem read_congr {m m' : Mem} {e e' : ℕ} (h : ∀ k, 11 ≤ k → k < 32 → m (e + k) = m' (e' + k)) (name : List UInt8) :
    FatFile.read m e name = FatFile.read m' e' name := by
  simp only [FatFile.read, load32, load16, add_assoc, Nat.reduceAdd]
  simp only [h 11 (by decide) (by decide), h 20 (by decide) (by decide), h 21 (by decide) (by decide), h 26 (by decide) (by decide),
    h 27 (by decide) (by decide), h 28 (by decide) (by decide), h 29 (by decide) (by decide), h 30 (by decide) (by decide),
    h 31 (by decide) (by decide)]

/-- The file of a short entry. -/
def shortFile (b : List UInt8) : FatFile := FatFile.read (bufMem b) 0 (shortName b)

theorem liveFiles_short (b : List UInt8) (its : List Item) : liveFiles (.short b :: its) = shortFile b :: liveFiles its := rfl

theorem shows_of_at (hb : ShortOk b) (hat : d.At 0 ⟨shortName b, e, b⟩) (hcap : 12 < cap) : Shows cap d (shortFile b) := by
  have hlen := hb.length
  have hname := shortName_length_le b
  refine ⟨?_, ?_⟩
  · rw [hat.filename]
    exact strAt_holds hat.name hb.name_ne_zero (lt_of_le_of_lt hname hcap)
  · rw [hat.entry]
    refine read_congr (fun k hlo hhi => ?_) _
    obtain ⟨i, rfl⟩ := Nat.exists_eq_add_of_le hlo
    have hi : i < (b.drop 11).length := by
      rw [length_drop]
      omega
    rw [← add_assoc, hat.fields i hi, getElem_drop, zero_add, bufMem, LE.get8, getD_eq_getElem _ _ (by omega)]

theorem test_shows (h : Shows cap d f) (curIndex : UInt32) :
    q.test cap d (curIndex + 1) = some ((q.since curIndex).hits f) := by
  cases q with
  | name path => simp [Query.test, Query.since, Query.hits, h.name]
  | index idx =>
    simp only [Query.test, Query.since, Query.hits, Option.some.injEq, decide_eq_decide]
    grind

/-- **A short entry**: it is the file, or the search goes on behind it. -/
theorem scan_short (hb : ShortOk b) (hm0 : Holds m0 e b) (hag : Agree m m0 e top) (htop : e + 32 ≤ top) (hsafe : ShortSafe m0 0 top e b)
    (hn : n + 1 < 65536) (hcap : 12 < cap) (curIndex : UInt32) : ∃ d m', Shows cap d (shortFile b) ∧ Agree m' m0 (e + 32) top ∧
      ∀ fuel, scan q cap (fuel + 1) ⟨m, e, UInt16.ofNat (n + 1), 0, 0⟩ curIndex =
        if (q.since curIndex).hits (shortFile b) then .hit d
        else scan q cap fuel ⟨m', e + 32, UInt16.ofNat n, 0, 0⟩ (curIndex + 1) := by
  obtain ⟨m', hag', hparse, hat⟩ := parseDentry_short hb hm0 hag htop hsafe hn
  have hshows := shows_of_at hb hat hcap
  refine ⟨_, m', hshows, hag', fun fuel => ?_⟩
  rw [scan]
  rw [if_neg (ofNat16_ne_zero (Nat.succ_ne_zero n) hn), hparse, if_pos rfl, test_shows hshows, Dparser.next]
  cases (q.since curIndex).hits (shortFile b) <;> rfl

/-- **An entry passed over in the last slot**: the count wraps, and the search ends. -/
theorem scan_cut (hb : SkipOk b) (hm : Holds m e b) (fuel : ℕ) (curIndex : UInt32) :
    scan q cap (fuel + 1) ⟨m, e, 1, 0, 0⟩ curIndex = .noMore := by
  have hparse : parseDentry ⟨m, e, 1, 0, 0⟩ = (false, ⟨m, e + 40, 0xFFFF, 0, 0⟩) := by
    rw [parseDentry, show (1 : UInt16).toNat = 0 + 1 from rfl, parseLoop_skip hb hm, parseLoop]
  rw [scan]
  dsimp only
  rw [if_neg (by decide), hparse, if_neg Bool.false_ne_true, if_pos (show (0xFFFF : UInt16) > 0 by decide)]

theorem scan_end (hend : m e = 0) (hn : n + 2 < 65536) (fuel : ℕ) (curIndex : UInt32) :
    scan q cap (fuel + 1) ⟨m, e, UInt16.ofNat (n + 2), 0, 0⟩ curIndex = .noMore := by
  have hparse : parseDentry ⟨m, e, UInt16.ofNat (n + 2), 0, 0⟩ = (false, ⟨m, e, UInt16.ofNat (n + 1), 0, 0⟩) := by
    rw [parseDentry, toNat_ofNat16 hn, parseLoop, if_pos hend]
  have hpos : UInt16.ofNat (n + 1) > 0 := by
    rw [gt_iff_lt, UInt16.lt_iff_toNat_lt, toNat_ofNat16 (by omega)]
    exact Nat.succ_pos n
  rw [scan]
  rw [if_neg (ofNat16_ne_zero (by omega) hn), hparse, if_neg Bool.false_ne_true, if_pos hpos]

/-- In the last slot it is not seen: no entry is left behind it. -/
theorem scan_last (hend : m e = 0) (fuel : ℕ) (curIndex : UInt32) :
    scan q cap (fuel + 1) ⟨m, e, 1, 0, 0⟩ curIndex = .over m curIndex := by
  have hparse : parseDentry ⟨m, e, 1, 0, 0⟩ = (false, ⟨m, e, 0, 0, 0⟩) := by
    rw [parseDentry, show (1 : UInt16).toNat = 0 + 1 from rfl, parseLoop, if_pos hend]
    rfl
  rw [scan]
  dsimp only
  rw [if_neg (by decide), hparse, if_neg Bool.false_ne_true, if_neg (show ¬ (0 : UInt16) > 0 by decide)]

theorem scan_over (fuel : ℕ) (curIndex : UInt32) : scan q cap fuel ⟨m, e, 0, 0, 0⟩ curIndex = .over m curIndex := by
  cases fuel with
  | zero => rfl
  | succ fuel =>
    rw [scan]
    rw [if_pos rfl]

/-- **The items in front of the search**: it goes on behind them. -/
theorem scan_items (hcap : 12 < cap) : ∀ (its : List Item) (e : ℕ) (m : Mem) (n : ℕ) (curIndex : UInt32), (∀ it ∈ its, it.Valid) →
    Holds m0 e (its.flatMap Item.bytes) → Agree m m0 e top → e + 32 * entryCount its ≤ top → ItemsSafe m0 0 top e its →
    (q.since curIndex).answer (liveFiles its) = none → entryCount its + n < 65536 →
    ∃ m', Agree m' m0 (e + 32 * entryCount its) top ∧ ∀ fuel, entryCount its + n ≤ fuel → ∃ fuel', n ≤ fuel' ∧
      scan q cap fuel ⟨m, e, UInt16.ofNat (entryCount its + n), 0, 0⟩ curIndex =
        scan q cap fuel' ⟨m', e + 32 * entryCount its, UInt16.ofNat n, 0, 0⟩ (curIndex + UInt32.ofNat (liveFiles its).length)
  | [], e, m, n, curIndex, _, _, hag, _, _, _, _ => by
    refine ⟨m, hag, fun fuel hfuel => ⟨fuel, by simpa [entryCount] using hfuel, ?_⟩⟩
    simp [entryCount, liveFiles]
  | .skip _ :: _, _, _, _, _, _, _, _, _, ⟨hsafe, _⟩, _, _ => hsafe.elim
  | .long _ _ :: _, _, _, _, _, _, _, _, _, ⟨hsafe, _⟩, _, _ => hsafe.elim
  | .short b :: its, e, m, n, curIndex, hvalid, hm0, hag, htop, ⟨hsafe, hsafes⟩, hmiss, hn => by
    have hb : ShortOk b := hvalid (.short b) mem_cons_self
    have hits : ∀ it ∈ its, it.Valid := fun it h => hvalid it (mem_cons_of_mem _ h)
    rw [entryCount_cons, Item.num] at htop hn ⊢
    rw [flatMap_cons, holds_append, Item.bytes, hb.length] at hm0
    rw [liveFiles_short, Query.answer_cons] at hmiss
    split_ifs at hmiss with hhit
    obtain ⟨d, m1, -, hag1, hfile⟩ := scan_short (q := q) (n := entryCount its + n) hb hm0.1 hag (by omega) hsafe (by omega) hcap curIndex
    rw [Query.since_since, add_zero] at hmiss
    obtain ⟨m', hag', hrun⟩ := scan_items hcap its (e + 32) m1 n (curIndex + 1) hits hm0.2 hag1 (by omega) hsafes hmiss (by omega)
    rw [show e + 32 * (1 + entryCount its) = e + 32 + 32 * entryCount its by omega]
    refine ⟨m', hag', fun fuel hfuel => ?_⟩
    obtain ⟨fuel, rfl⟩ := Nat.exists_eq_succ_of_ne_zero (show fuel ≠ 0 by omega)
    obtain ⟨fuel', hle, heq⟩ := hrun fuel (by omega)
    refine ⟨fuel', hle, ?_⟩
    have hindex : curIndex + 1 + UInt32.ofNat (liveFiles its).length = curIndex + UInt32.ofNat (shortFile b :: liveFiles its).length := by
      rw [length_cons, UInt32.ofNat_add, UInt32.add_assoc, UInt32.add_comm 1]
      rfl
    rw [show 1 + entryCount its + n = entryCount its + n + 1 by omega, hfile fuel, if_neg hhit, heq, liveFiles_short, hindex]

/-- **The file is in the sector**, if it is the first one that is looked for. -/
theorem scan_hit {pre : List Item} {f : FatFile} {curIndex : UInt32} (hcap : 12 < cap)
    (hvalid : ∀ it ∈ pre ++ [Item.short b], it.Valid) (hm0 : Holds m0 0 ((pre ++ [Item.short b]).flatMap Item.bytes)) (hag : Agree m m0 0 top)
    (htop : 32 * entryCount (pre ++ [Item.short b]) ≤ top) (hsafe : ItemsSafe m0 0 top 0 (pre ++ [.short b]))
    (hmiss : (q.since curIndex).answer (liveFiles pre) = none) (hhit : (q.since curIndex).answer (liveFiles (pre ++ [Item.short b])) = some f)
    (hle : entryCount (pre ++ [Item.short b]) ≤ n) (hn : n < 65536) :
    ∃ d, Shows cap d f ∧ scan q cap n ⟨m, 0, UInt16.ofNat n, 0, 0⟩ curIndex = .hit d := by
  have hone : entryCount [Item.short b] = 1 := rfl
  have hb : ShortOk b := hvalid (.short b) (by simp)
  rw [entryCount_append, hone] at hle htop
  rw [flatMap_append, flatMap_singleton, holds_append] at hm0
  rw [itemsSafe_append, zero_add] at hsafe
  have hpre : ∀ it ∈ pre, it.Valid := fun it h => hvalid it (mem_append_left _ h)
  obtain ⟨r, rfl⟩ := Nat.exists_eq_add_of_le hle
  obtain ⟨m', hag', hrun⟩ := scan_items hcap pre 0 m (r + 1) curIndex hpre hm0.1 hag (by omega) hsafe.1 hmiss (by omega)
  obtain ⟨fuel, hfuel, heq⟩ := hrun (entryCount pre + 1 + r) (by omega)
  obtain ⟨fuel, rfl⟩ := Nat.exists_eq_succ_of_ne_zero (show fuel ≠ 0 by omega)
  have hlen := flatMap_bytes_length fun it hit => (hpre it hit).bytes_length
  rw [liveFiles_append, Query.answer_append _ hmiss, liveFiles_short, Query.answer_cons, liveFiles_nil, Query.answer_nil] at hhit
  split_ifs at hhit with hq
  obtain rfl := some.inj hhit
  rw [hlen, zero_add] at hm0
  rw [zero_add] at heq hag'
  obtain ⟨d, m1, hshows, -, hfile⟩ := scan_short (q := q) (n := r) hb hm0.2 hag' (by omega) hsafe.2.1 (by omega) hcap
    (curIndex + UInt32.ofNat (liveFiles pre).length)
  refine ⟨d, hshows, ?_⟩
  rw [show entryCount pre + 1 + r = entryCount pre + (r + 1) by omega] at heq ⊢
  rw [heq, hfile, Query.since_add, if_pos hq]

end Fat
end Vsf
