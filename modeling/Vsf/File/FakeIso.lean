/-
# An ISO 9660 volume that is never stored: where its files are

The first 18 blocks are the descriptors, the path tables come next, and `fakeiso_init` gives each
file and directory the next blocks, rounded up to 32 and past the areas to keep out of.
`fakeiso_get_file_by_lba` walks the tree again for each block. The walk in numbers without a bound
is `walk`.
-/
import Mathlib
import Vsf.File.Name

namespace Vsf
namespace FakeIso

open File List

/-! ### The tree -/

/-- `FAKEISO_FILEATTR_DIRECTORY`. -/
def fileattrDirectory : UInt8 := 2

/-- `struct fakeiso_file_t`, for the layout; `init` is `callback.init`, which may set the size or fail. -/
structure Node where
  name : List UInt8
  attr : UInt8
  size : UInt64
  init : Option (UInt64 → Option UInt64)
  firstLba : UInt32
  volumeSequenceNumber : UInt16

/-- An array of files up to the one without a name; a `filelist` may be `NULL`. -/
inductive Files
  | null
  | nil
  | cons (f : Node) (filelist next : Files)

/-- The files of the array. -/
def Files.row : Files → List Node
  | .null => []
  | .nil => []
  | .cons f _ next => f :: next.row

/-- The files of the array and below, in the order of a walk. -/
def Files.nodes : Files → List Node
  | .null => []
  | .nil => []
  | .cons f filelist next => f :: (filelist.nodes ++ next.nodes)

/-- An area to keep out of: `keepout_lba` and `keepout_len`. -/
structure Keepout where
  lba : UInt32
  len : UInt32

/-- `struct fakeiso_param_t`, as far as the layout goes. -/
structure Param where
  sequenceNumber : UInt16
  root : Node
  filelist : Files
  keepout : List Keepout
  pathTableLba : UInt32
  pathTableSize : UInt32
  blockNum : UInt32

/-- `capacity` of `struct mal_info_t`. -/
structure Capacity where
  blockNumber : UInt64
  blockSize : UInt64

/-- `"."`. -/
def dotName : List UInt8 := [dot]

/-- `".."`. -/
def dotdotName : List UInt8 := [dot, dot]

def Node.isDir (f : Node) : Bool := f.attr &&& fileattrDirectory ≠ 0

/-- The file is named `.` or `..`. -/
def Node.isDots (f : Node) : Bool := f.name = dotName || f.name = dotdotName

/-! ### Sizes -/

/-- `fakeiso_calc_path_table_record_size`. -/
def calcPathTableRecordSize (f : Node) : ℕ :=
  let filenameSize := if f.isDots then 1 else f.name.length % 2 ^ 16
  (8 + min filenameSize 0xFF + 1) / 2 * 2

/-- The loop of `fakeiso_calc_path_table_size`: each directory and what is below it. -/
def calcPathTableLoop : Files → ℕ
  | .null => 0
  | .nil => 0
  | .cons f filelist next =>
    (if f.isDir ∧ ¬ f.isDots then
      match filelist with
      | .null => 0
      | filelist => calcPathTableRecordSize f + calcPathTableLoop filelist
    else 0) + calcPathTableLoop next

/-- `fakeiso_calc_path_table_size` of the root. -/
def calcPathTableSize (root : Node) (filelist : Files) : ℕ :=
  match filelist with
  | .null => 0
  | filelist => if root.isDir then calcPathTableRecordSize root + calcPathTableLoop filelist else 0

/-- `fakeiso_calc_file_record_size`. -/
def calcFileRecordSize (f : Node) : ℕ :=
  let filenameSize :=
    if f.isDots then 1
    else if f.isDir then f.name.length % 2 ^ 16
    else (f.name.length % 2 ^ 16 + 2) % 2 ^ 16
  (33 + min filenameSize (0xFE - 33) + 1) / 2 * 2

/-- `size` and `cur_page_size` of `fakeiso_calc_dir_size`. -/
structure Pages where
  size : ℕ
  page : ℕ

/-- A record goes to the next page if the page is too full for it. -/
def Pages.add (s : Pages) (curSize : ℕ) : Pages :=
  if s.page + curSize > 2048 then ⟨s.size + 2048, curSize⟩ else ⟨s.size, s.page + curSize⟩

/-- The records of a file, one for each 4 GiB; `fsize` rounds are enough. -/
def recordLoop (curSize : ℕ) : (rounds fsize : ℕ) → Pages → Pages
  | 0, _, s => s
  | rounds + 1, fsize, s =>
    if fsize = 0 then s
    else recordLoop curSize rounds (fsize - if fsize ≥ 2 ^ 32 then 0xFFFFF800 else fsize) (s.add curSize)

/-- A round of `fakeiso_calc_dir_size`. -/
def addFile (s : Pages) (f : Node) : Pages :=
  let fsize := if f.size = 0 then 1 else f.size.toNat
  recordLoop (calcFileRecordSize f) fsize fsize s

/-- `fakeiso_calc_dir_size`; the source's sum is this modulo `2 ^ 64`. -/
def calcDirSize (row : List Node) : ℕ :=
  let s := row.foldl addFile ⟨0, 0⟩
  s.size + s.page

/-- The number of blocks that a size takes. -/
def blockNum (size : UInt64) : UInt32 := ((size + 2048 - 1) / 2048).toUInt32

/-! ### The layout -/

/-- The next multiple of 32. -/
def roundUp (cur : UInt32) : UInt32 := (cur + 0x1F) &&& ~~~0x1F

/-- A round of `fakeiso_get_free_block`. -/
def skip (num cur : UInt32) (k : Keepout) : UInt32 :=
  if cur < k.lba + k.len ∧ cur + num > k.lba then roundUp (k.lba + k.len) else cur

/-- `fakeiso_get_free_block`. -/
def getFreeBlock (keepout : List Keepout) (cur num : UInt32) : UInt32 := keepout.foldl (skip num) cur

/-- The blocks of a file, from `first_lba` or the next free one, and where it ends. -/
def settle (keepout : List Keepout) (f : Node) (cur : UInt32) : Node × UInt32 :=
  let num := blockNum f.size
  if f.firstLba = 0 then
    let lba := getFreeBlock keepout cur num
    ({ f with firstLba := lba }, lba + num)
  else if f.firstLba > cur then (f, f.firstLba + num)
  else (f, cur)

/-- `fakeiso_init` for the file itself, and `*cur_block` after it. `row` are the files next to it so far,
`filelist` those below. A `.` or `..` with a parent gets the parent's blocks. -/
def place (p : Param) (parent : Option Node) (row : List Node) (f : Node) (filelist : List Node) (cur : UInt32) :
    Node × UInt32 :=
  let f := { f with volumeSequenceNumber := p.sequenceNumber }
  let cur := roundUp cur
  let r :=
    if f.isDir then
      match f.isDots, parent with
      | true, some d =>
        ({ f with size := if d.isDir then UInt64.ofNat (calcDirSize row) else 0, firstLba := d.firstLba }, cur)
      | _, _ => settle p.keepout { f with size := UInt64.ofNat (calcDirSize filelist) } cur
    else settle p.keepout f cur
  (r.1, roundUp r.2)

/-- `fakeiso_init` for the files of an array; `done` come before. -/
def initFiles (p : Param) (parent : Option Node) (done : List Node) (cur : UInt32) : Files → Files × UInt32
  | .null => (.null, cur)
  | .nil => (.nil, cur)
  | .cons f filelist next =>
    let r := place p parent (done ++ f :: next.row) f filelist.row cur
    let c := initFiles p (some r.1) [] r.2 filelist
    let n := initFiles p parent (done ++ [r.1]) c.2 next
    (.cons r.1 c.1 n.1, n.2)

/-- The call of `callback.init` of a file. -/
def Node.callInit (f : Node) : Option Node :=
  match f.init with
  | none => some f
  | some init => (init f.size).map fun size => { f with size }

/-- `fakeiso_file_init`, for the files of an array. -/
def fileInit : Files → Option Files
  | .null => some .null
  | .nil => some .nil
  | .cons f filelist next => do
    let f ← f.callInit
    let filelist ← fileInit filelist
    let next ← fileInit next
    return .cons f filelist next

/-- The call of `callback.init` of the parameters. -/
def Param.callInit (init : Option (Param → Option Param)) (p : Param) : Option Param :=
  match init with
  | none => some p
  | some init => init p

/-- `fakeiso_drv_init_nb` up to `fakeiso_init`, with the block after the path tables. -/
def prepare (init : Option (Param → Option Param)) (p : Param) : Option (Param × UInt32) := do
  let p ← p.callInit init
  if p.root.name ≠ dotName then none
  else
    let root := { p.root with attr := fileattrDirectory }
    let size := UInt32.ofNat (calcPathTableSize root p.filelist)
    match ← fileInit (.cons root p.filelist .nil) with
    | .cons root filelist _ =>
      some ({ p with root, filelist, pathTableLba := 18, pathTableSize := size, blockNum := 0 },
        18 + 2 * (size + 2048 - 1) / 2048)
    | _ => none

/-- `fakeiso_drv_init_nb`. Every file leaves `*cur_block` in `block_num`. -/
def drvInitNb (init : Option (Param → Option Param)) (p : Param) : Option (Param × Capacity) := do
  let (p, cur) ← prepare init p
  match initFiles p none [] cur (.cons p.root p.filelist .nil) with
  | (.cons root filelist _, cur) =>
    some ({ p with root, filelist, blockNum := cur }, ⟨(cur + 0x20).toUInt64, 2048⟩)
  | _ => none

/-- `fakeiso_get_file_by_lba`, for the files of an array. -/
def getFileByLba (lba : UInt32) : Files → Option Node
  | .null => none
  | .nil => none
  | .cons f filelist next =>
    if f.firstLba ≤ lba ∧ lba < f.firstLba + blockNum f.size then some f
    else
      match getFileByLba lba filelist with
      | some r => some r
      | none => getFileByLba lba next

/-! ### The walk without a bound -/

/-- The number of blocks of a file: its size over the size of a block, rounded up. -/
def blocks (size : ℕ) : ℕ := (size + 2047) / 2048

def roundUpN (cur : ℕ) : ℕ := (cur + 31) / 32 * 32

def Keepout.stop (k : Keepout) : ℕ := k.lba.toNat + k.len.toNat

def skipN (num cur : ℕ) (k : Keepout) : ℕ :=
  if cur < k.stop ∧ cur + num > k.lba.toNat then roundUpN k.stop else cur

def freeN (keepout : List Keepout) (cur num : ℕ) : ℕ := keepout.foldl (skipN num) cur

/-- Where the walk is after a file of `num` blocks. -/
def afterN (keepout : List Keepout) (cur num : ℕ) : ℕ := roundUpN (freeN keepout (roundUpN cur) num + num)

/-- The size that a file gets. -/
def sizeN (f : Node) (filelist : Files) : ℕ := if f.isDir then calcDirSize filelist.row else f.size.toNat

/-- Where the walk is after the files of an array. -/
def walk (keepout : List Keepout) : ℕ → Files → ℕ
  | cur, .null => cur
  | cur, .nil => cur
  | cur, .cons f filelist next =>
    walk keepout
      (walk keepout (if f.isDots then roundUpN cur else afterN keepout cur (blocks (sizeN f filelist))) filelist)
      next

/-- Where the walk is after the whole tree; it starts after the path tables. -/
def volume (p : Param) : ℕ :=
  walk p.keepout
    (afterN p.keepout (18 + 2 * (calcPathTableSize p.root p.filelist + 2047) / 2048)
      (blocks (calcDirSize p.filelist.row)))
    p.filelist

/-! ### Trees as they are given -/

/-- A file or a directory that is not yet laid out. -/
structure Plain (f : Node) : Prop where
  name : f.isDots = false
  lba : f.firstLba = 0

/-- The first two files of a directory. -/
structure Dots (a b : Node) : Prop where
  dot : a.name = dotName
  dotdot : b.name = dotdotName
  dir : a.isDir ∧ b.isDir
  lba : a.firstLba = 0 ∧ b.firstLba = 0

/-- The files of a directory after `.` and `..`, with which every directory begins. -/
inductive Tidy : Files → Prop
  | nil : Tidy .nil
  | file {f : Node} {next : Files} : Plain f → f.isDir = false → Tidy next → Tidy (.cons f .null next)
  | dir {f a b : Node} {rest next : Files} : Plain f → f.isDir = true → Dots a b → Tidy rest → Tidy next →
      Tidy (.cons f (.cons a .null (.cons b .null rest)) next)

/-- The tree of a volume. -/
structure Tree (p : Param) : Prop where
  root : p.root.name = dotName ∧ p.root.isDir ∧ p.root.firstLba = 0
  files : ∃ a b rest, p.filelist = .cons a .null (.cons b .null rest) ∧ Dots a b ∧ Tidy rest

/-! ### Rounding -/

theorem le_roundUpN (cur : ℕ) : cur ≤ roundUpN cur := by
  unfold roundUpN
  omega

theorem roundUpN_idem (cur : ℕ) : roundUpN (roundUpN cur) = roundUpN cur := by
  unfold roundUpN
  omega

theorem and_mask (n : ℕ) (h : n < 2 ^ 32) : n &&& (2 ^ 32 - 1 - 31) = n / 32 * 32 := by
  have hmask : 2 ^ 32 - 1 - 31 = (2 ^ 27 - 1) <<< 5 := by decide
  have hdiv : n / 32 * 32 = (n >>> 5) <<< 5 := by
    rw [Nat.shiftLeft_eq, Nat.shiftRight_eq_div_pow]
  rw [hmask, hdiv]
  apply Nat.eq_of_testBit_eq
  intro i
  rw [Nat.testBit_and, Nat.testBit_shiftLeft, Nat.testBit_shiftLeft, Nat.testBit_shiftRight, Nat.testBit_two_pow_sub_one]
  by_cases hi : 5 ≤ i
  · by_cases hi' : i < 32
    · simp [hi, show i - 5 < 27 by omega]
    · have hbit : n.testBit i = false := Nat.testBit_lt_two_pow (h.trans_le (Nat.pow_le_pow_right (by decide) (by omega)))
      simp [hi, hbit]
  · simp [hi]

theorem roundUp_toNat {cur : UInt32} (h : roundUpN cur.toNat < 2 ^ 32) : (roundUp cur).toNat = roundUpN cur.toNat := by
  unfold roundUpN at h ⊢
  have hadd : (cur + 0x1F).toNat = cur.toNat + 31 := by
    rw [UInt32.toNat_add, show (0x1F : UInt32).toNat = 31 from rfl]
    omega
  rw [roundUp, UInt32.toNat_and, hadd, UInt32.toNat_not, show (0x1F : UInt32).toNat = 31 from rfl]
  exact and_mask (cur.toNat + 31) (by omega)

theorem blockNum_toNat {size : UInt64} (h : blocks size.toNat < 2 ^ 32) : (blockNum size).toNat = blocks size.toNat := by
  unfold blocks at h ⊢
  have hadd : (size + 2048 - 1).toNat = size.toNat + 2047 := by
    rw [UInt64.toNat_sub, UInt64.toNat_add, show (2048 : UInt64).toNat = 2048 from rfl, show (1 : UInt64).toNat = 1 from rfl]
    omega
  rw [blockNum, UInt64.toNat_toUInt32, UInt64.toNat_div, hadd, show (2048 : UInt64).toNat = 2048 from rfl]
  exact Nat.mod_eq_of_lt h

theorem ofNat64_toNat {n : ℕ} (h : blocks n < 2 ^ 32) : (UInt64.ofNat n).toNat = n := by
  unfold blocks at h
  rw [UInt64.toNat_ofNat']
  omega

/-! ### Free blocks -/

section Keepout

variable {keepout : List Keepout} {k j : Keepout} {cur num : ℕ}

theorem le_skipN (num cur : ℕ) (k : Keepout) : cur ≤ skipN num cur k := by
  unfold skipN
  split
  · have := le_roundUpN k.stop
    omega
  · exact le_refl _

theorem le_freeN : ∀ (keepout : List Keepout) (cur num : ℕ), cur ≤ freeN keepout cur num
  | [], _, _ => le_refl _
  | k :: keepout, cur, num => (le_skipN num cur k).trans (le_freeN keepout (skipN num cur k) num)

/-- No block from `cur` to `cur + num` is in the area. -/
def Clear (k : Keepout) (num cur : ℕ) : Prop := k.stop ≤ cur ∨ cur + num ≤ k.lba.toNat

/-- The areas a pass in order keeps out of: who begins earlier ends earlier, up to the rounding, unless the
blocks end before the other begins. -/
def Ordered (stop : ℕ) (keepout : List Keepout) : Prop :=
  keepout.Pairwise fun k j => stop ≤ k.lba.toNat ∨ k.lba.toNat ≤ j.lba.toNat ∨ k.stop ≤ roundUpN j.stop

theorem skipN_clear (num cur : ℕ) (k : Keepout) : Clear k num (skipN num cur k) := by
  unfold Clear skipN
  split
  · exact .inl (le_roundUpN _)
  · omega

/-- To skip an area does not lead into one that comes before it in the order. -/
theorem Clear.skip (hkj : k.lba.toNat ≤ j.lba.toNat ∨ k.stop ≤ roundUpN j.stop) (h : Clear k num cur) :
    Clear k num (skipN num cur j) := by
  unfold Clear skipN at *
  split
  · have := le_roundUpN j.stop
    omega
  · exact h

theorem Clear.free : ∀ (keepout : List Keepout) (cur : ℕ),
    (∀ j ∈ keepout, k.lba.toNat ≤ j.lba.toNat ∨ k.stop ≤ roundUpN j.stop) → Clear k num cur →
      Clear k num (freeN keepout cur num)
  | [], _, _, h => h
  | j :: keepout, cur, hk, h =>
    Clear.free keepout (skipN num cur j) (fun i hi => hk i (mem_cons_of_mem _ hi)) (h.skip (hk j mem_cons_self))

/-- **The blocks found are outside of every area**, if the areas are in order. -/
theorem free_clear {stop : ℕ} : ∀ {keepout : List Keepout}, Ordered stop keepout → ∀ cur, freeN keepout cur num + num ≤ stop →
    ∀ k ∈ keepout, Clear k num (freeN keepout cur num)
  | [], _, _, _, k, hk => absurd hk not_mem_nil
  | j :: keepout, h, cur, hstop, k, hk => by
    obtain ⟨hj, hrest⟩ := pairwise_cons.mp h
    rcases mem_cons.mp hk with rfl | hk
    · by_cases hbehind : stop ≤ k.lba.toNat
      · exact .inr (hstop.trans hbehind)
      · exact Clear.free keepout (skipN num cur k) (fun i hi => (hj i hi).resolve_left hbehind) (skipN_clear num cur k)
    · exact free_clear hrest (skipN num cur j) hstop k hk

/-- The search of the source has no bound, as long as it finds something below `2 ^ 32`. -/
theorem skip_toNat {num cur : UInt32} (h : skipN num.toNat cur.toNat k + num.toNat < 2 ^ 32) :
    (skip num cur k).toNat = skipN num.toNat cur.toNat k := by
  have hle := le_skipN num.toNat cur.toNat k
  have hadd : (cur + num).toNat = cur.toNat + num.toNat := by
    rw [UInt32.toNat_add]
    omega
  have hstop : (k.lba + k.len).toNat = k.stop % 2 ^ 32 := UInt32.toNat_add _ _
  unfold skip
  unfold skipN at h ⊢
  simp only [UInt32.lt_iff_toNat_lt, gt_iff_lt, hadd, hstop]
  by_cases hhit : cur.toNat < k.stop ∧ k.lba.toNat < cur.toNat + num.toNat
  · rw [if_pos hhit] at h ⊢
    have hround := le_roundUpN k.stop
    have hmod : k.stop % 2 ^ 32 = k.stop := Nat.mod_eq_of_lt (by omega)
    rw [if_pos ⟨by omega, hhit.2⟩, roundUp_toNat, hstop, hmod]
    rw [hstop, hmod]
    omega
  · rw [if_neg hhit, if_neg]
    rintro ⟨h1, h2⟩
    omega

theorem getFreeBlock_toNat : ∀ (keepout : List Keepout) (cur num : UInt32),
    freeN keepout cur.toNat num.toNat + num.toNat < 2 ^ 32 →
      (getFreeBlock keepout cur num).toNat = freeN keepout cur.toNat num.toNat
  | [], _, _, _ => rfl
  | k :: keepout, cur, num, h => by
    have hle := le_freeN keepout (skipN num.toNat cur.toNat k) num.toNat
    have hlt : freeN keepout (skipN num.toNat cur.toNat k) num.toNat + num.toNat < 2 ^ 32 := h
    have hk : (skip num cur k).toNat = skipN num.toNat cur.toNat k := skip_toNat (by omega)
    have hrec := getFreeBlock_toNat keepout (skip num cur k) num (by rw [hk]; exact hlt)
    rw [hk] at hrec
    exact hrec

theorem le_afterN (keepout : List Keepout) (cur num : ℕ) : cur ≤ afterN keepout cur num := by
  have h1 := le_roundUpN cur
  have h2 := le_freeN keepout (roundUpN cur) num
  have h3 := le_roundUpN (freeN keepout (roundUpN cur) num + num)
  unfold afterN
  omega

theorem num_le_afterN (keepout : List Keepout) (cur num : ℕ) : num ≤ afterN keepout cur num := by
  have h := le_roundUpN (freeN keepout (roundUpN cur) num + num)
  unfold afterN
  omega

theorem le_walk (keepout : List Keepout) : ∀ (fs : Files) (cur : ℕ), cur ≤ walk keepout cur fs
  | .null, _ => le_refl _
  | .nil, _ => le_refl _
  | .cons f filelist next, cur => by
    have h1 : cur ≤ if f.isDots then roundUpN cur else afterN keepout cur (blocks (sizeN f filelist)) := by
      split
      · exact le_roundUpN cur
      · exact le_afterN _ _ _
    exact h1.trans ((le_walk keepout filelist _).trans (le_walk keepout next _))

end Keepout

/-! ### The size of a directory -/

section DirSize

variable {s : Pages} {f g : Node} {row : List Node}

theorem calcFileRecordSize_pos (f : Node) : 0 < calcFileRecordSize f := by
  show 0 < (33 + min _ (0xFE - 33) + 1) / 2 * 2
  omega

theorem Pages.add_pos {curSize : ℕ} (s : Pages) (h : 0 < curSize) : 0 < (s.add curSize).page := by
  unfold Pages.add
  split
  · exact h
  · exact Nat.add_pos_right _ h

theorem recordLoop_pos {curSize : ℕ} (h : 0 < curSize) : ∀ (rounds fsize : ℕ) {s : Pages},
    0 < s.page → 0 < (recordLoop curSize rounds fsize s).page
  | 0, _, _, hs => hs
  | rounds + 1, fsize, s, hs => by
    unfold recordLoop
    split
    · exact hs
    · exact recordLoop_pos h rounds _ (s.add_pos h)

theorem addFile_pos (s : Pages) (f : Node) : 0 < (addFile s f).page := by
  have hrec := calcFileRecordSize_pos f
  have hsize : ∃ n, (if f.size = 0 then 1 else f.size.toNat) = n + 1 := by
    apply Nat.exists_eq_succ_of_ne_zero
    split
    · decide
    · rename_i h
      rwa [ne_eq, ← UInt64.toNat_zero, UInt64.toNat_inj]
  obtain ⟨n, hn⟩ := hsize
  simp only [addFile, hn, recordLoop, Nat.add_eq_zero_iff, one_ne_zero, and_false, if_false]
  exact recordLoop_pos hrec n _ (s.add_pos hrec)

theorem foldl_addFile_pos : ∀ (row : List Node) (s : Pages), 0 < s.page → 0 < (row.foldl addFile s).page
  | [], _, hs => hs
  | f :: row, s, _ => foldl_addFile_pos row (addFile s f) (addFile_pos s f)

theorem dirSize_pos (f : Node) (row : List Node) : 0 < calcDirSize (f :: row) :=
  Nat.add_pos_right _ (foldl_addFile_pos row _ (addFile_pos ⟨0, 0⟩ f))

theorem addFile_small (h : f.size.toNat < 2 ^ 32) (s : Pages) : addFile s f = s.add (calcFileRecordSize f) := by
  have hdone : ∀ rounds s, recordLoop (calcFileRecordSize f) rounds 0 s = s := by
    intro rounds s
    cases rounds <;> rfl
  unfold addFile
  by_cases h0 : f.size = 0
  · rw [if_pos h0]
    rfl
  · rw [if_neg h0]
    have hpos : f.size.toNat ≠ 0 := by rwa [ne_eq, ← UInt64.toNat_zero, UInt64.toNat_inj]
    obtain ⟨n, hn⟩ := Nat.exists_eq_succ_of_ne_zero hpos
    rw [hn] at h ⊢
    rw [recordLoop, if_neg (Nat.succ_ne_zero n), if_neg (by omega), Nat.sub_self, hdone]

theorem dirSize_congr (hname : g.name = f.name) (hattr : g.attr = f.attr) (hf : f.size.toNat < 2 ^ 32)
    (hg : g.size.toNat < 2 ^ 32) : calcDirSize (g :: row) = calcDirSize (f :: row) := by
  have hdots : g.isDots = f.isDots := by rw [Node.isDots, hname, Node.isDots]
  have hdir : g.isDir = f.isDir := by rw [Node.isDir, hattr, Node.isDir]
  have hrec : calcFileRecordSize g = calcFileRecordSize f := by
    simp only [calcFileRecordSize, hdots, hdir, hname]
  simp only [calcDirSize, foldl_cons, addFile_small hf, addFile_small hg, hrec]

end DirSize

end FakeIso
end Vsf
