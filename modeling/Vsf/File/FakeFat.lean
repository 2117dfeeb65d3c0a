/-
# A FAT32 volume that is never stored: where its files are

`fakefat32_init` walks a tree of files once and gives each file and directory the next clusters;
`fakefat32_get_file_by_cluster` walks it again for each cluster that is read. A tree is the arrays
of files of the source. The ranges of clusters follow each other in the order of the walk
(`Laid.pairwise`), and the search finds every owner (`Laid.find`).
-/
import Mathlib
import Vsf.File.Name
import Vsf.Lib.LittleEndian

namespace Vsf
namespace FakeFat

open File List

/-! ### The tree -/

/-- The times and the first cluster of a directory entry. -/
structure Record where
  crtTimeTenth : UInt8
  crtTime : UInt16
  crtData : UInt16
  lstAccData : UInt16
  fstClusHI : UInt16
  wrtTime : UInt16
  wrtData : UInt16
  fstClusLO : UInt16
deriving DecidableEq, Inhabited

/-- `cb.read` and `cb.write` of a file: those of a directory, or a user's, if any. A user's `read` leaves
what the buffer is then. -/
inductive Cb
  | dir
  | user (read : Option (UInt32 → List UInt8 → File.Err × List UInt8)) (write : Option (UInt32 → List UInt8 → File.Err))

/-- `struct fakefat32_file_t`, without the links. `buff` is that of a file. -/
structure Node where
  name : List UInt8
  size : UInt64
  attr : UInt8
  buff : Option (List UInt8)
  cb : Cb
  firstCluster : UInt32
  record : Record

def Node.isDir (f : Node) : Bool := f.attr &&& attrDirectory ≠ 0

/-- An array of files up to the one without a name; no `child` is `NULL`. -/
inductive Files
  | nil
  | cons (f : Node) (child next : Files)

/-- The files of the array and below, in the order of a walk. -/
def Files.nodes : Files → List Node
  | nil => []
  | cons f child next => f :: ((if f.isDir then child.nodes else []) ++ next.nodes)

/-- `struct fakefat32_param_t`, with the array `fakefat32_mbr`. -/
structure Param where
  sectorSize : UInt16
  sectorNumber : UInt32
  sectorsPerCluster : UInt8
  volumeId : UInt32
  diskId : UInt32
  root : Node
  child : Files
  ready : Bool
  mbr : List UInt8

def Param.tree (p : Param) : Files := .cons p.root p.child .nil

/-- `"."`. -/
def dotName : List UInt8 := [dot]

/-- `".."`. -/
def dotdotName : List UInt8 := [dot, dot]

variable (p : Param)

/-- `FAT32_ROOT_CLUSTER`. -/
def rootCluster : UInt32 := LE.get32 p.mbr 0x2C

def clusterSize : UInt32 := p.sectorSize.toUInt32 * p.sectorsPerCluster.toUInt32

/-- The number of clusters of a file of the size it has. -/
def fileClusters (f : Node) : UInt32 :=
  ((f.size + (clusterSize p).toUInt64 - 1) / (clusterSize p).toUInt64).toUInt32

/-! ### The layout -/

/-- `fakefat32_calc_longname_len`. -/
def calcLongnameLen (f : Node) : UInt32 := UInt32.ofNat f.name.length

/-- The loop of `fakefat32_calc_dir_clusters`. -/
def calcDirSize : Files → UInt32
  | .nil => 0
  | .cons f _ next =>
    (if f.attr ≠ attrVolumid ∧ isLFN f.name then 0x20 * ((calcLongnameLen f + 12) / 13) else 0) + 0x20 + calcDirSize next

/-- `fakefat32_calc_dir_clusters`. -/
def calcDirClusters (f : Node) (child : Files) : UInt32 :=
  match child with
  | .nil => 0
  | child => if f.isDir then (calcDirSize child + clusterSize p - 1) / clusterSize p else 0

/-- `fakefat32_init_recursion` for the file itself: the file, and how many clusters it gets. -/
def place (parent : Option Node) (f : Node) (child : Files) : Node × UInt32 :=
  if f.isDir then
    let r : Node × UInt32 :=
      if f.name = dotName then ({ f with firstCluster := (parent.map Node.firstCluster).getD f.firstCluster }, 0)
      else if f.name = dotdotName then (f, 0)
      else
        let clusters := calcDirClusters p f child
        ({ f with size := (clusters * clusterSize p).toUInt64 }, clusters)
    ({ r.1 with cb := .dir }, r.2)
  else if f.attr = attrVolumid then (f, 0)
  else (f, fileClusters p f)

/-- The clusters of a file are the next ones. -/
def allot (f : Node) (clusters cur : UInt32) : Node :=
  if clusters ≠ 0 then { f with
    firstCluster := cur
    record := { f.record with fstClusHI := (cur >>> 16).toUInt16, fstClusLO := cur.toUInt16 } }
  else f

/-- `fakefat32_init_recursion` for an array; `cur` is `*cur_cluster`. -/
def initFiles (parent : Option Node) (cur : UInt32) : Files → Files × UInt32
  | .nil => (.nil, cur)
  | .cons f child next =>
    let r := place p parent f child
    let f := allot r.1 r.2 cur
    let c := if f.isDir then initFiles (some f) (cur + r.2) child else (child, cur + r.2)
    let n := initFiles parent c.2 next
    (.cons f c.1 n.1, n.2)

/-- `fakefat32_init`. -/
def init : Param :=
  if p.ready then p
  else
    let root := { p.root with attr := attrDirectory }
    match initFiles p none (rootCluster p) (.cons root p.child .nil) with
    | (.cons root child _, _) => { p with root, child, ready := true }
    | (.nil, _) => p

/-- What `fakefat32_get_file_by_cluster` finds: a file, its children, and the directories above. -/
structure Owner where
  file : Node
  child : Files
  up : List Node

/-- `fakefat32_get_file_by_cluster`, for the files of an array. -/
def getFileByCluster (cluster : UInt32) (up : List Node) : Files → Option Owner
  | .nil => none
  | .cons f child next =>
    if f.firstCluster ≤ cluster ∧ cluster < f.firstCluster + fileClusters p f then some ⟨f, child, up⟩
    else
      match if f.isDir then getFileByCluster cluster (f :: up) child else none with
      | some r => some r
      | none => getFileByCluster cluster up next

/-! ### Ranges that follow each other -/

/-- The files have the clusters from `a` to `b`, in the order of the walk. -/
def Laid : ℕ → Files → ℕ → Prop
  | a, .nil, b => b = a
  | a, .cons f child next, b =>
    (fileClusters p f ≠ 0 → f.firstCluster.toNat = a) ∧
      ∃ m, (if f.isDir then Laid (a + (fileClusters p f).toNat) child m else m = a + (fileClusters p f).toNat) ∧
        Laid m next b

/-- The clusters a file has: from its first one on, as many as its size takes. -/
def Has (f : Node) (c : ℕ) : Prop :=
  f.firstCluster.toNat ≤ c ∧ c < f.firstCluster.toNat + (fileClusters p f).toNat

variable {p}
variable {fs child next : Files} {f : Node} {a b c : ℕ} {up : List Node}

theorem Laid.congr {q : Param} (hq : clusterSize q = clusterSize p) : ∀ {fs : Files} {a b : ℕ}, Laid p a fs b → Laid q a fs b
  | .nil, _, _, h => h
  | .cons f child next, a, b, ⟨hf, m, hc, hn⟩ => by
    have hcl : fileClusters q f = fileClusters p f := by
      rw [fileClusters, hq, fileClusters]
    refine ⟨hcl ▸ hf, m, ?_, hn.congr hq⟩
    rw [hcl]
    split_ifs at hc ⊢
    · exact hc.congr hq
    · exact hc

theorem has_iff (h : fileClusters p f ≠ 0 → f.firstCluster.toNat = a) :
    Has p f c ↔ a ≤ c ∧ c < a + (fileClusters p f).toNat := by
  unfold Has
  by_cases h0 : fileClusters p f = 0
  · simp only [h0, UInt32.toNat_zero]
    omega
  · rw [h h0]

theorem Laid.le : ∀ {fs : Files} {a b : ℕ}, Laid p a fs b → a ≤ b
  | .nil, a, b, h => by
    obtain rfl : b = a := h
    exact le_refl _
  | .cons f child next, a, b, ⟨_, m, hc, hn⟩ => by
    have hm : a ≤ m := by
      split_ifs at hc
      · have := hc.le
        omega
      · omega
    exact hm.trans hn.le

theorem Laid.child_le {m n : ℕ} (hc : if f.isDir then Laid p (a + n) child m else m = a + n) : a + n ≤ m := by
  split_ifs at hc
  · exact hc.le
  · omega

theorem Laid.mem_range : ∀ {fs : Files} {a b : ℕ}, Laid p a fs b → ∀ f ∈ fs.nodes, ∀ c, Has p f c → a ≤ c ∧ c < b
  | .nil, _, _, _, _, hf, _, _ => absurd hf not_mem_nil
  | .cons g child next, a, b, ⟨hg, m, hc, hn⟩, f, hf, c, hhas => by
    have hle := hn.le
    have hmid := Laid.child_le hc
    rcases mem_cons.mp hf with rfl | hf
    · have := (has_iff hg).mp hhas
      omega
    · rcases mem_append.mp hf with hf | hf
      · split_ifs at hc hf with hd
        · have := hc.mem_range f hf c hhas
          omega
        · exact absurd hf not_mem_nil
      · have := hn.mem_range f hf c hhas
        omega

theorem Laid.covered : ∀ {fs : Files} {a b : ℕ}, Laid p a fs b → ∀ c, a ≤ c → c < b → ∃ f ∈ fs.nodes, Has p f c
  | .nil, a, b, h, c, hlo, hhi => by
    obtain rfl : b = a := h
    omega
  | .cons g child next, a, b, ⟨hg, m, hc, hn⟩, c, hlo, hhi => by
    by_cases h1 : c < a + (fileClusters p g).toNat
    · exact ⟨g, mem_cons_self, (has_iff hg).mpr ⟨hlo, h1⟩⟩
    by_cases h2 : c < m
    · split_ifs at hc with hd
      · obtain ⟨f, hf, hhas⟩ := hc.covered c (not_lt.mp h1) h2
        refine ⟨f, mem_cons_of_mem _ (mem_append_left _ ?_), hhas⟩
        rwa [if_pos hd]
      · omega
    · obtain ⟨f, hf, hhas⟩ := hn.covered c (not_lt.mp h2) hhi
      exact ⟨f, mem_cons_of_mem _ (mem_append_right _ hf), hhas⟩

theorem Laid.child_range {m n : ℕ} (hc : if f.isDir then Laid p (a + n) child m else m = a + n) {g : Node}
    (hg : g ∈ if f.isDir then child.nodes else []) {d : ℕ} (hd : Has p g d) : a + n ≤ d ∧ d < m := by
  split_ifs at hc hg
  · exact hc.mem_range g hg d hd
  · exact absurd hg not_mem_nil

/-- **The ranges do not overlap**: the earlier of two files has the lower clusters. -/
theorem Laid.pairwise : ∀ {fs : Files} {a b : ℕ}, Laid p a fs b →
    fs.nodes.Pairwise fun f g => ∀ c d, Has p f c → Has p g d → c < d
  | .nil, _, _, _ => List.Pairwise.nil
  | .cons f child next, a, b, ⟨hf, m, hc, hn⟩ => by
    have hmid := Laid.child_le hc
    refine List.Pairwise.cons ?_ (pairwise_append.mpr ⟨?_, hn.pairwise, ?_⟩)
    · intro g hg c d hfc hgd
      have h1 := (has_iff hf).mp hfc
      rcases mem_append.mp hg with hg | hg
      · have := Laid.child_range hc hg hgd
        omega
      · have := hn.mem_range g hg d hgd
        omega
    · split_ifs at hc ⊢
      · exact hc.pairwise
      · exact List.Pairwise.nil
    · intro g hg k hk c d hgc hkd
      have h1 := Laid.child_range hc hg hgc
      have h2 := hn.mem_range k hk d hkd
      omega

theorem Laid.unique (h : Laid p a fs b) {g : Node} (hf : f ∈ fs.nodes) (hg : g ∈ fs.nodes) (hfc : Has p f c) (hgc : Has p g c) :
    f = g := by
  obtain ⟨i, hi, rfl⟩ := getElem_of_mem hf
  obtain ⟨j, hj, rfl⟩ := getElem_of_mem hg
  have hlt := pairwise_iff_getElem.mp h.pairwise
  rcases lt_trichotomy i j with hij | rfl | hij
  · exact absurd (hlt i j hi hj hij c c hfc hgc) (lt_irrefl c)
  · rfl
  · exact absurd (hlt j i hj hi hij c c hgc hfc) (lt_irrefl c)

/-! ### The search -/

/-- The test of the search is the range, as long as no cluster number is too big. -/
theorem has_test (h : fileClusters p f ≠ 0 → f.firstCluster.toNat = a) (hb : a + (fileClusters p f).toNat < 2 ^ 32) (c : UInt32) :
    f.firstCluster ≤ c ∧ c < f.firstCluster + fileClusters p f ↔ Has p f c.toNat := by
  unfold Has
  rw [UInt32.le_iff_toNat_le, UInt32.lt_iff_toNat_lt, UInt32.toNat_add]
  by_cases h0 : fileClusters p f = 0
  · have := f.firstCluster.toNat_lt
    simp only [h0, UInt32.toNat_zero]
    omega
  · rw [h h0, Nat.mod_eq_of_lt hb]

/-- **The search finds the owner of a cluster**, if it has one. -/
theorem Laid.find (c : UInt32) : ∀ {fs : Files} {a b : ℕ} (up : List Node), Laid p a fs b → b < 2 ^ 32 →
    (∃ o, getFileByCluster p c up fs = some o ∧ o.file ∈ fs.nodes ∧ Has p o.file c.toNat) ∨
      getFileByCluster p c up fs = none ∧ ∀ f ∈ fs.nodes, ¬ Has p f c.toNat
  | .nil, _, _, _, _, _ => .inr ⟨rfl, fun _ hf => absurd hf not_mem_nil⟩
  | .cons f child next, a, b, up, ⟨hf, m, hc, hn⟩, hb => by
    have hmid := Laid.child_le hc
    have hle := hn.le
    have htest := has_test hf (by omega) c
    have hnode : (Files.cons f child next).nodes = f :: ((if f.isDir then child.nodes else []) ++ next.nodes) := rfl
    unfold getFileByCluster
    rw [hnode]
    by_cases hself : Has p f c.toNat
    · rw [if_pos (htest.mpr hself)]
      exact .inl ⟨_, rfl, mem_cons_self, hself⟩
    rw [if_neg fun ht => hself (htest.mp ht)]
    have hbelow : (∃ o, (if f.isDir then getFileByCluster p c (f :: up) child else none) = some o ∧
        (o.file ∈ if f.isDir then child.nodes else []) ∧ Has p o.file c.toNat) ∨
        (if f.isDir then getFileByCluster p c (f :: up) child else none) = none ∧
          ∀ g ∈ (if f.isDir then child.nodes else []), ¬ Has p g c.toNat := by
      split_ifs at hc ⊢
      · exact hc.find c (f :: up) (by omega)
      · exact .inr ⟨rfl, fun _ hg => absurd hg not_mem_nil⟩
    rcases hbelow with ⟨o, ho, hmem, hhas⟩ | ⟨hnone, hno⟩
    · rw [ho]
      exact .inl ⟨o, rfl, mem_cons_of_mem _ (mem_append_left _ hmem), hhas⟩
    · rw [hnone]
      rcases hn.find c up hb with ⟨o, ho, hmem, hhas⟩ | ⟨hnone', hno'⟩
      · exact .inl ⟨o, ho, mem_cons_of_mem _ (mem_append_right _ hmem), hhas⟩
      · refine .inr ⟨hnone', fun g hg => ?_⟩
        rcases mem_cons.mp hg with rfl | hg
        · exact hself
        · exact (mem_append.mp hg).elim (hno g) (hno' g)

/-! ### What `fakefat32_init` makes -/

variable (p) in
/-- The clusters that the size of a file takes. -/
def sizeClusters (f : Node) : ℕ := (f.size.toNat + (clusterSize p).toNat - 1) / (clusterSize p).toNat

variable (p) in
/-- The clusters a file needs, for its entries or its size; `.`, `..` and a label need none. -/
def nodeClusters (f : Node) (child : Files) : ℕ :=
  if f.isDir then (if f.name = dotName ∨ f.name = dotdotName then 0 else (calcDirClusters p f child).toNat)
  else if f.attr = attrVolumid then 0
  else sizeClusters p f

variable (p) in
/-- The clusters all files of an array need, with those below. -/
def need : Files → ℕ
  | .nil => 0
  | .cons f child next => nodeClusters p f child + (if f.isDir then need child else 0) + need next

/-- `.`, `..` and volume labels have no size. -/
def Tidy : Files → Prop
  | .nil => True
  | .cons f child next =>
    ((f.isDir ∧ (f.name = dotName ∨ f.name = dotdotName) ∨ f.attr = attrVolumid) → f.size = 0) ∧
      (f.isDir → Tidy child) ∧ Tidy next

theorem fileClusters_of_lt (hcs : 0 < (clusterSize p).toNat) (h : sizeClusters p f < 2 ^ 32) :
    (fileClusters p f).toNat = sizeClusters p f := by
  unfold sizeClusters at h ⊢
  have hcs32 := (clusterSize p).toNat_lt
  have hsum := Nat.lt_mul_of_div_lt h hcs
  have hadd : (f.size + (clusterSize p).toUInt64 - 1).toNat = f.size.toNat + (clusterSize p).toNat - 1 := by
    rw [UInt64.toNat_sub, UInt64.toNat_add, UInt32.toNat_toUInt64, UInt64.toNat_one]
    omega
  unfold fileClusters
  rw [UInt64.toNat_toUInt32, UInt64.toNat_div, hadd, UInt32.toNat_toUInt64]
  exact Nat.mod_eq_of_lt h

theorem sizeClusters_mul {n : UInt32} (hcs : 0 < (clusterSize p).toNat) (hn : n.toNat * (clusterSize p).toNat < 2 ^ 32)
    (hs : f.size = (n * clusterSize p).toUInt64) : sizeClusters p f = n.toNat := by
  have hsize : f.size.toNat = n.toNat * (clusterSize p).toNat := by
    rw [hs, UInt32.toNat_toUInt64, UInt32.toNat_mul, Nat.mod_eq_of_lt hn]
  rw [sizeClusters, hsize, Nat.div_eq_iff hcs]
  constructor <;> omega

theorem sizeClusters_zero (hcs : 0 < (clusterSize p).toNat) (h : f.size = 0) : sizeClusters p f = 0 := by
  rw [sizeClusters, h, UInt64.toNat_zero]
  exact Nat.div_eq_of_lt (by omega)

theorem calcDirClusters_mul_lt (f : Node) (child : Files) :
    (calcDirClusters p f child).toNat * (clusterSize p).toNat < 2 ^ 32 := by
  have hdiv : ∀ v : UInt32, (v / clusterSize p).toNat * (clusterSize p).toNat < 2 ^ 32 := by
    intro v
    rw [UInt32.toNat_div]
    have := Nat.div_mul_le_self v.toNat (clusterSize p).toNat
    have := v.toNat_lt
    omega
  unfold calcDirClusters
  split
  · simp
  · split_ifs
    · exact hdiv _
    · simp

theorem isDir_place (parent : Option Node) (f : Node) (child : Files) (cur : UInt32) :
    (allot (place p parent f child).1 (place p parent f child).2 cur).isDir = f.isDir := by
  unfold allot place Node.isDir
  split_ifs <;> rfl

theorem size_allot (g : Node) (n cur : UInt32) :
    (allot g n cur).size = g.size ∧ (n ≠ 0 → (allot g n cur).firstCluster = cur) := by
  unfold allot
  split_ifs with h0
  · exact ⟨rfl, fun _ => rfl⟩
  · exact ⟨rfl, fun h => absurd h h0⟩

/-- **A file gets what it needs**. -/
theorem place_spec (parent : Option Node) (child : Files) (hcs : 0 < (clusterSize p).toNat)
    (ht : (f.isDir ∧ (f.name = dotName ∨ f.name = dotdotName) ∨ f.attr = attrVolumid) → f.size = 0)
    (hn : nodeClusters p f child < 2 ^ 32) :
    (place p parent f child).2.toNat = nodeClusters p f child ∧
      sizeClusters p (place p parent f child).1 = nodeClusters p f child := by
  unfold nodeClusters at hn ⊢
  by_cases hd : f.isDir
  · by_cases hdot : f.name = dotName
    · have hz : sizeClusters p f = 0 := sizeClusters_zero hcs (ht (.inl ⟨hd, .inl hdot⟩))
      simp only [place, hd, hdot, if_true, true_or, UInt32.toNat_zero, true_and]
      exact hz
    by_cases hdd : f.name = dotdotName
    · have hz : sizeClusters p f = 0 := sizeClusters_zero hcs (ht (.inl ⟨hd, .inr hdd⟩))
      simp only [place, hd, hdd, if_true, or_true]
      rw [if_neg (by decide)]
      exact ⟨rfl, hz⟩
    · simp only [place, hd, hdot, hdd, if_true, if_false, or_self, true_and]
      exact sizeClusters_mul hcs (calcDirClusters_mul_lt f child) rfl
  · by_cases hv : f.attr = attrVolumid
    · have hz : sizeClusters p f = 0 := sizeClusters_zero hcs (ht (.inr hv))
      simp only [place, hd, hv, if_true]
      exact ⟨rfl, hz⟩
    · rw [if_neg hd, if_neg hv] at hn ⊢
      have hplace : place p parent f child = (f, fileClusters p f) := by
        unfold place
        rw [if_neg hd, if_neg hv]
      rw [hplace]
      exact ⟨fileClusters_of_lt hcs hn, rfl⟩

theorem initNode_spec (parent : Option Node) (child : Files) (cur : UInt32) (hcs : 0 < (clusterSize p).toNat)
    (ht : (f.isDir ∧ (f.name = dotName ∨ f.name = dotdotName) ∨ f.attr = attrVolumid) → f.size = 0)
    (hn : nodeClusters p f child < 2 ^ 32) {g : Node}
    (hg : allot (place p parent f child).1 (place p parent f child).2 cur = g) :
    g.isDir = f.isDir ∧ sizeClusters p g = nodeClusters p f child ∧ (fileClusters p g).toNat = nodeClusters p f child ∧
      (fileClusters p g ≠ 0 → g.firstCluster.toNat = cur.toNat) := by
  obtain ⟨hcount, hsize⟩ := place_spec (p := p) (f := f) parent child hcs ht hn
  obtain ⟨hsame, hfirst⟩ := size_allot (place p parent f child).1 (place p parent f child).2 cur
  have hdir := isDir_place (p := p) parent f child cur
  rw [hg] at hsame hfirst hdir
  have hg' : sizeClusters p g = nodeClusters p f child := by
    rw [← hsize, sizeClusters, sizeClusters, hsame]
  have hclusters := fileClusters_of_lt (p := p) hcs (hg'.symm ▸ hn)
  rw [hg'] at hclusters
  refine ⟨hdir, hg', hclusters, fun h0 => ?_⟩
  have heq : fileClusters p g = (place p parent f child).2 := UInt32.toNat_inj.mp (hclusters.trans hcount.symm)
  rw [hfirst (heq ▸ h0)]

/-- The clusters of a file and of those below it are the next ones. -/
theorem initFiles_laid (hcs : 0 < (clusterSize p).toNat) : ∀ (fs : Files) (parent : Option Node) (cur : UInt32), Tidy fs →
    cur.toNat + need p fs < 2 ^ 32 →
    Laid p cur.toNat (initFiles p parent cur fs).1 (cur.toNat + need p fs) ∧
      (initFiles p parent cur fs).2.toNat = cur.toNat + need p fs ∧
      ∀ f ∈ (initFiles p parent cur fs).1.nodes, (fileClusters p f).toNat = sizeClusters p f
  | .nil, _, _, _, _ => ⟨rfl, rfl, fun _ hf => absurd hf not_mem_nil⟩
  | .cons f child next, parent, cur, ⟨ht, htc, htn⟩, hb => by
    have hneed : need p (.cons f child next) =
        nodeClusters p f child + (if f.isDir then need p child else 0) + need p next := rfl
    rw [hneed] at hb
    obtain ⟨hcount, _⟩ := place_spec (p := p) (f := f) parent child hcs ht (by omega)
    have hstart : (cur + (place p parent f child).2).toNat = cur.toNat + nodeClusters p f child := by
      rw [UInt32.toNat_add, hcount]
      exact Nat.mod_eq_of_lt (by omega)
    rw [hneed]
    unfold initFiles
    dsimp only
    generalize hg : allot (place p parent f child).1 (place p parent f child).2 cur = g
    obtain ⟨hdir, hsize, hclusters, hown⟩ := initNode_spec parent child cur hcs ht (by omega) hg
    have hself : (fileClusters p g).toNat = sizeClusters p g := hclusters.trans hsize.symm
    by_cases hd : f.isDir
    · simp only [hd, if_true] at hdir hb ⊢
      obtain ⟨hcl, hcn, hcs'⟩ := initFiles_laid hcs child (some g) (cur + (place p parent f child).2) (htc hd) (by omega)
      obtain ⟨hnl, hnn, hns⟩ := initFiles_laid hcs next parent
        (initFiles p (some g) (cur + (place p parent f child).2) child).2 htn (by omega)
      simp only [hdir, if_true]
      refine ⟨⟨hown, cur.toNat + nodeClusters p f child + need p child, ?_, ?_⟩, by omega, ?_⟩
      · rw [hdir, if_pos rfl, hclusters, ← hstart]
        exact hcl
      · rw [hcn, hstart] at hnl
        convert hnl using 1
        omega
      · intro h hh
        rw [Files.nodes, hdir, if_pos rfl] at hh
        rcases mem_cons.mp hh with rfl | hh
        · exact hself
        · exact (mem_append.mp hh).elim (hcs' h) (hns h)
    · simp only [hd, Bool.false_eq_true, if_false] at hdir hb ⊢
      obtain ⟨hnl, hnn, hns⟩ := initFiles_laid hcs next parent (cur + (place p parent f child).2) htn (by omega)
      simp only [hdir, Bool.false_eq_true, if_false]
      refine ⟨⟨hown, cur.toNat + nodeClusters p f child, ?_, ?_⟩, by omega, ?_⟩
      · rw [hdir, if_neg Bool.false_ne_true, hclusters]
      · rw [hstart] at hnl
        convert hnl using 1
        omega
      · intro h hh
        rw [Files.nodes, hdir, if_neg Bool.false_ne_true, nil_append] at hh
        rcases mem_cons.mp hh with rfl | hh
        · exact hself
        · exact hns h hh

/-- What a file is apart from its place; the size of a directory is only that. -/
def Node.body (f : Node) : List UInt8 × UInt8 × Option (List UInt8) × UInt64 :=
  (f.name, f.attr, f.buff, if f.isDir then 0 else f.size)

theorem body_initNode (parent : Option Node) (f : Node) (child : Files) (cur : UInt32) :
    (allot (place p parent f child).1 (place p parent f child).2 cur).body = f.body := by
  have hallot : ∀ (g : Node) (n : UInt32), (allot g n cur).body = g.body := by
    intro g n
    unfold allot
    split_ifs <;> rfl
  rw [hallot]
  by_cases hd : f.isDir
  · have hdir : (place p parent f child).1.isDir = true := by
      rw [← hd, ← isDir_place (p := p) parent f child cur]
      unfold allot
      split_ifs <;> rfl
    simp only [Node.body, hd, hdir, if_true]
    unfold place
    rw [if_pos hd]
    split_ifs <;> rfl
  · unfold place
    rw [if_neg hd]
    split_ifs <;> rfl

theorem initFiles_body : ∀ (fs : Files) (parent : Option Node) (cur : UInt32),
    (initFiles p parent cur fs).1.nodes.map Node.body = fs.nodes.map Node.body
  | .nil, _, _ => rfl
  | .cons f child next, parent, cur => by
    unfold initFiles
    dsimp only
    have hdir := isDir_place (p := p) parent f child cur
    have hbody := body_initNode (p := p) parent f child cur
    generalize allot (place p parent f child).1 (place p parent f child).2 cur = g at hdir hbody ⊢
    have hnext := initFiles_body next parent
    unfold Files.nodes
    by_cases hd : f.isDir
    · simp only [hdir, hd, if_true, map_cons, map_append, hbody, initFiles_body child, hnext]
    · simp only [hdir, hd, Bool.false_eq_true, if_false, map_cons, nil_append, hbody, hnext]

variable (p) in
/-- The tree as `fakefat32_init` walks it: the root is a directory. -/
def Param.start : Files := .cons { p.root with attr := attrDirectory } p.child .nil

theorem init_eq (h : p.ready = false) : (init p).tree = (initFiles p none (rootCluster p) p.start).1 ∧
    ∃ root child, init p = { p with root := root, child := child, ready := true } := by
  unfold init
  rw [h, if_neg Bool.false_ne_true]
  exact ⟨rfl, _, _, rfl⟩

end FakeFat
end Vsf
