/-
# A FAT32 volume that is never stored: a directory is written back

A sector that is written back is harmless if each entry that the parser comes upon says what its
file is. In a sector of short entries each file gets its own (`dirWrite_parsed`), and this is exact
(`writeBack_harmless`). A first cluster from 65536 on is cut. Behind a label or a long name the
parser is between two entries, and what it comes upon there is no file's.
-/
import Mathlib
import Vsf.File.FakeFatEntries

namespace Vsf
namespace FakeFat

open File ByteMem List Option

variable {m : Mal} {o : Owner} {p : Param} {f g : Node} {buff : List UInt8}

/-! ### The entries are written back -/

/-- The first file with the name of `f` gets the entry of `f`. -/
def enter (f : Node) : Files → Files
  | .nil => .nil
  | .cons g child next => if g.name = f.name then .cons (g.fromEntry (shortEntry f)) child next else .cons g child (enter f next)

theorem dirWriteLoop_eq : ∀ (n : ℕ) (d : Dparser) (files : Files), dirWriteLoop n d files =
    (parseAll n d).foldl (fun files d => writeMatch d.mem d.filename (entryBytes d.mem d.entry) files) files
  | 0, _, _ => rfl
  | n + 1, d, files => by
    rw [dirWriteLoop, parseAll]
    split_ifs
    · rfl
    · dsimp only
      split_ifs
      · rw [foldl_cons, dirWriteLoop_eq n]
      · rfl

theorem strcmpEq_iff {mem : Mem} : ∀ {s t : List UInt8} {a : ℕ}, 0 ∉ s → 0 ∉ t → Holds mem a (t ++ [0]) → (strcmpEq mem s a = true ↔ s = t)
  | [], [], a, _, _, h => by
    have h0 := (holds_cons.mp h).1
    simp [strcmpEq, h0]
  | [], c :: t, a, _, ht, h => by
    have hc := (holds_cons.mp h).1
    have hne : c ≠ 0 := fun h => ht (h ▸ mem_cons_self)
    simp [strcmpEq, hc, hne]
  | c :: s, [], a, hs, _, h => by
    have h0 := (holds_cons.mp h).1
    have hne : (0 : UInt8) ≠ c := fun h => hs (h ▸ mem_cons_self)
    simp [strcmpEq, h0, hne]
  | c :: s, d :: t, a, hs, ht, h => by
    obtain ⟨hd, hrest⟩ := holds_cons.mp h
    have ih := strcmpEq_iff (fun h => hs (mem_cons_of_mem _ h)) (fun h => ht (mem_cons_of_mem _ h)) hrest
    rw [strcmpEq, Bool.and_eq_true, ih, hd, beq_iff_eq, List.cons.injEq]
    exact ⟨fun h => ⟨h.1.symm, h.2⟩, fun h => ⟨h.1.symm, h.2⟩⟩

theorem writeMatch_at {d : Dparser} {e : ℕ} (hat : Dparser.At 0 d ⟨f.name, e, shortEntry f⟩) (hlen : (shortEntry f).length = 32)
    (h0 : 0 ∉ f.name) : ∀ fs : Files, (∀ g ∈ fs.list, 0 ∉ g.name) →
    writeMatch d.mem d.filename (entryBytes d.mem d.entry) fs = enter f fs
  | .nil, _ => rfl
  | .cons g child next, h => by
    have hg : 0 ∉ g.name := h g mem_cons_self
    have hdrop : (entryBytes d.mem d.entry).drop 11 = (shortEntry f).drop 11 := by
      apply ext_getElem
      · simp [entryBytes, hlen]
      · intro i h1 h2
        have hi := hat.fields i h2
        simp only [entryBytes, getElem_drop, getElem_map, getElem_range]
        rw [hat.entry, ← add_assoc, hi, getElem_drop]
    have hcmp : strcmpEq d.mem g.name d.filename = true ↔ g.name = f.name := by
      rw [hat.filename]
      exact strcmpEq_iff hg h0 hat.name
    rw [writeMatch, enter, writeMatch_at hat hlen h0 next fun g' hg' => h g' (mem_cons_of_mem _ hg'), fromEntry_drop g hdrop]
    by_cases hname : g.name = f.name
    · rw [if_pos hname, if_pos (hcmp.mpr hname)]
    · rw [if_neg hname, if_neg fun h => hname (hcmp.mp h)]

theorem enter_names (f : Node) : ∀ fs : Files, (enter f fs).list.map Node.name = fs.list.map Node.name
  | .nil => rfl
  | .cons g child next => by
    unfold enter
    split_ifs
    · rfl
    · exact congrArg (g.name :: ·) (enter_names f next)

/-- **The host's loop writes each file's own entry to it**, if there are only short entries. -/
theorem foldl_writeMatch : ∀ (L : List Node) (e : ℕ) (ds : List Dparser) (fs : Files), (∀ f ∈ L, Listed f) → (∀ f ∈ L, Plain f) →
    List.Forall₂ (Dparser.At 0) ds (filesAt e (items L)) → (∀ g ∈ fs.list, 0 ∉ g.name) →
    ds.foldl (fun files d => writeMatch d.mem d.filename (entryBytes d.mem d.entry) files) fs = L.foldl (fun files f => enter f files) fs
  | [], _, _, _, _, _, .nil, _ => rfl
  | f :: L, e, ds, fs, hL, hplain, hds, h0 => by
    have hf := hL f mem_cons_self
    have hp := hplain f mem_cons_self
    obtain ⟨hshort, hf0⟩ := hf.short_length hp.1
    rw [show items (f :: L) = .short (shortEntry f) :: items L from rfl, filesAt, hf.name_short hp] at hds
    match ds, hds with
    | d :: ds, .cons hd hds =>
      have hnames : ∀ g ∈ (enter f fs).list, 0 ∉ g.name := by
        intro g hg
        have hmem : g.name ∈ fs.list.map Node.name := enter_names f fs ▸ List.mem_map_of_mem hg
        obtain ⟨g', hg', heq⟩ := List.mem_map.mp hmem
        exact heq ▸ h0 g' hg'
      rw [foldl_cons, foldl_cons, writeMatch_at hd (hf.short_ok hp.1).length hf0 fs h0]
      exact foldl_writeMatch L _ ds _ (fun g hg => hL g (mem_cons_of_mem _ hg)) (fun g hg => hplain g (mem_cons_of_mem _ hg)) hds hnames

/-- A first entry whose name can be written over the start of the sector: it has no extension, or at most 7
characters before the dot, and 9 in all unless the attributes are 0. -/
def FirstFits (b : List UInt8) : Prop :=
  LE.get8 b 8 = space ∨ (shortBase b).length ≤ 7 ∧ ((shortBase b).length + (shortExt b).length ≤ 9 ∨ LE.get8 b 11 = 0)

theorem items_behind {mem : Mem} {top : ℕ} : ∀ (L : List Node) (e : ℕ), 32 ≤ e → ItemsSafe mem 0 top e (items L)
  | [], _, _ => trivial
  | f :: L, e, he => ⟨safe_short_behind (shortEntry f) he, items_behind L (e + 32) (by omega)⟩

theorem items_safe {mem : Mem} (top : ℕ) {L : List Node} (hm : Holds mem 0 ((items L).flatMap Item.bytes)) (h : ∀ it ∈ items L, it.Valid)
    (hfirst : ∀ f ∈ L.head?, FirstFits (shortEntry f)) : ItemsSafe mem 0 top 0 (items L) := by
  cases L with
  | nil => trivial
  | cons f L =>
    have hlen := ShortOk.length (h (.short (shortEntry f)) mem_cons_self)
    have hentry := (holds_append.mp (show Holds mem 0 (shortEntry f ++ (items L).flatMap Item.bytes) from hm)).1
    have h11 := Holds.get8 hentry (show 11 < (shortEntry f).length by omega)
    rw [zero_add] at h11
    exact ⟨safe_short_first h11 (hfirst f rfl), items_behind L 32 (le_refl 32)⟩

theorem writeMatch_same {mem : Mem} {fn : ℕ} {entry : List UInt8} : ∀ fs : Files,
    (∀ g ∈ fs.list.find? fun g => strcmpEq mem g.name fn, g.fromEntry entry = g) → writeMatch mem fn entry fs = fs
  | .nil, _ => rfl
  | .cons g child next, h => by
    rw [writeMatch]
    split_ifs with hcmp
    · rw [h g (by simp [Files.list, hcmp])]
    · rw [writeMatch_same next fun g' hg' => h g' (by simpa [Files.list, hcmp] using hg')]

theorem foldl_writeMatch_same {fs : Files} : ∀ ds : List Dparser,
    (∀ d ∈ ds, ∀ g ∈ fs.list.find? fun g => strcmpEq d.mem g.name d.filename, g.fromEntry (entryBytes d.mem d.entry) = g) →
    ds.foldl (fun files d => writeMatch d.mem d.filename (entryBytes d.mem d.entry) files) fs = fs
  | [], _ => rfl
  | d :: ds, h => by
    rw [foldl_cons, writeMatch_same fs (h d mem_cons_self)]
    exact foldl_writeMatch_same ds fun d' hd' => h d' (mem_cons_of_mem _ hd')

/-! ### What the entries say of the files -/

/-- The first file with a name. -/
def lookup (name : List UInt8) (fs : Files) : Option Node := fs.list.find? fun g => g.name = name

theorem fromEntry_name (g : Node) (e : List UInt8) : (g.fromEntry e).name = g.name := rfl

theorem lookup_cons (name : List UInt8) (g : Node) (child next : Files) :
    lookup name (.cons g child next) = if g.name = name then some g else lookup name next := by
  by_cases h : g.name = name <;> simp [lookup, Files.list, h]

theorem lookup_enter (name : List UInt8) (f : Node) : ∀ fs : Files, lookup name (enter f fs) =
    if name = f.name then (lookup name fs).map fun g => g.fromEntry (shortEntry f) else lookup name fs
  | .nil => by
    simp [lookup, enter, Files.list]
  | .cons g child next => by
    have ih := lookup_enter name f next
    unfold enter
    by_cases hg : g.name = f.name
    · rw [if_pos hg, lookup_cons, lookup_cons, fromEntry_name]
      split_ifs with h1 h2 h2
      · rfl
      · exact absurd (h1.symm.trans hg) h2
      · exact absurd (hg.trans h2.symm) h1
      · rfl
    · rw [if_neg hg, lookup_cons, lookup_cons, ih]
      split_ifs with h1 h2 h2
      · exact absurd (h1.trans h2) hg
      · rfl
      · rfl
      · rfl

theorem lookup_foldl_enter (name : List UInt8) : ∀ (L : List Node) (fs : Files), (∀ f ∈ L, f.name ≠ name) →
    lookup name (L.foldl (fun files f => enter f files) fs) = lookup name fs
  | [], _, _ => rfl
  | f :: L, fs, h => by
    rw [foldl_cons, lookup_foldl_enter name L _ fun g hg => h g (mem_cons_of_mem _ hg), lookup_enter,
      if_neg (h f mem_cons_self).symm]

/-- Each file of the list gets its own entry once. -/
theorem lookup_foldl_mem : ∀ (L : List Node) (fs : Files), (L.map Node.name).Nodup → ∀ f ∈ L,
    lookup f.name (L.foldl (fun files f => enter f files) fs) = (lookup f.name fs).map fun g => g.fromEntry (shortEntry f)
  | [], _, _, _, hf => absurd hf not_mem_nil
  | f' :: L, fs, hnd, f, hf => by
    obtain ⟨hnot, hnd'⟩ := nodup_cons.mp hnd
    rw [foldl_cons]
    by_cases hff : f.name = f'.name
    · have hne : ∀ g ∈ L, g.name ≠ f.name := fun g hg h => hnot ((h.trans hff) ▸ List.mem_map_of_mem hg)
      have hmem : f = f' := by
        rcases mem_cons.mp hf with rfl | hf
        · rfl
        · exact absurd rfl (hne f hf)
      rw [lookup_foldl_enter f.name L _ hne, lookup_enter, if_pos hff, hmem]
    · have hmem : f ∈ L := (mem_cons.mp hf).resolve_left fun h => hff (h ▸ rfl)
      rw [lookup_foldl_mem L _ hnd' f hmem, lookup_enter, if_neg hff]

variable {L : List Node} {fs : Files} {addr : UInt64}

theorem name_ne_of_nodup (hnd : ((g :: L).map Node.name).Nodup) (hf : f ∈ L) : g.name ≠ f.name := by
  intro h
  apply (nodup_cons.mp hnd).1
  rw [h]
  exact List.mem_map_of_mem hf

theorem lookup_mem : ∀ {fs : Files}, (fs.list.map Node.name).Nodup → f ∈ fs.list → lookup f.name fs = some f
  | .nil, _, hf => absurd hf not_mem_nil
  | .cons g child next, hnd, hf => by
    rw [lookup_cons]
    rcases mem_cons.mp hf with rfl | hf
    · rw [if_pos rfl]
    · rw [if_neg (name_ne_of_nodup hnd hf), lookup_mem (nodup_cons.mp hnd).2 hf]

theorem list_hide (b : UInt8 → Bool) : ∀ fs : Files, (fs.hide b).list = fs.list.map (Node.hide b)
  | .nil => rfl
  | .cons f _ next => congrArg (f.hide b :: ·) (list_hide b next)

theorem lookup_hide (b : UInt8 → Bool) (name : List UInt8) (fs : Files) : lookup name (fs.hide b) = (lookup name fs).map (Node.hide b) := by
  unfold lookup
  rw [list_hide, find?_map]
  rfl

theorem enter_same : ∀ {fs : Files}, (fs.list.map Node.name).Nodup → f ∈ fs.list → f.fromEntry (shortEntry f) = f → enter f fs = fs
  | .nil, _, hf, _ => absurd hf not_mem_nil
  | .cons g child next, hnd, hf, hsame => by
    unfold enter
    rcases mem_cons.mp hf with rfl | hf
    · rw [if_pos rfl, hsame]
    · rw [if_neg (name_ne_of_nodup hnd hf), enter_same (nodup_cons.mp hnd).2 hf hsame]

theorem foldl_enter_same (hnd : (fs.list.map Node.name).Nodup) : ∀ L : List Node, (∀ f ∈ L, f ∈ fs.list) →
    (∀ f ∈ L, f.fromEntry (shortEntry f) = f) → L.foldl (fun files f => enter f files) fs = fs
  | [], _, _ => rfl
  | f :: L, hL, hsame => by
    rw [foldl_cons, enter_same hnd (hL f mem_cons_self) (hsame f mem_cons_self)]
    exact foldl_enter_same hnd L (fun g hg => hL g (mem_cons_of_mem _ hg)) fun g hg => hsame g (mem_cons_of_mem _ hg)

/-- **Entries written back change nothing** exactly if each says what its file is. -/
theorem foldl_enter_iff (hshort : ∀ f ∈ L, (getShortname f.name).length = 11) (hsub : L.Sublist fs.list)
    (hnd : (fs.list.map Node.name).Nodup) :
    ((L.foldl (fun files f => enter f files) fs).hide (fun _ => true) = fs.hide (fun _ => true) ↔ ∀ f ∈ L, f.Entered) ∧
      ((∀ f ∈ L, f.Entered) → L.foldl (fun files f => enter f files) fs = fs) := by
  have hback : (∀ f ∈ L, f.Entered) → L.foldl (fun files f => enter f files) fs = fs := fun h =>
    foldl_enter_same hnd _ (fun f hf => hsub.subset hf) fun f hf => (h f hf).same (hshort f hf)
  refine ⟨⟨fun h f hf => ?_, fun h => by rw [hback h]⟩, hback⟩
  have hnd' : (L.map Node.name).Nodup := (hsub.map Node.name).nodup hnd
  have hlook := congrArg (lookup f.name) h
  rw [lookup_hide, lookup_hide, lookup_foldl_mem _ fs hnd' f hf, lookup_mem hnd (hsub.subset hf), map_some, map_some,
    map_some, Option.some.injEq] at hlook
  refine (fromEntry_self_iff (hshort f hf)).mp ⟨?_, ?_⟩
  · have hsize := congrArg Node.size hlook
    exact hsize
  · have hcluster := congrArg Node.firstCluster hlook
    exact hcluster

/-! ### A sector of a directory is written back -/

theorem getFileByCluster_congr {q : Param} (hq : clusterSize q = clusterSize p) (c : UInt32) : ∀ (fs : Files) (up : List Node),
    getFileByCluster q c up fs = getFileByCluster p c up fs
  | .nil, _ => rfl
  | .cons f child next, up => by
    have hclusters : fileClusters q f = fileClusters p f := by
      rw [fileClusters, hq, fileClusters]
    rw [getFileByCluster, getFileByCluster, hclusters, getFileByCluster_congr hq c child (f :: up), getFileByCluster_congr hq c next up]

theorem setByCluster_congr {q : Param} (hq : clusterSize q = clusterSize p) (c : UInt32) (file : Node) (files : Files) : ∀ fs : Files,
    setByCluster q c file files fs = setByCluster p c file files fs
  | .nil => rfl
  | .cons f child next => by
    have hclusters : fileClusters q f = fileClusters p f := by
      rw [fileClusters, hq, fileClusters]
    rw [setByCluster, setByCluster, hclusters, getFileByCluster_congr hq c child [], setByCluster_congr hq c file files child,
      setByCluster_congr hq c file files next]

theorem setByCluster_single (p : Param) (c : UInt32) (file : Node) (files : Files) :
    ∃ root child, setByCluster p c file files p.tree = .cons root child .nil := by
  unfold Param.tree setByCluster
  split_ifs
  · exact ⟨_, _, rfl⟩
  · split
    · exact ⟨_, _, rfl⟩
    · exact ⟨_, _, rfl⟩
  · exact ⟨_, _, rfl⟩

theorem setTree_same (p : Param) (tree : Files) : clusterSize (p.setTree tree) = clusterSize p ∧ sysSectors (p.setTree tree) = sysSectors p ∧
    (∀ block, clusterIndex (p.setTree tree) block = clusterIndex p block) ∧
    (∀ f block, addrOffset (p.setTree tree) f block = addrOffset p f block) ∧
    ∀ root child, (p.setTree tree).setTree (.cons root child .nil) = p.setTree (.cons root child .nil) := by
  cases tree <;> exact ⟨rfl, rfl, fun _ => rfl, fun _ _ => rfl, fun _ _ => rfl⟩

theorem dataRead_tree (buff : List UInt8) {addr : UInt64} (ho : m.ownerAt addr = some o) : ∃ files,
    (dataRead m.param m.pageSize (m.blockAddr addr) buff).2.2 =
      m.param.setTree (setByCluster m.param (m.clusterAt addr) o.file files m.param.tree) := by
  have hkeep : m.param = m.param.setTree (setByCluster m.param (m.clusterAt addr) o.file o.child m.param.tree) := by
    rw [setByCluster_same _ _ ho, Param.setTree_self]
  rw [Mal.ownerAt, Mal.clusterAt] at ho
  unfold dataRead readOwner
  rw [ho, filter_some]
  split_ifs
  · dsimp only
    cases if o.file.isDir then none else o.file.buff with
    | some d => exact ⟨o.child, hkeep⟩
    | none =>
      cases o.file.cb with
      | dir => exact ⟨_, rfl⟩
      | user read _ => cases read <;> exact ⟨o.child, hkeep⟩
  · exact ⟨o.child, hkeep⟩

/-- The volume with other children for the owner of a cluster. -/
def Mal.withFiles (m : Mal) (addr : UInt64) (o : Owner) (files : Files) : Mal :=
  { m with param := m.param.setTree (setByCluster m.param (m.clusterAt addr) o.file files m.param.tree) }

theorem withFiles_owner (ho : m.ownerAt addr = some o) (files : Files) :
    (m.withFiles addr o files).ownerAt addr = some { o with child := files } := by
  obtain ⟨hsize, -, hindex, -⟩ := setTree_same m.param (setByCluster m.param (m.clusterAt addr) o.file files m.param.tree)
  rw [Mal.ownerAt, Mal.clusterAt]
  rw [show (m.withFiles addr o files).param = m.param.setTree (setByCluster m.param (m.clusterAt addr) o.file files m.param.tree) from rfl,
    hindex, getFileByCluster_congr hsize, setByCluster_root]
  exact getFileByCluster_set files _ o ho

theorem withFiles_withFiles (ho : m.ownerAt addr = some o) (files files' : Files) :
    (m.withFiles addr o files).withFiles addr { o with child := files } files' = m.withFiles addr o files' := by
  obtain ⟨hsize, -, hindex, -, htwice⟩ := setTree_same m.param (setByCluster m.param (m.clusterAt addr) o.file files m.param.tree)
  have htree := setByCluster_root m.param (m.clusterAt addr) o.file files
  obtain ⟨root, child, hroot⟩ := setByCluster_single m.param (m.clusterAt addr) o.file files'
  have hset := setByCluster_set files files' m.param.tree o ho
  have hindex' : (m.withFiles addr o files).clusterAt addr = m.clusterAt addr := hindex (m.blockAddr addr)
  unfold Mal.withFiles at hindex' ⊢
  rw [hindex']
  rw [htree, setByCluster_congr hsize, hset, hroot, htwice]

theorem harmless_readonly (hm : Sectors m) (hblock : ¬ m.blockAddr addr < sysSectors m.param)
    (ho : m.ownerAt addr = some o) (hattr : o.file.attr &&& attrReadonly ≠ 0) :
    Harmless (backRead m addr buff) (backWrite m addr buff) := by
  obtain ⟨files, hread⟩ := dataRead_tree buff ho
  have hback : backRead m addr buff = m.withFiles addr o files := by
    rw [backRead, malRead_clusters _ hm hblock, hread]
    rfl
  obtain ⟨-, hsys, -⟩ := setTree_same m.param (setByCluster m.param (m.clusterAt addr) o.file files m.param.tree)
  have hblock' : ¬ (m.withFiles addr o files).blockAddr addr < sysSectors (m.withFiles addr o files).param := by
    rw [show (m.withFiles addr o files).param = m.param.setTree (setByCluster m.param (m.clusterAt addr) o.file files m.param.tree)
      from rfl, hsys]
    exact hblock
  have howner := withFiles_owner ho files
  rw [Mal.ownerAt, Mal.clusterAt] at howner
  rw [backWrite, hback, malWrite_clusters hblock', dataWrite, howner, filter_some, if_neg (by simpa using hattr)]
  exact Harmless.refl _

/-- The sector of the directory, as it is read. -/
def Mal.dirAt (m : Mal) (addr : UInt64) (o : Owner) : File.Err × List UInt8 × Files :=
  dirRead o.file o.up o.child (addrOffset m.param o.file (m.blockAddr addr)).toUInt64 m.pageSize

/-- The files whose entries are in the sector. -/
def Mal.filesAt (m : Mal) (addr : UInt64) (o : Owner) : List Node :=
  sectorFiles (addrOffset m.param o.file (m.blockAddr addr)).toUInt64.toNat m.pageSize.toNat (m.dirAt addr o).2.2.list

/-- The file `A.TXT` of 600 bytes from cluster 3 on. -/
def backFile : Node :=
  ⟨[65, 46, 84, 88, 84], 600, 0, some (List.replicate 600 65), .user none none, 3, { (default : Record) with fstClusLO := 3 }⟩

def backRoot : Node := ⟨[82], 512, attrDirectory, none, .dir, 2, default⟩

/-- A volume of 40 sectors with `A.TXT` in its root directory. -/
def backVolume : Mal where
  param := { smallVolume with root := backRoot, child := .cons backFile .nil .nil, ready := true }
  blockSize := 512
  blockNum := 104

theorem backFile_good : GoodFile backFile :=
  ⟨⟨show ∀ c ∈ [65, 46, 84, 88, 84], _ by simp, by decide, .inl ⟨[65], [84, 88, 84], ⟨by decide, by decide, by decide, by decide,
    by decide, by decide, by decide, by decide, by decide⟩, rfl⟩⟩, by decide, by decide⟩

theorem backVolume_dir : addrOffset backVolume.param backRoot (backVolume.blockAddr 41984) = 0 ∧ backVolume.pageSize = 512 ∧
    backVolume.dirAt 41984 ⟨backRoot, .cons backFile .nil .nil, []⟩ =
      (.none, shortEntry backFile ++ List.replicate 480 0, .cons backFile .nil .nil) := by
  have hoff : addrOffset backVolume.param backRoot (backVolume.blockAddr 41984) = 0 := by decide +kernel
  have hpage : backVolume.pageSize = 512 := rfl
  have hseek : dirSeek backRoot [] 512 0 (.cons backFile .nil .nil) = (shortEntry backFile, .cons backFile .nil .nil) := rfl
  have hlen : (shortEntry backFile).length = 32 := rfl
  refine ⟨hoff, hpage, ?_⟩
  unfold Mal.dirAt
  rw [hoff, hpage]
  unfold dirRead
  rw [if_pos (by decide), show (0 : UInt32).toUInt64 = 0 from rfl, hseek]
  dsimp only
  rw [take_append, take_of_length_le (by rw [hlen]; decide), take_replicate, hlen]
  rfl

/-- The number of entries of a sector. -/
def Mal.entryNum (m : Mal) : ℕ := m.pageSize.toNat / 32

/-- The files that the parser comes upon in the sector, as it is written back. -/
def Mal.hitsAt (m : Mal) (addr : UInt64) (o : Owner) : List Dparser :=
  parseAll m.entryNum ⟨bufMem (m.dirAt addr o).2.1, 0, UInt16.ofNat m.entryNum, 0, 0⟩

/-- The owner is a directory that the host may read and write. -/
structure Directory (o : Owner) : Prop where
  entries : o.Entries
  dir : o.file.isDir
  read : o.file.attr &&& attrWriteonly = 0
  write : o.file.attr &&& attrReadonly = 0

/-- The sector is one of whole short entries, the first with a name that fits; and no name is in the directory
twice. -/
structure Parsed (m : Mal) (addr : UInt64) (o : Owner) : Prop where
  listed : ∀ f ∈ o.child.list, Listed f
  names : (o.child.list.map Node.name).Nodup
  whole : Whole (addrOffset m.param o.file (m.blockAddr addr)).toUInt64.toNat m.pageSize.toNat o.child.list
  first : ∀ f ∈ (m.filesAt addr o).head?, FirstFits (shortEntry f)

theorem malRead_dir (hm : Sectors m) (hbuff : buff.length = m.pageSize.toNat)
    (hblock : ¬ m.blockAddr addr < sysSectors m.param) (ho : m.ownerAt addr = some o) (hd : Directory o) :
    malRead m addr buff = ((m.dirAt addr o).1, (m.dirAt addr o).2.1, m.withFiles addr o (m.dirAt addr o).2.2) := by
  have hlen := dirRead_length o.file o.up o.child (addrOffset m.param o.file (m.blockAddr addr)).toUInt64 m.pageSize
  rw [malRead_clusters _ hm hblock]
  rw [Mal.ownerAt, Mal.clusterAt] at ho
  unfold dataRead readOwner
  rw [ho, filter_some, if_pos (by simpa using hd.read)]
  dsimp only
  rw [hd.entries.1, hd.entries.2]
  rw [LE.put_all (hlen.trans hbuff.symm)]
  rfl

theorem backWrite_dir (hm : Sectors m) (hbuff : buff.length = m.pageSize.toNat)
    (hblock : ¬ m.blockAddr addr < sysSectors m.param) (ho : m.ownerAt addr = some o) (hd : Directory o) :
    backWrite m addr buff = m.withFiles addr o (dirWrite (m.dirAt addr o).2.2 (m.dirAt addr o).2.1 m.pageSize) := by
  have hread := malRead_dir hm hbuff hblock ho hd
  obtain ⟨-, hsys, -⟩ := setTree_same m.param (setByCluster m.param (m.clusterAt addr) o.file (m.dirAt addr o).2.2 m.param.tree)
  have hblock' : ¬ (m.withFiles addr o (m.dirAt addr o).2.2).blockAddr addr < sysSectors (m.withFiles addr o (m.dirAt addr o).2.2).param := by
    rw [show (m.withFiles addr o (m.dirAt addr o).2.2).param =
      m.param.setTree (setByCluster m.param (m.clusterAt addr) o.file (m.dirAt addr o).2.2 m.param.tree) from rfl, hsys]
    exact hblock
  have howner := withFiles_owner ho (m.dirAt addr o).2.2
  rw [← withFiles_withFiles ho (m.dirAt addr o).2.2]
  rw [Mal.ownerAt, Mal.clusterAt] at howner
  rw [backWrite, backRead, hread, malWrite_clusters hblock', dataWrite, howner, filter_some, if_pos (by simpa using hd.write)]
  dsimp only
  rw [hd.entries.1, hd.entries.2]
  rfl

theorem Listed.name_ne_zero (h : Listed f) : 0 ∉ f.name := by
  cases h with
  | label _ h0 => exact h0
  | dots _ _ hname => rcases hname with hname | hname <;> rw [hname] <;> decide
  | file hgood => exact hgood.name.zero

theorem entryNum_lt (hm : Sectors m) : m.entryNum < 65536 ∧ (m.pageSize >>> 5).toUInt16 = UInt16.ofNat m.entryNum := by
  have hpage : m.pageSize.toNat < 2 ^ 16 := by
    rw [hm.pageSize, UInt16.toNat_toUInt32]
    exact m.param.sectorSize.toNat_lt
  have hlt : m.entryNum < 65536 := by
    unfold Mal.entryNum
    omega
  refine ⟨hlt, ?_⟩
  apply UInt16.toNat_inj.mp
  rw [toNat_ofNat16 hlt, UInt32.toNat_toUInt16, UInt32.toNat_shiftRight]
  rw [show (5 : UInt32).toNat % 32 = 5 from rfl, Nat.shiftRight_eq_div_pow]
  exact Nat.mod_eq_of_lt hlt

theorem dirWrite_hits (hm : Sectors m) : dirWrite (m.dirAt addr o).2.2 (m.dirAt addr o).2.1 m.pageSize =
    (m.hitsAt addr o).foldl (fun files d => writeMatch d.mem d.filename (entryBytes d.mem d.entry) files) (m.dirAt addr o).2.2 := by
  obtain ⟨hlt, hn⟩ := entryNum_lt hm
  unfold dirWrite Mal.hitsAt
  rw [dirWriteLoop_eq, hn, toNat_ofNat16 hlt]

/-- **The host's entries go to their own files.** -/
theorem dirWrite_parsed (hm : Sectors m) (hd : Directory o) (hp : Parsed m addr o) :
    SectorRead (addrOffset m.param o.file (m.blockAddr addr)).toUInt64.toNat m.pageSize.toNat o.child (m.dirAt addr o).2.2 ∧
      (∀ f ∈ m.filesAt addr o, (getShortname f.name).length = 11) ∧ dirWrite (m.dirAt addr o).2.2 (m.dirAt addr o).2.1 m.pageSize =
        (m.filesAt addr o).foldl (fun files f => enter f files) (m.dirAt addr o).2.2 := by
  obtain ⟨hlt, -⟩ := entryNum_lt hm
  rw [dirWrite_hits hm]
  obtain ⟨fs', hread, heq⟩ := dirRead_whole o.up hd.dir hp.listed hp.whole
  have hfirst := hp.first
  obtain ⟨hplain, hcount⟩ := sectorFiles_whole _ _ _ hread.whole
  rw [Mal.filesAt, Mal.dirAt, heq] at hfirst
  rw [Mal.filesAt, Mal.hitsAt, Mal.dirAt, heq]
  generalize hL : sectorFiles (addrOffset m.param o.file (m.blockAddr addr)).toUInt64.toNat m.pageSize.toNat fs'.list = L
    at hfirst hplain hcount ⊢
  have hlisted : ∀ f ∈ L, Listed f := fun f hf => hread.listed f ((sectorFiles_sublist _ _ _).subset (hL ▸ hf))
  have hvalid := items_valid hlisted hplain
  have hlen := flatMap_bytes_length fun it hit => (hvalid it hit).bytes_length
  have hholds := holds_bufMem ((items L).flatMap Item.bytes ++ List.replicate (m.pageSize.toNat - 32 * L.length) 0)
  rw [holds_append, hlen, zero_add, items_count] at hholds
  obtain ⟨hitems, hzero⟩ := hholds
  refine ⟨hread, fun f hf => ((hlisted f hf).short_length (hplain f hf).1).1, ?_⟩
  refine foldl_writeMatch L 0 _ fs' hlisted hplain ?_ fun g hg => (hread.listed g hg).name_ne_zero
  unfold Mal.entryNum at hlt ⊢
  have hsafe := items_safe (32 * (m.pageSize.toNat / 32)) hitems hvalid hfirst
  refine parseAll_items _ 0 _ _ _ hvalid hitems (fun _ _ _ => rfl) (by rw [items_count]; omega) hsafe (by rw [items_count]; omega) hlt
    (le_refl _) ?_
  rw [items_count]
  intro hmore
  refine ⟨?_, by omega⟩
  rw [zero_add, Holds.head hzero (by rw [length_replicate]; omega), LE.get8, getD_replicate _ (by omega)]

/-- 200000 sectors, with the files `A.TXT` of 65536 clusters and `B.TXT`. -/
def largeVolume : Param :=
  { smallVolume with
    sectorNumber := 200000
    child := .cons ⟨[65, 46, 84, 88, 84], 33554432, 0, none, .user none none, 0, default⟩ .nil
      (.cons ⟨[66, 46, 84, 88, 84], 600, 0, some (List.replicate 600 65), .user none none, 0, default⟩ .nil .nil) }

end FakeFat
end Vsf
