/-
# The blocks of an ISO 9660 volume, and who has them

`fakeiso_drv_init_nb` promises that the blocks of the files are apart, after the path tables,
outside of the areas to keep out of and below the capacity, and that `.` and `..` show their
directory and its parent. A `..` gets the blocks of the directory it is in, which is right for the
root only (`layout_flat`).
-/
import Mathlib
import Vsf.File.FakeIso

namespace Vsf
namespace FakeIso

open List Option

/-! ### What is promised -/

/-- Where the blocks of a file end. -/
def Node.stop (f : Node) : ℕ := f.firstLba.toNat + blocks f.size.toNat

/-- The blocks a file has: from its first one on, as many as its size takes. -/
def Has (f : Node) (b : ℕ) : Prop := f.firstLba.toNat ≤ b ∧ b < f.stop

/-- The files and directories below, without the entries `.` and `..`. -/
def Files.plain (fs : Files) : List Node := fs.nodes.filter fun f => !f.isDots

/-- The files and directories of a volume. -/
def Param.files (p : Param) : List Node := p.root :: p.filelist.plain

/-- Each `.` at `d` or below has its directory's blocks, each `..` its parent's; `up` for `d`. -/
def Dotted (up d : Node) : Files → Prop
  | .null => True
  | .nil => True
  | .cons f filelist next =>
    (f.name = dotName → f.firstLba = d.firstLba ∧ f.stop = d.stop) ∧
      (f.name = dotdotName → f.firstLba = up.firstLba ∧ f.stop = up.stop) ∧
        Dotted d f filelist ∧ Dotted up d next

/-- The blocks of the files are where they should be. -/
structure Placed (p : Param) (capacity : Capacity) : Prop where
  apart : p.files.Pairwise fun f g => ∀ b, ¬ (Has f b ∧ Has g b)
  descriptors : ∀ f ∈ p.files, ∀ b, Has f b → 18 ≤ b
  tables : ∀ f ∈ p.files, ∀ b, Has f b →
    ¬ (p.pathTableLba.toNat ≤ b ∧ b < p.pathTableLba.toNat + 2 * blocks p.pathTableSize.toNat)
  keepout : ∀ f ∈ p.files, ∀ k ∈ p.keepout, ∀ b, Has f b → ¬ (k.lba.toNat ≤ b ∧ b < k.stop)
  capacity : ∀ f ∈ p.files, ∀ b, Has f b → b < capacity.blockNumber.toNat
  find : ∀ f ∈ p.files, ∀ lba, Has f lba.toNat → getFileByLba lba (.cons p.root p.filelist .nil) = some f

/-- The blocks are where they should be, and `.` and `..` show them. -/
structure Layout (p : Param) (capacity : Capacity) : Prop where
  placed : Placed p capacity
  dotted : Dotted p.root p.root p.filelist

/-! ### Files that follow each other -/

/-- The blocks of `f` are between `a` and `b`, outside of every area. -/
structure Put (keepout : List Keepout) (f : Node) (a b : ℕ) : Prop where
  lo : a ≤ f.firstLba.toNat
  hi : f.stop ≤ b
  clear : ∀ k ∈ keepout, Clear k (blocks f.size.toNat) f.firstLba.toNat

/-- The files have their blocks between `a` and `b`, in the order of the walk. -/
def Laid (keepout : List Keepout) : ℕ → Files → ℕ → Prop
  | a, .null, b => b = a
  | a, .nil, b => b = a
  | a, .cons f filelist next, b =>
    ∃ m n, a ≤ m ∧ (f.isDots = false → Put keepout f a m) ∧ Laid keepout m filelist n ∧ Laid keepout n next b

variable {keepout : List Keepout} {fs filelist next : Files} {f g d : Node} {a b : ℕ}

theorem plain_cons (f : Node) (filelist next : Files) :
    (Files.cons f filelist next).plain = (if f.isDots then [] else [f]) ++ (filelist.plain ++ next.plain) := by
  unfold Files.plain
  rw [Files.nodes, filter_cons, filter_append]
  cases f.isDots <;> simp

theorem Laid.le : ∀ {fs : Files} {a b : ℕ}, Laid keepout a fs b → a ≤ b
  | .null, _, _, h => ge_of_eq h
  | .nil, _, _, h => ge_of_eq h
  | .cons _ _ _, _, _, ⟨_, _, hm, _, hc, hn⟩ => hm.trans (hc.le.trans hn.le)

theorem Laid.put : ∀ {fs : Files} {a b : ℕ}, Laid keepout a fs b → ∀ f ∈ fs.plain, Put keepout f a b
  | .null, _, _, _, _, hf => absurd hf not_mem_nil
  | .nil, _, _, _, _, hf => absurd hf not_mem_nil
  | .cons g filelist next, a, b, ⟨m, n, hm, hg, hc, hn⟩, f, hf => by
    have hmn := hc.le
    have hnb := hn.le
    rw [plain_cons, mem_append, mem_append] at hf
    rcases hf with hf | hf | hf
    · split at hf
      · exact absurd hf not_mem_nil
      · rename_i hdots
        obtain rfl := mem_singleton.mp hf
        have hput := hg (by simpa using hdots)
        exact ⟨hput.lo, hput.hi.trans (hmn.trans hnb), hput.clear⟩
    · have hput := hc.put f hf
      exact ⟨hm.trans hput.lo, hput.hi.trans hnb, hput.clear⟩
    · have hput := hn.put f hf
      exact ⟨(hm.trans hmn).trans hput.lo, hput.hi, hput.clear⟩

theorem Laid.pairwise : ∀ {fs : Files} {a b : ℕ}, Laid keepout a fs b →
    fs.plain.Pairwise fun f g => f.stop ≤ g.firstLba.toNat
  | .null, _, _, _ => List.Pairwise.nil
  | .nil, _, _, _ => List.Pairwise.nil
  | .cons f filelist next, a, b, ⟨m, n, hm, hf, hc, hn⟩ => by
    have hmn := hc.le
    rw [plain_cons]
    refine pairwise_append.mpr ⟨?_, pairwise_append.mpr ⟨hc.pairwise, hn.pairwise, ?_⟩, ?_⟩
    · split <;> simp
    · intro g hg k hk
      exact (hc.put g hg).hi.trans (hn.put k hk).lo
    · intro g hg k hk
      split at hg
      · exact absurd hg not_mem_nil
      · rename_i hdots
        obtain rfl := mem_singleton.mp hg
        have hput := hf (by simpa using hdots)
        rcases mem_append.mp hk with hk | hk
        · exact hput.hi.trans (hc.put k hk).lo
        · exact hput.hi.trans (hmn.trans (hn.put k hk).lo)

/-! ### The search -/

/-- Each `.` and `..` at `d` or below has the blocks of its directory. -/
def Near (d : Node) : Files → Prop
  | .null => True
  | .nil => True
  | .cons f filelist next =>
    (f.isDots = true → f.firstLba = d.firstLba ∧ f.size = d.size) ∧ Near f filelist ∧ Near d next

/-- The test of `fakeiso_get_file_by_lba`. -/
def test (lba : UInt32) (f : Node) : Bool := f.firstLba ≤ lba ∧ lba < f.firstLba + blockNum f.size

theorem test_iff {lba : UInt32} (h : f.stop < 2 ^ 32) : test lba f = true ↔ Has f lba.toNat := by
  have hstop : (f.firstLba + blockNum f.size).toNat = f.stop := by
    unfold Node.stop at h ⊢
    rw [UInt32.toNat_add, blockNum_toNat (by omega)]
    exact Nat.mod_eq_of_lt h
  rw [test, decide_eq_true_eq, UInt32.le_iff_toNat_le, UInt32.lt_iff_toNat_lt, hstop, Has]

/-- Without the block in a directory, the search does not stop at a `.` or `..`. -/
theorem getFileByLba_eq (lba : UInt32) : ∀ {fs : Files} {d : Node}, Near d fs → test lba d = false →
    getFileByLba lba fs = fs.plain.find? (test lba)
  | .null, _, _, _ => rfl
  | .nil, _, _, _ => rfl
  | .cons f filelist next, d, ⟨hf, hc, hn⟩, hd => by
    have hunfold : getFileByLba lba (.cons f filelist next) =
        if test lba f then some f else (getFileByLba lba filelist).or (getFileByLba lba next) := by
      by_cases h : f.firstLba ≤ lba ∧ lba < f.firstLba + blockNum f.size
      · rw [getFileByLba, if_pos h, if_pos (show test lba f = true from decide_eq_true h)]
      · rw [getFileByLba, if_neg h, if_neg (by rwa [test, decide_eq_true_eq])]
        cases getFileByLba lba filelist <;> rfl
    rw [hunfold, plain_cons, find?_append, find?_append, getFileByLba_eq lba hn hd]
    cases htest : test lba f with
    | true =>
      cases hdots : f.isDots with
      | true =>
        obtain ⟨hlba, hsize⟩ := hf hdots
        rw [test, hlba, hsize] at htest
        exact absurd (htest.symm.trans hd) (by decide)
      | false => simp [htest]
    | false =>
      rw [getFileByLba_eq lba hc htest]
      cases hdots : f.isDots <;> cases filelist.plain.find? (test lba) <;> simp [htest]

/-- Of files that are apart, the search finds the one that has the block. -/
theorem find_apart {lba : UInt32} : ∀ {l : List Node}, (l.Pairwise fun f g => f.stop ≤ g.firstLba.toNat) →
    (∀ f ∈ l, f.stop < 2 ^ 32) → ∀ f ∈ l, Has f lba.toNat → l.find? (test lba) = some f
  | [], _, _, f, hf, _ => absurd hf not_mem_nil
  | g :: l, hp, hb, f, hf, hhas => by
    obtain ⟨hg, hl⟩ := pairwise_cons.mp hp
    rcases mem_cons.mp hf with rfl | hf
    · exact find?_cons_of_pos ((test_iff (hb f mem_cons_self)).mpr hhas)
    · have hno : ¬ test lba g = true := by
        intro h
        have hhas' := (test_iff (hb g mem_cons_self)).mp h
        have := hg f hf
        unfold Has at hhas hhas'
        omega
      rw [find?_cons_of_neg hno]
      exact find_apart hl (fun k hk => hb k (mem_cons_of_mem _ hk)) f hf hhas

/-! ### The walk of the source -/

variable {p : Param} {parent : Option Node} {row done : List Node} {cur : UInt32} {stop : ℕ}

/-- The size that a file gets, in the type of the source. -/
def newSize (f : Node) (filelist : List Node) : UInt64 :=
  if f.isDir then UInt64.ofNat (calcDirSize filelist) else f.size

theorem place_plain (p : Param) (hf : f.isDots = false ∨ parent = none) (hlba : f.firstLba = 0) (row filelist : List Node)
    (cur : UInt32) :
    place p parent row f filelist cur =
      let num := blockNum (newSize f filelist)
      let lba := getFreeBlock p.keepout (roundUp cur) num
      ({ f with volumeSequenceNumber := p.sequenceNumber, size := newSize f filelist, firstLba := lba }, roundUp (lba + num)) := by
  have hisDir : ({ f with volumeSequenceNumber := p.sequenceNumber } : Node).isDir = f.isDir := rfl
  have hisDots : ({ f with volumeSequenceNumber := p.sequenceNumber } : Node).isDots = f.isDots := rfl
  unfold place newSize
  simp only [hisDir, hisDots]
  cases hdir : f.isDir with
  | true =>
    rcases hf with hf | rfl
    · simp [hf, settle, hlba]
    · simp [settle, hlba]
  | false => simp [settle, hlba]

theorem parent_of (hf : Plain f) (d : Node) : f.isDots = false ∨ some d = none := .inl hf.name

/-- What becomes of a `.` or a `..` in a directory `d`. -/
def entry (p : Param) (d : Node) (row : List Node) (f : Node) : Node :=
  { f with volumeSequenceNumber := p.sequenceNumber, size := UInt64.ofNat (calcDirSize row), firstLba := d.firstLba }

theorem place_dots (hf : f.isDots = true) (hdir : f.isDir = true) (hd : d.isDir = true) (row filelist : List Node) (cur : UInt32) :
    place p (some d) row f filelist cur = (entry p d row f, roundUp (roundUp cur)) := by
  have hisDir : ({ f with volumeSequenceNumber := p.sequenceNumber } : Node).isDir = true := hdir
  have hisDots : ({ f with volumeSequenceNumber := p.sequenceNumber } : Node).isDots = true := hf
  simp [place, entry, hisDir, hisDots, hd]

theorem newSize_toNat (h : blocks (sizeN f filelist) < 2 ^ 32) : (newSize f filelist.row).toNat = sizeN f filelist := by
  unfold newSize
  unfold sizeN at h ⊢
  split
  · rename_i hdir
    rw [if_pos hdir] at h
    exact ofNat64_toNat h
  · rfl

/-- **What a file gets**: the blocks of its size, outside of every area. -/
theorem place_put (ho : Ordered stop p.keepout) (hf : f.isDots = false ∨ parent = none) (hlba : f.firstLba = 0)
    (hstop : stop < 2 ^ 32) (h : afterN p.keepout cur.toNat (blocks (sizeN f filelist)) ≤ stop) (row : List Node) :
    (place p parent row f filelist.row cur).2.toNat = afterN p.keepout cur.toNat (blocks (sizeN f filelist)) ∧
      Put p.keepout (place p parent row f filelist.row cur).1 cur.toNat
        (afterN p.keepout cur.toNat (blocks (sizeN f filelist))) := by
  have hcur := le_roundUpN cur.toNat
  have hfree := le_freeN p.keepout (roundUpN cur.toNat) (blocks (sizeN f filelist))
  have hend := le_roundUpN (freeN p.keepout (roundUpN cur.toNat) (blocks (sizeN f filelist)) + blocks (sizeN f filelist))
  have hafter : afterN p.keepout cur.toNat (blocks (sizeN f filelist)) =
      roundUpN (freeN p.keepout (roundUpN cur.toNat) (blocks (sizeN f filelist)) + blocks (sizeN f filelist)) := rfl
  have hround : (roundUp cur).toNat = roundUpN cur.toNat := roundUp_toNat (by omega)
  have hsize : (newSize f filelist.row).toNat = sizeN f filelist := newSize_toNat (by omega)
  have hnum : (blockNum (newSize f filelist.row)).toNat = blocks (sizeN f filelist) := by
    rw [blockNum_toNat (by rw [hsize]; omega), hsize]
  have hblock : (getFreeBlock p.keepout (roundUp cur) (blockNum (newSize f filelist.row))).toNat =
      freeN p.keepout (roundUpN cur.toNat) (blocks (sizeN f filelist)) := by
    have := getFreeBlock_toNat p.keepout (roundUp cur) (blockNum (newSize f filelist.row)) (by rw [hround, hnum]; omega)
    rwa [hround, hnum] at this
  have hadd : (getFreeBlock p.keepout (roundUp cur) (blockNum (newSize f filelist.row)) +
      blockNum (newSize f filelist.row)).toNat =
        freeN p.keepout (roundUpN cur.toNat) (blocks (sizeN f filelist)) + blocks (sizeN f filelist) := by
    rw [UInt32.toNat_add, hblock, hnum]
    exact Nat.mod_eq_of_lt (by omega)
  rw [place_plain p hf hlba]
  refine ⟨?_, ?_, ?_, ?_⟩
  · rw [roundUp_toNat (by rw [hadd]; omega), hadd, hafter]
  · show cur.toNat ≤ (getFreeBlock _ _ _).toNat
    rw [hblock]
    exact hcur.trans hfree
  · show (getFreeBlock _ _ _).toNat + blocks (newSize f filelist.row).toNat ≤ _
    rw [hblock, hsize, hafter]
    exact hend
  · intro k hk
    show Clear k (blocks (newSize f filelist.row).toNat) (getFreeBlock _ _ _).toNat
    rw [hblock, hsize]
    exact free_clear ho _ (by omega) k hk

/-- What the walk leaves of the `.` and `..` of a directory `d`. -/
structure Headed (d a b : Node) : Prop where
  dots : a.name = dotName ∧ b.name = dotdotName
  lba : a.firstLba = d.firstLba ∧ b.firstLba = d.firstLba
  size : a.size = d.size

/-- The walk through the files of a directory begins with `.` and `..`. -/
theorem initFiles_dots {rest : Files} (h : Dots f g) (hd : d.isDir = true)
    (hsize : d.size = UInt64.ofNat (calcDirSize (f :: g :: rest.row))) (p : Param) (cur : UInt32) :
    ∃ f' g', Headed d f' g' ∧ (f.size.toNat < 2 ^ 32 → d.size.toNat < 2 ^ 32 → g'.size = d.size) ∧
      initFiles p (some d) [] cur (.cons f .null (.cons g .null rest)) =
        (.cons f' .null (.cons g' .null (initFiles p (some d) [f', g'] (roundUp (roundUp (roundUp (roundUp cur)))) rest).1),
          (initFiles p (some d) [f', g'] (roundUp (roundUp (roundUp (roundUp cur)))) rest).2) := by
  have hf : f.isDots = true := by simp [Node.isDots, h.dot]
  have hg : g.isDots = true := by simp [Node.isDots, h.dotdot]
  refine ⟨entry p d (f :: g :: rest.row) f, entry p d (entry p d (f :: g :: rest.row) f :: g :: rest.row) g, ?_, ?_, ?_⟩
  · exact ⟨⟨h.dot, h.dotdot⟩, ⟨rfl, rfl⟩, hsize.symm⟩
  · intro hsmall hdsmall
    rw [hsize] at hdsmall ⊢
    exact congrArg UInt64.ofNat (dirSize_congr rfl rfl hsmall hdsmall)
  · simp only [initFiles, place_dots hf h.dir.1 hd, place_dots hg h.dir.2 hd, nil_append, singleton_append,
      Files.row]

/-- The walk of the source ends where `walk` does, up to `stop`, with the files laid out. -/
def Follows (p : Param) (stop : ℕ) (d : Node) (done : List Node) (cur : UInt32) (fs : Files) : Prop :=
  walk p.keepout cur.toNat fs ≤ stop →
    (initFiles p (some d) done cur fs).2.toNat = walk p.keepout cur.toNat fs ∧
      Laid p.keepout cur.toNat (initFiles p (some d) done cur fs).1 (walk p.keepout cur.toNat fs)

theorem roundUp_idem (h : roundUpN cur.toNat < 2 ^ 32) : roundUp (roundUp cur) = roundUp cur := by
  have h1 := roundUp_toNat h
  apply UInt32.toNat_inj.mp
  rw [roundUp_toNat (by rwa [h1, roundUpN_idem]), h1, roundUpN_idem]

theorem follows_dots {rest : Files} (hstop : stop < 2 ^ 32) (h : Dots f g) (hd : d.isDir = true)
    (hsize : d.size = UInt64.ofNat (calcDirSize (f :: g :: rest.row))) (hrest : ∀ done cur, Follows p stop d done cur rest) :
    Follows p stop d [] cur (.cons f .null (.cons g .null rest)) := by
  intro hlt
  have hf : f.isDots = true := by simp [Node.isDots, h.dot]
  have hg : g.isDots = true := by simp [Node.isDots, h.dotdot]
  have hwalk : walk p.keepout cur.toNat (.cons f .null (.cons g .null rest)) = walk p.keepout (roundUpN cur.toNat) rest := by
    simp [walk, hf, hg, roundUpN_idem]
  obtain ⟨f', g', hhead, -, hinit⟩ := initFiles_dots h hd hsize p cur
  rw [hwalk] at hlt ⊢
  have hround : roundUpN cur.toNat < 2 ^ 32 := (le_walk p.keepout rest _).trans_lt (hlt.trans_lt hstop)
  have hcur : roundUp (roundUp (roundUp (roundUp cur))) = roundUp cur := by
    rw [roundUp_idem hround, roundUp_idem hround, roundUp_idem hround]
  have hnat := roundUp_toNat hround
  rw [hcur] at hinit
  rw [← hnat] at hlt
  obtain ⟨hend, hlaid⟩ := hrest [f', g'] (roundUp cur) hlt
  rw [hinit, ← hnat]
  refine ⟨hend, (roundUp cur).toNat, (roundUp cur).toNat, ?_, ?_, rfl, ?_⟩
  · rw [hnat]
    exact le_roundUpN _
  · intro hno
    simp [Node.isDots, hhead.dots.1] at hno
  · refine ⟨(roundUp cur).toNat, (roundUp cur).toNat, le_refl _, ?_, rfl, hlaid⟩
    intro hno
    simp [Node.isDots, hhead.dots.2] at hno

theorem follows_cons (ho : Ordered stop p.keepout) (hstop : stop < 2 ^ 32) (hf : Plain f) (hchild : ∀ d cur, d.isDir = f.isDir →
      d.size = newSize f filelist.row → Follows p stop d [] cur filelist) (hnext : ∀ done cur, Follows p stop d done cur next) :
    Follows p stop d done cur (.cons f filelist next) := by
  intro hlt
  have hwalk : walk p.keepout cur.toNat (.cons f filelist next) =
      walk p.keepout (walk p.keepout (afterN p.keepout cur.toNat (blocks (sizeN f filelist))) filelist) next := by
    simp [walk, hf.name]
  rw [hwalk] at hlt ⊢
  have hc := (le_walk p.keepout next _).trans hlt
  have ha := (le_walk p.keepout filelist _).trans hc
  obtain ⟨hcur, hput⟩ := place_put ho (parent_of hf d) hf.lba hstop ha (done ++ f :: next.row)
  set r := place p (some d) (done ++ f :: next.row) f filelist.row cur with hr
  have hplace := place_plain p (parent_of hf d) hf.lba (done ++ f :: next.row) filelist.row cur
  have hdir : r.1.isDir = f.isDir := by rw [hr, hplace]; rfl
  have hsize : r.1.size = newSize f filelist.row := by rw [hr, hplace]
  have hdots : r.1.isDots = f.isDots := by rw [hr, hplace]; rfl
  rw [← hcur] at hlt hc hput ⊢
  obtain ⟨hcend, hclaid⟩ := hchild r.1 r.2 hdir hsize hc
  rw [← hcend] at hlt hclaid ⊢
  obtain ⟨hnend, hnlaid⟩ := hnext (done ++ [r.1]) (initFiles p (some r.1) [] r.2 filelist).2 hlt
  exact ⟨hnend, r.2.toNat, _, hput.lo.trans ((Nat.le_add_right _ _).trans hput.hi), fun _ => hput, hclaid, hnlaid⟩

/-- **The files below a directory are laid out**, as deep as the tree is. -/
theorem initFiles_laid (ho : Ordered stop p.keepout) (hstop : stop < 2 ^ 32) (h : Tidy fs) :
    ∀ d done cur, Follows p stop d done cur fs := by
  induction h with
  | nil => exact fun d done cur _ => ⟨rfl, rfl⟩
  | file hf hdir _ ih =>
    intro d done cur
    exact follows_cons ho hstop hf (fun _ _ _ _ _ => ⟨rfl, rfl⟩) (ih d)
  | dir hf hdir hdots _ _ ihrest ihnext =>
    intro d done cur
    apply follows_cons ho hstop hf ?_ (ihnext d)
    intro d' cur' hd' hsize
    apply follows_dots hstop hdots (hd'.trans hdir) ?_ (ihrest d')
    rw [hsize, newSize, if_pos hdir]
    rfl

/-! ### `.` and `..` -/

/-- Every directory is below 4 GiB, and so is what its `.` says. -/
def Small : Files → Prop
  | .null => True
  | .nil => True
  | .cons f filelist next =>
    (f.name = dotName → f.size.toNat < 2 ^ 32) ∧ calcDirSize filelist.row < 2 ^ 32 ∧ Small filelist ∧ Small next

theorem near_dots {rest : Files} (h : Dots f g) (hd : d.isDir = true)
    (hsize : d.size = UInt64.ofNat (calcDirSize (f :: g :: rest.row))) (hdir : calcDirSize (f :: g :: rest.row) < 2 ^ 32)
    (hf : f.size.toNat < 2 ^ 32) (hrest : ∀ done cur, Near d (initFiles p (some d) done cur rest).1) :
    Near d (initFiles p (some d) [] cur (.cons f .null (.cons g .null rest))).1 := by
  obtain ⟨f', g', hhead, hg', hinit⟩ := initFiles_dots h hd hsize p cur
  have hdsize : d.size.toNat < 2 ^ 32 := by
    rw [hsize, UInt64.toNat_ofNat']
    omega
  rw [hinit]
  exact ⟨fun _ => ⟨hhead.lba.1, hhead.size⟩, trivial, fun _ => ⟨hhead.lba.2, hg' hf hdsize⟩, trivial, hrest _ _⟩

/-- **`.` and `..` get the blocks of the directory they are in**, at any depth. -/
theorem initFiles_near (h : Tidy fs) : Small fs → ∀ d done cur, Near d (initFiles p (some d) done cur fs).1 := by
  induction h with
  | nil => exact fun _ _ _ _ => trivial
  | @file f next hf hdir _ ih =>
    rintro ⟨-, -, -, hsnext⟩ d done cur
    have hplace := place_plain p (parent_of hf d) hf.lba (done ++ f :: next.row) [] cur
    refine ⟨?_, trivial, ih hsnext d _ _⟩
    intro hdots
    rw [Files.row, hplace] at hdots
    exact absurd (hf.name.symm.trans hdots) (by decide)
  | @dir f a b rest next hf hdir hdots _ _ ihrest ihnext =>
    rintro ⟨-, hsdir, ⟨hsa, -, -, -, -, -, hsrest⟩, hsnext⟩ d done cur
    have hplace := place_plain p (parent_of hf d) hf.lba (done ++ f :: next.row) (a :: b :: rest.row) cur
    refine ⟨?_, ?_, ihnext hsnext d _ _⟩
    · intro hdots'
      rw [Files.row, Files.row, hplace] at hdots'
      exact absurd (hf.name.symm.trans hdots') (by decide)
    · apply near_dots hdots ?_ ?_ hsdir (hsa ?_) (ihrest hsrest _)
      · rw [Files.row, Files.row, hplace]
        exact hdir
      · rw [Files.row, Files.row, hplace, newSize, if_pos hdir]
      · exact hdots.dot

/-- No directory is below the root. -/
def Flat (p : Param) : Prop := ∀ f ∈ p.filelist.row, f.isDir = true → f.isDots = true

theorem Tidy.plain (h : Tidy fs) : ∀ f ∈ fs.row, f.isDots = false := by
  induction h with
  | nil => exact fun f hf => absurd hf not_mem_nil
  | file hf _ _ ih =>
    intro g hg
    rcases mem_cons.mp hg with rfl | hg
    · exact hf.name
    · exact ih g hg
  | dir hf _ _ _ _ _ ih =>
    intro g hg
    rcases mem_cons.mp hg with rfl | hg
    · exact hf.name
    · exact ih g hg

theorem name_ne (h : f.isDots = false) : f.name ≠ dotName ∧ f.name ≠ dotdotName := by
  simpa [Node.isDots] using h

theorem initFiles_dotted {up : Node} (h : Tidy fs) (hflat : ∀ f ∈ fs.row, f.isDir = false) :
    ∀ done cur, Dotted up d (initFiles p (some d) done cur fs).1 := by
  induction h with
  | nil => exact fun _ _ => trivial
  | @file f next hf hdir _ ih =>
    intro done cur
    have hplace := place_plain p (parent_of hf d) hf.lba (done ++ f :: next.row) [] cur
    have hname : (place p (some d) (done ++ f :: next.row) f [] cur).1.name = f.name := by rw [hplace]
    obtain ⟨hdot, hdotdot⟩ := name_ne hf.name
    refine ⟨?_, ?_, trivial, ih (fun g hg => hflat g (mem_cons_of_mem _ hg)) _ _⟩
    · exact fun h => absurd (hname.symm.trans h) hdot
    · exact fun h => absurd (hname.symm.trans h) hdotdot
  | @dir f _ _ _ _ _ hdir _ _ _ _ _ =>
    exact absurd (hdir.symm.trans (hflat f mem_cons_self)) (by decide)

/-- The `..` of a directory in `d` shows that directory: to be right, both begin at one block. -/
theorem dotted_shares {up : Node} (h : Tidy fs) : ∀ done cur a, walk keepout a fs < 2 ^ 32 → (∃ f ∈ fs.row, f.isDir = true) →
    Dotted up d (initFiles p (some d) done cur fs).1 →
      ∃ f ∈ (initFiles p (some d) done cur fs).1.plain, f.firstLba = d.firstLba ∧ 0 < f.size.toNat := by
  induction h with
  | nil =>
    rintro _ _ _ _ ⟨f, hf, -⟩
    exact absurd hf not_mem_nil
  | @file f next hf hdir _ ih =>
    rintro done cur a hlt ⟨g, hg, hgdir⟩ ⟨-, -, -, hnext⟩
    rcases mem_cons.mp hg with rfl | hg
    · exact absurd (hdir.symm.trans hgdir) (by decide)
    · obtain ⟨k, hk, hshare⟩ := ih _ _ _ hlt ⟨g, hg, hgdir⟩ hnext
      refine ⟨k, ?_, hshare⟩
      rw [initFiles, plain_cons]
      exact mem_append_right _ (mem_append_right _ hk)
  | @dir f x y rest next hf hdir hdots _ _ _ _ =>
    rintro done cur a hlt - ⟨-, -, hchild, -⟩
    have hplace := place_plain p (parent_of hf d) hf.lba (done ++ f :: next.row) (x :: y :: rest.row) cur
    set r := place p (some d) (done ++ f :: next.row) f (x :: y :: rest.row) cur with hr
    have hrsize : r.1.size = UInt64.ofNat (calcDirSize (x :: y :: rest.row)) := by
      rw [hplace, newSize, if_pos hdir]
    have hrdir : r.1.isDir = true := by
      rw [hplace]
      exact hdir
    have hrdots : r.1.isDots = false := by
      rw [hplace]
      exact hf.name
    obtain ⟨x', y', hhead, -, hinit⟩ := initFiles_dots hdots hrdir hrsize p r.2
    rw [Files.row, Files.row, ← hr, hinit] at hchild
    refine ⟨r.1, ?_, ?_, ?_⟩
    · rw [initFiles, plain_cons, Files.row, Files.row, ← hr, hrdots]
      exact mem_append_left _ mem_cons_self
    · exact hhead.lba.2.symm.trans (hchild.2.2.2.2.1 hhead.dots.2).1
    · have hnum : blocks (sizeN f (.cons x .null (.cons y .null rest))) < 2 ^ 32 := by
        have h1 : walk keepout a (.cons f (.cons x .null (.cons y .null rest)) next) =
            walk keepout (walk keepout (afterN keepout a (blocks (sizeN f (.cons x .null (.cons y .null rest)))))
              (.cons x .null (.cons y .null rest))) next := by
          rw [walk, hf.name]
          rfl
        rw [h1] at hlt
        have h2 := (le_walk keepout _ _).trans_lt ((le_walk keepout _ _).trans_lt hlt)
        have h3 := le_roundUpN (freeN keepout (roundUpN a) (blocks (sizeN f (.cons x .null (.cons y .null rest)))) +
          blocks (sizeN f (.cons x .null (.cons y .null rest))))
        unfold afterN at h2
        omega
      rw [hrsize]
      simp only [sizeN, hdir, if_true, Files.row] at hnum
      rw [ofNat64_toNat hnum]
      exact dirSize_pos x _

/-! ### The volume -/

theorem callInit_eq (h : f.callInit = some g) : ∃ size, g = { f with size } := by
  unfold Node.callInit at h
  split at h
  · exact ⟨f.size, (some.inj h).symm⟩
  · obtain ⟨size, -, rfl⟩ := map_eq_some_iff.mp h
    exact ⟨size, rfl⟩

theorem calcPathTableLoop_cons (f : Node) (filelist next : Files) : calcPathTableLoop (.cons f filelist next) =
    (if f.isDir ∧ ¬ f.isDots then calcPathTableSize f filelist else 0) + calcPathTableLoop next := by
  by_cases h : f.isDir ∧ ¬ f.isDots
  · cases filelist <;> simp [calcPathTableLoop, calcPathTableSize, h.1, h.2]
  · cases filelist <;> simp only [calcPathTableLoop, if_neg h]

/-- The callbacks of the files have no say in the path tables. -/
theorem fileInit_path : ∀ {fs gs : Files}, fileInit fs = some gs →
    calcPathTableLoop gs = calcPathTableLoop fs ∧
      ∀ (f : Node) size, calcPathTableSize { f with size } gs = calcPathTableSize f fs
  | .null, _, h => by
    obtain rfl := some.inj h
    exact ⟨rfl, fun _ _ => rfl⟩
  | .nil, _, h => by
    obtain rfl := some.inj h
    exact ⟨rfl, fun _ _ => rfl⟩
  | .cons f filelist next, gs, h => by
    simp only [fileInit, Option.pure_def, bind_eq_bind, bind_eq_some_iff] at h
    obtain ⟨f', hf, filelist', hc, next', hn, h⟩ := h
    obtain rfl := some.inj h
    obtain ⟨size, rfl⟩ := callInit_eq hf
    have hloop : calcPathTableLoop (.cons { f with size } filelist' next') = calcPathTableLoop (.cons f filelist next) := by
      rw [calcPathTableLoop_cons, calcPathTableLoop_cons, (fileInit_path hc).2 f size, (fileInit_path hn).1]
      rfl
    refine ⟨hloop, ?_⟩
    intro g size'
    simp only [calcPathTableSize, hloop]
    rfl

variable {init : Option (Param → Option Param)} {p₀ : Param}

theorem prepare_spec (h : prepare init p₀ = some (p, cur)) :
    p.pathTableLba = 18 ∧ p.pathTableSize = UInt32.ofNat (calcPathTableSize p.root p.filelist) ∧
      cur = 18 + 2 * (p.pathTableSize + 2048 - 1) / 2048 := by
  simp only [prepare, bind_eq_bind, bind_eq_some_iff] at h
  obtain ⟨p₁, -, h⟩ := h
  split at h
  · exact absurd h (by simp)
  obtain ⟨gs, hinit, h⟩ := bind_eq_some_iff.mp h
  simp only [fileInit, Option.pure_def, bind_eq_bind, bind_eq_some_iff] at hinit
  obtain ⟨root, hroot, filelist, hfiles, next, -, hgs⟩ := hinit
  obtain rfl := some.inj hgs
  obtain ⟨size, rfl⟩ := callInit_eq hroot
  simp only [Option.some.injEq, Prod.mk.injEq] at h
  obtain ⟨rfl, rfl⟩ := h
  refine ⟨rfl, ?_, rfl⟩
  exact congrArg UInt32.ofNat ((fileInit_path hfiles).2 _ size).symm

theorem drvInitNb_eq (h : prepare init p₀ = some (p, cur)) :
    let r := place p none [p.root] p.root p.filelist.row cur
    let c := initFiles p (some r.1) [] r.2 p.filelist
    drvInitNb init p₀ = some ({ p with root := r.1, filelist := c.1, blockNum := c.2 }, ⟨(c.2 + 0x20).toUInt64, 2048⟩) := by
  simp [drvInitNb, h, initFiles, Files.row]

theorem start_toNat (h : prepare init p₀ = some (p, cur)) (hpath : 2 * (calcPathTableSize p.root p.filelist + 2047) < 2 ^ 32) :
    p.pathTableSize.toNat = calcPathTableSize p.root p.filelist ∧
      cur.toNat = 18 + 2 * (calcPathTableSize p.root p.filelist + 2047) / 2048 := by
  obtain ⟨-, hsize, hcur⟩ := prepare_spec h
  have hnat : p.pathTableSize.toNat = calcPathTableSize p.root p.filelist := by
    rw [hsize, UInt32.toNat_ofNat']
    omega
  refine ⟨hnat, ?_⟩
  rw [hcur]
  simp only [UInt32.toNat_add, UInt32.toNat_div, UInt32.toNat_mul, UInt32.toNat_sub, hnat, UInt32.reduceToNat]
  omega

theorem placed_of_put {q : Param} {capacity : Capacity} (lo hi : ℕ) (hput : ∀ f ∈ q.files, Put q.keepout f lo hi)
    (hpair : q.files.Pairwise fun f g => f.stop ≤ g.firstLba.toNat) (hnear : Near q.root q.filelist)
    (hlo : q.pathTableLba.toNat + 2 * blocks q.pathTableSize.toNat ≤ lo) (h18 : q.pathTableLba.toNat = 18)
    (hhi : hi < 2 ^ 32) (hcap : hi ≤ capacity.blockNumber.toNat) : Placed q capacity := by
  have hrange : ∀ f ∈ q.files, ∀ b, Has f b → lo ≤ b ∧ b < hi := by
    intro f hf b hb
    have h1 := (hput f hf).lo
    have h2 := (hput f hf).hi
    unfold Has at hb
    omega
  refine ⟨?_, ?_, ?_, ?_, ?_, ?_⟩
  · refine hpair.imp ?_
    rintro f g hfg b ⟨hf, hg⟩
    exact absurd (hg.1.trans_lt hf.2) (not_lt.mpr hfg)
  · intro f hf b hb
    have := (hrange f hf b hb).1
    omega
  · intro f hf b hb
    have := (hrange f hf b hb).1
    omega
  · intro f hf k hk b hb
    have hclear := (hput f hf).clear k hk
    unfold Has Node.stop at hb
    unfold Clear at hclear
    omega
  · exact fun f hf b hb => (hrange f hf b hb).2.trans_le hcap
  · intro f hf lba hhas
    have hstop : ∀ g ∈ q.files, g.stop < 2 ^ 32 := fun g hg => (hput g hg).hi.trans_lt hhi
    have hfind := find_apart hpair hstop f hf hhas
    unfold Param.files at hfind
    by_cases htest : test lba q.root = true
    · rw [find?_cons_of_pos htest] at hfind
      rw [getFileByLba, if_pos (of_decide_eq_true htest)]
      exact hfind
    · rw [find?_cons_of_neg htest] at hfind
      rw [getFileByLba, if_neg (by rwa [test, decide_eq_true_eq] at htest),
        getFileByLba_eq lba hnear (Bool.not_eq_true _ ▸ htest), hfind]

/-- **The blocks of a volume of any depth** are right, but for what `..` shows. -/
theorem init_placed (h : prepare init p₀ = some (p, cur)) (ht : Tree p) (ho : Ordered (volume p) p.keepout)
    (hroot : calcDirSize p.filelist.row < 2 ^ 32) (hs : Small p.filelist)
    (hpath : 2 * (calcPathTableSize p.root p.filelist + 2047) < 2 ^ 32) (hv : volume p + 0x20 < 2 ^ 32) :
    ∃ q capacity, drvInitNb init p₀ = some (q, capacity) ∧ Placed q capacity ∧ Near q.root q.filelist := by
  obtain ⟨hname, hdir, hlba⟩ := ht.root
  obtain ⟨a, b, rest, hfiles, hdots, htidy⟩ := ht.files
  obtain ⟨hlba18, -, -⟩ := prepare_spec h
  obtain ⟨hpts, hcur⟩ := start_toNat h hpath
  have hsize : sizeN p.root p.filelist = calcDirSize p.filelist.row := if_pos hdir
  have hwalk : walk p.keepout (afterN p.keepout cur.toNat (blocks (sizeN p.root p.filelist))) p.filelist = volume p := by
    rw [volume, hcur, hsize]
  have hstop : volume p < 2 ^ 32 := by omega
  obtain ⟨hnext, hput⟩ := place_put ho (.inr (Eq.refl none)) hlba hstop ((le_walk p.keepout p.filelist _).trans hwalk.le) [p.root]
  have hplace := place_plain p (.inr (Eq.refl none)) hlba [p.root] p.filelist.row cur
  have hinit := drvInitNb_eq h
  set r := place p none [p.root] p.root p.filelist.row cur with hr
  have hrdir : r.1.isDir = true := by
    rw [hplace]
    exact hdir
  have hrsize : r.1.size = UInt64.ofNat (calcDirSize p.filelist.row) := by
    rw [hplace, newSize, if_pos hdir]
  rw [← hnext] at hput hwalk
  have hfollows : Follows p (volume p) r.1 [] r.2 p.filelist := by
    rw [hfiles] at hrsize ⊢
    exact follows_dots hstop hdots hrdir hrsize (initFiles_laid ho hstop htidy r.1)
  have hnear : Near r.1 (initFiles p (some r.1) [] r.2 p.filelist).1 := by
    rw [hfiles] at hrsize hroot hs ⊢
    exact near_dots hdots hrdir hrsize hroot (hs.1 hdots.dot) (initFiles_near htidy hs.2.2.2.2.2.2 r.1)
  obtain ⟨hend, hlaid⟩ := hfollows hwalk.le
  refine ⟨_, _, hinit, ?_, hnear⟩
  apply placed_of_put cur.toNat (walk p.keepout r.2.toNat p.filelist) ?_ ?_ hnear ?_ ?_ (hwalk.trans_lt hstop) ?_
  · intro f hf
    rcases mem_cons.mp hf with rfl | hf
    · exact ⟨hput.lo, hput.hi.trans hlaid.le, hput.clear⟩
    · have hfput := hlaid.put f hf
      exact ⟨(hput.lo.trans ((Nat.le_add_right _ _).trans hput.hi)).trans hfput.lo, hfput.hi, hfput.clear⟩
  · exact pairwise_cons.mpr ⟨fun f hf => hput.hi.trans (hlaid.put f hf).lo, hlaid.pairwise⟩
  · show p.pathTableLba.toNat + 2 * blocks p.pathTableSize.toNat ≤ cur.toNat
    rw [hlba18, hpts, hcur, blocks, show (18 : UInt32).toNat = 18 from rfl]
    omega
  · show p.pathTableLba.toNat = 18
    rw [hlba18]
    rfl
  · show walk p.keepout r.2.toNat p.filelist ≤ ((initFiles p (some r.1) [] r.2 p.filelist).2 + 0x20).toUInt64.toNat
    rw [UInt32.toNat_toUInt64, UInt32.toNat_add, hend, show (0x20 : UInt32).toNat = 32 from rfl]
    omega

theorem Flat.path (h : ∀ f ∈ fs.row, f.isDir = true → f.isDots = true) : calcPathTableLoop fs = 0 := by
  induction fs with
  | null => rfl
  | nil => rfl
  | cons f filelist next _ ih =>
    have hno : ¬ (f.isDir = true ∧ ¬ f.isDots = true) := fun hf => hf.2 (h f mem_cons_self hf.1)
    rw [calcPathTableLoop_cons, if_neg hno, ih fun g hg => h g (mem_cons_of_mem _ hg)]

theorem has_first (h : 0 < f.size.toNat) : Has f f.firstLba.toNat := by
  refine ⟨le_refl _, ?_⟩
  unfold Node.stop blocks
  omega

/-- With a directory below the root, its `..` is wrong. -/
theorem not_layout (h : prepare init p₀ = some (p, cur)) (ht : Tree p) (hv : volume p + 0x20 < 2 ^ 32) (hflat : ¬ Flat p)
    {q : Param} {capacity : Capacity} (hq : drvInitNb init p₀ = some (q, capacity)) : ¬ Layout q capacity := by
  obtain ⟨hname, hdir, hlba⟩ := ht.root
  obtain ⟨a, b, rest, hfiles, hdots, htidy⟩ := ht.files
  rintro ⟨hplaced, hdotted⟩
  have hinit := drvInitNb_eq h
  have hplace := place_plain p (.inr (Eq.refl none)) hlba [p.root] p.filelist.row cur
  set r := place p none [p.root] p.root p.filelist.row cur with hr
  have hrdir : r.1.isDir = true := by
    rw [hplace]
    exact hdir
  have hrsize : r.1.size = UInt64.ofNat (calcDirSize p.filelist.row) := by
    rw [hplace, newSize, if_pos hdir]
  obtain ⟨rfl, -⟩ := Prod.mk.inj (some.inj (hq.symm.trans hinit))
  unfold volume at hv
  have hwalk : walk p.keepout (afterN p.keepout (18 + 2 * (calcPathTableSize p.root p.filelist + 2047) / 2048)
      (blocks (calcDirSize p.filelist.row))) p.filelist < 2 ^ 32 := by omega
  have hnum : blocks (calcDirSize p.filelist.row) < 2 ^ 32 := by
    have h1 := (le_walk p.keepout p.filelist _).trans_lt hwalk
    exact (num_le_afterN _ _ _).trans_lt h1
  -- the root takes room, so it has its first block
  have hroot : 0 < r.1.size.toNat := by
    rw [hrsize, ofNat64_toNat hnum, hfiles]
    exact dirSize_pos a _
  have hsub : ∃ f ∈ rest.row, f.isDir = true := by
    unfold Flat at hflat
    push Not at hflat
    obtain ⟨f, hf, hfdir, hfdots⟩ := hflat
    rw [hfiles] at hf
    rcases mem_cons.mp hf with rfl | hf
    · exact absurd (by simp [Node.isDots, hdots.dot]) hfdots
    · rcases mem_cons.mp hf with rfl | hf
      · exact absurd (by simp [Node.isDots, hdots.dotdot]) hfdots
      · exact ⟨f, hf, hfdir⟩
  rw [hfiles] at hrsize hwalk
  obtain ⟨a', b', -, -, hdinit⟩ := initFiles_dots hdots hrdir hrsize p r.2
  have hq' : (initFiles p (some r.1) [] r.2 p.filelist).1 =
      .cons a' .null (.cons b' .null
        (initFiles p (some r.1) [a', b'] (roundUp (roundUp (roundUp (roundUp r.2)))) rest).1) := by
    rw [hfiles, hdinit]
  simp only [hq'] at hdotted hplaced
  obtain ⟨f, hf, hshare, hpos⟩ := dotted_shares htidy _ _ _ (hwalk) hsub hdotted.2.2.2.2.2.2
  have hmem : f ∈ (Files.cons a' .null (.cons b' .null
      (initFiles p (some r.1) [a', b'] (roundUp (roundUp (roundUp (roundUp r.2)))) rest).1)).plain := by
    rw [plain_cons, plain_cons]
    exact mem_append_right _ (mem_append_right _ (mem_append_right _ (mem_append_right _ hf)))
  have hapart := (pairwise_cons.mp hplaced.apart).1 f hmem f.firstLba.toNat
  apply hapart
  refine ⟨?_, has_first hpos⟩
  rw [hshare]
  exact has_first hroot

/-- Without a directory below the root, `.` and `..` are right. -/
theorem flat_dotted (ht : Tree p) (hflat : Flat p) (hd : d.isDir = true)
    (hsize : d.size = UInt64.ofNat (calcDirSize p.filelist.row)) (hnear : Near d (initFiles p (some d) [] cur p.filelist).1) :
    Dotted d d (initFiles p (some d) [] cur p.filelist).1 := by
  obtain ⟨a, b, rest, hfiles, hdots, htidy⟩ := ht.files
  unfold Flat at hflat
  rw [hfiles] at hsize hnear hflat ⊢
  obtain ⟨a', b', hhead, -, hinit⟩ := initFiles_dots hdots hd hsize p cur
  have hrest : ∀ f ∈ rest.row, f.isDir = false := by
    intro f hf
    by_contra hfdir
    have hfdots := hflat f (mem_cons_of_mem _ (mem_cons_of_mem _ hf)) (by simpa using hfdir)
    exact absurd (htidy.plain f hf) (by simp [hfdots])
  rw [hinit] at hnear ⊢
  obtain ⟨hnear_a, -, hnear_b, -, -⟩ := hnear
  have stop_eq : ∀ {f : Node}, f.firstLba = d.firstLba ∧ f.size = d.size → f.firstLba = d.firstLba ∧ f.stop = d.stop := by
    rintro f ⟨hlba, hsize⟩
    exact ⟨hlba, by rw [Node.stop, hlba, hsize, Node.stop]⟩
  have ha := stop_eq (hnear_a (by simp [Node.isDots, hhead.dots.1]))
  have hb := stop_eq (hnear_b (by simp [Node.isDots, hhead.dots.2]))
  exact ⟨fun _ => ha, fun _ => ha, trivial, fun _ => hb, fun _ => hb, trivial, initFiles_dotted htidy hrest _ _⟩

/-- **The layout of a volume is right for a tree without directories**, if the areas in it are in order and the
root is below 4 GiB; with one it is not, since its `..` shows itself. -/
theorem layout_flat (h : prepare init p₀ = some (p, cur)) (ht : Tree p) (hv : volume p + 0x20 < 2 ^ 32) :
    ∃ q capacity, drvInitNb init p₀ = some (q, capacity) ∧
      (Ordered (volume p) p.keepout → calcDirSize p.filelist.row < 2 ^ 32 → Small p.filelist → (Layout q capacity ↔ Flat p)) ∧
        (¬ Flat p → ¬ Layout q capacity) := by
  have hinit := drvInitNb_eq h
  refine ⟨_, _, hinit, ?_, fun hflat => not_layout h ht hv hflat hinit⟩
  intro ho hroot hs
  refine ⟨fun hl => by_contra fun hflat => not_layout h ht hv hflat hinit hl, ?_⟩
  intro hflat
  obtain ⟨hname, hdir, hlba⟩ := ht.root
  have hpath : calcPathTableSize p.root p.filelist = 10 := by
    obtain ⟨a, b, rest, hfiles, -, -⟩ := ht.files
    have hloop := Flat.path hflat
    rw [hfiles] at hloop ⊢
    simp [calcPathTableSize, hdir, hloop, calcPathTableRecordSize, Node.isDots, hname]
  obtain ⟨q, capacity, hq, hplaced, hnear⟩ := init_placed h ht ho hroot hs (by rw [hpath]; norm_num) hv
  obtain ⟨rfl, rfl⟩ := Prod.mk.inj (some.inj (hq.symm.trans hinit))
  have hplace := place_plain p (.inr (Eq.refl none)) hlba [p.root] p.filelist.row cur
  refine ⟨hplaced, flat_dotted ht hflat ?_ ?_ hnear⟩
  · rw [hplace]
    exact hdir
  · rw [hplace, newSize, if_pos hdir]

/-- A file as it is given. -/
def given (name : List UInt8) (attr : UInt8) (size : UInt64) : Node := ⟨name, attr, size, none, 0, 0⟩

/-- The files of a directory, with its `.` and `..`. -/
def givenDir (rest : Files) : Files :=
  .cons (given dotName fileattrDirectory 0) .null (.cons (given dotdotName fileattrDirectory 0) .null rest)

/-- A volume with the files `rest`. -/
def givenParam (rest : Files) (keepout : List Keepout) : Param := ⟨1, given dotName 0 0, givenDir rest, keepout, 0, 0, 0⟩

/-- A directory `a` that has no files, and no area to keep out of. -/
def nested : Param := givenParam (.cons (given [97] fileattrDirectory 0) (givenDir .nil) .nil) []

/-- A file `b` of 40 blocks, and two areas of which the second begins first. -/
def unordered : Param := givenParam (.cons (given [98] 0 81920) .null .nil) [⟨128, 64⟩, ⟨64, 8⟩]

theorem prepare_given (rest : Files) (keepout : List Keepout) (hfiles : fileInit rest = some rest)
    (hpath : calcPathTableSize (given dotName fileattrDirectory 0) (givenDir rest) = n) :
    prepare none (givenParam rest keepout) =
      some (⟨1, given dotName fileattrDirectory 0, givenDir rest, keepout, 18, UInt32.ofNat n, 0⟩,
        18 + 2 * (UInt32.ofNat n + 2048 - 1) / 2048) := by
  have hinit : fileInit (.cons (given dotName fileattrDirectory 0) (givenDir rest) .nil) =
      some (.cons (given dotName fileattrDirectory 0) (givenDir rest) .nil) := by
    simp [fileInit, givenDir, given, Node.callInit, hfiles]
  rw [← hpath]
  simp only [prepare, givenParam, Param.callInit, bind_eq_bind, bind_some]
  exact congrArg (fun o => Option.bind o _) hinit

theorem dots_given : Dots (given dotName fileattrDirectory 0) (given dotdotName fileattrDirectory 0) :=
  ⟨rfl, rfl, ⟨rfl, rfl⟩, rfl, rfl⟩

/-- The `..` of `a` shows `a`, and `b` is pushed out of one area into the other. -/
theorem layout_breaks :
    (∃ p cur q capacity, prepare none nested = some (p, cur) ∧ Tree p ∧ volume p + 0x20 < 2 ^ 32 ∧
      drvInitNb none nested = some (q, capacity) ∧ ¬ Layout q capacity) ∧
    (∃ p cur q capacity, prepare none unordered = some (p, cur) ∧ Tree p ∧ volume p + 0x20 < 2 ^ 32 ∧
      drvInitNb none unordered = some (q, capacity) ∧ ¬ Layout q capacity) := by
  constructor
  · have hprep := prepare_given (.cons (given [97] fileattrDirectory 0) (givenDir .nil) .nil) [] rfl rfl
    refine ⟨_, _, _, _, hprep, ⟨⟨rfl, rfl, rfl⟩, _, _, _, rfl, dots_given, .dir ⟨rfl, rfl⟩ rfl dots_given .nil .nil⟩,
      by decide +kernel, drvInitNb_eq hprep, ?_⟩
    rintro ⟨-, -, -, -, -, -, -, -, -, ⟨-, -, -, -, hdotdot, -⟩, -⟩
    have := (hdotdot rfl).1
    revert this
    decide +kernel
  · have hprep := prepare_given (.cons (given [98] 0 81920) .null .nil) [⟨128, 64⟩, ⟨64, 8⟩] rfl rfl
    refine ⟨_, _, _, _, hprep, ⟨⟨rfl, rfl, rfl⟩, _, _, _, rfl, dots_given, .file ⟨rfl, rfl⟩ rfl .nil⟩,
      by decide +kernel, drvInitNb_eq hprep, ?_⟩
    rintro ⟨hplaced, -⟩
    have hout := hplaced.keepout _ (mem_cons_of_mem _ (mem_cons_self)) ⟨128, 64⟩ mem_cons_self 130
    refine hout ?_ ⟨by decide, by decide⟩
    unfold Has Node.stop blocks
    decide +kernel

/-- A volume with one file, which is placed after the second area. -/
theorem layout_flat_file : ∃ q capacity,
    drvInitNb none (givenParam (.cons (given [98] 0 81920) .null .nil) [⟨64, 8⟩, ⟨128, 64⟩]) = some (q, capacity) ∧
      Layout q capacity := by
  have hprep := prepare_given (.cons (given [98] 0 81920) .null .nil) [⟨64, 8⟩, ⟨128, 64⟩] rfl rfl
  obtain ⟨q, capacity, hq, hlayout, -⟩ := layout_flat hprep
    ⟨⟨rfl, rfl, rfl⟩, _, _, _, rfl, dots_given, .file ⟨rfl, rfl⟩ rfl .nil⟩ (by decide +kernel)
  refine ⟨q, capacity, hq, (hlayout ?_ (by decide +kernel) ?_).mpr ?_⟩
  · unfold Ordered
    decide +kernel
  · exact ⟨fun _ => by decide, by decide, trivial, fun _ => by decide, by decide, trivial, fun _ => by decide, by decide, trivial, trivial⟩
  · unfold Flat
    decide +kernel

end FakeIso
end Vsf
