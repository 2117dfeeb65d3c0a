/-
# The directories of the virtual file system

`vsfile_vfs_addfile` links a new directory, `vsfile_vfs_removefile` unlinks and frees one,
`vsfile_mount` and `vsfile_unmount` put another file system over one. The head of the children and
the table of the mounted file system share a word, so a mount overwrites the head. A removal returns
`VSFERR_FAIL` also when it removed.
-/
import Mathlib
import Vsf.Lib.Chain
import Vsf.Lib.System
import Vsf.Buffer.Queue
import Vsf.Framework.Evtq
import Vsf.File.Name

namespace Vsf

open Linked File List Function Option

/-- `struct vsfile_vfsfile_t`. -/
structure VfsFile where
  name : List UInt8
  attr : UInt8
  /-- `op` is `&vsfile_vfs_op`. -/
  vfs : Bool
  mounted : Bool
  /-- The first word of the union: `dir.child`, or `subfs.op`. -/
  ptr : Option Addr
  /-- `subfs.param`. -/
  param : Option Addr
  next : Option Addr

/-- The memory, read as directories, and the calls of `free_vfs`; the history is what the results promise:
children with names, and those removed. -/
structure Vfs where
  heap : Addr → VfsFile
  freed : List Addr
  /-- Something was done through a pointer that points at nothing of the kind. -/
  wild : Bool
  tree : Addr → List (Addr × List UInt8)
  gone : List Addr

/-- The calls; `alloc` is what `alloc_vfs` returns, `err` what the other file system does. -/
inductive VfsOp where
  | add (dir : Addr) (name : List UInt8) (attr : UInt8) (alloc : Option Addr)
  | remove (dir : Addr) (name : List UInt8)
  | mount (dir op : Addr) (param : Option Addr) (err : Vsf.Err)
  | unmount (dir : Addr) (err : Vsf.Err)

namespace Vfs

/-! ### The calls -/

def setFile (s : Vfs) (a : Addr) (f : VfsFile) : Vfs := { s with heap := Function.update s.heap a f }

/-- The loop of `vsfile_vfs_getchild`. -/
def getchildLoop (s : Vfs) (name : Option (List UInt8)) : ℕ → UInt32 → Option Addr → Option (Option Addr)
  | _, _, none => some none
  | 0, _, some _ => none
  | f + 1, idx, some c =>
    if (match name with
        | some name => vsfileMatch name (s.heap c).name
        | none => idx == 0) then some (some c)
    else getchildLoop s name f (idx - 1) (s.heap c).next

/-- `vsfile_vfs_getchild` with `pt == NULL`, which a mounted directory writes to. -/
def getchild (s : Vfs) (dir : Addr) (name : Option (List UInt8)) (idx : UInt32) : Option (Option Addr) :=
  if (s.heap dir).mounted then none else s.getchildLoop name walkFuel idx (s.heap dir).ptr

/-- The end of `vsfile_vfs_addfile`: the new directory goes before the children. -/
def link (s : Vfs) (dir a : Addr) (name : List UInt8) (attr : UInt8) : Vfs :=
  let s := s.setFile a ⟨name, attr, true, false, none, none, none⟩
  let s := s.setFile a { s.heap a with next := (s.heap dir).ptr }
  s.setFile dir { s.heap dir with ptr := some a }

/-- `vsfile_vfs_addfile`; `none` is a call that does not return. -/
def addfile (s : Vfs) (dir : Addr) (name : List UInt8) (attr : UInt8) (alloc : Option Addr) :
    Option (Vsf.Err × Vfs) :=
  if attr &&& attrDirectory = 0 then some (.fail, s)
  else (s.getchild dir (some name) 0).map fun child =>
    match child, alloc with
    | some _, _ => (.fail, s)
    | none, none => (.notEnoughResources, s)
    | none, some a => (.none, s.link dir a name attr)

/-- The loop of `vsfile_vfs_removefile`. -/
def unlinkLoop (s : Vfs) (old : Addr) : ℕ → Option Addr → Option Vfs
  | _, none => some s
  | 0, some _ => none
  | f + 1, some c =>
    if (s.heap c).next = some old then some (s.setFile c { s.heap c with next := (s.heap old).next })
    else unlinkLoop s old f (s.heap c).next

/-- `vsfile_vfs_removefile`. -/
def removefile (s : Vfs) (dir : Addr) (name : List UInt8) : Option (Vsf.Err × Vfs) :=
  (s.getchild dir (some name) 0).bind fun child =>
    match child with
    | none => some (.fail, s)
    | some old =>
      let unlinked := if (s.heap dir).ptr = some old then
          some (s.setFile dir { s.heap dir with ptr := (s.heap old).next })
        else s.unlinkLoop old walkFuel (s.heap dir).ptr
      unlinked.map fun s => (.fail, { s with freed := s.freed ++ [old] })

/-- `vsfile_mount` and `vsfile_vfs_mount`. -/
def mount (s : Vfs) (dir op : Addr) (param : Option Addr) (err : Vsf.Err) : Option (Vsf.Err × Vfs) :=
  if (s.heap dir).vfs = false then some (.fail, s)
  else
    let f := { s.heap dir with ptr := some op, param := param }
    some (err, s.setFile dir (if err = .none then { f with mounted := true } else f))

/-- `vsfile_unmount` and `vsfile_vfs_unmount`; another file system's `unmount` does nothing. -/
def unmount (ops : Addr → Bool) (s : Vfs) (dir : Addr) (err : Vsf.Err) : Option (Vsf.Err × Vfs) :=
  if (s.heap dir).vfs = false then some (.none, s)
  else match (s.heap dir).ptr with
    | none => none
    | some op =>
      if ops op = false then none
      else some (err, if err = .none then s.setFile dir { s.heap dir with mounted := false } else s)

def call (ops : Addr → Bool) (s : Vfs) : VfsOp → Option (Vsf.Err × Vfs)
  | .add dir name attr alloc => s.addfile dir name attr alloc
  | .remove dir name => s.removefile dir name
  | .mount dir op param err => s.mount dir op param err
  | .unmount dir err => s.unmount ops dir err

/-! ### The runs -/

/-- What a call that returned `VSFERR_NONE` promises. -/
def promise (s : Vfs) : VfsOp → Vfs
  | .add dir name _ (some a) => { s with tree := Function.update s.tree dir ((a, name) :: s.tree dir) }
  | .remove dir name =>
    match (s.tree dir).find? fun p => vsfileMatch name p.2 with
    | none => s
    | some p => { s with tree := Function.update s.tree dir ((s.tree dir).erase p), gone := s.gone ++ [p.1] }
  | _ => s

/-- A call, its result taken at its word. -/
def step (ops : Addr → Bool) (s : Vfs) (op : VfsOp) : Vfs :=
  match s.call ops op with
  | none => { s with wild := true }
  | some (err, s') => if err = .none then s'.promise op else s'

/-- The directories there are. -/
def Live (root : Addr) (s : Vfs) (a : Addr) : Prop := a = root ∨ ∃ d, a ∈ (s.tree d).map Prod.fst

/-- Calls are for directories, `alloc_vfs` returns unused memory, and file systems are mounted. -/
def Legal (ops : Addr → Bool) (root : Addr) (s : Vfs) : VfsOp → Prop
  | .add dir _ _ alloc => Live root s dir ∧ ∀ a, alloc = some a → ¬ Live root s a
  | .remove dir _ => Live root s dir
  | .mount dir op _ _ => Live root s dir ∧ ops op = true
  | .unmount dir _ => Live root s dir

/-- `"rootfs"`. -/
def rootName : List UInt8 := [114, 111, 111, 116, 102, 115]

/-- From `vsfile_init` on. -/
def system (ops : Addr → Bool) (root : Addr) : System Vfs VfsOp where
  start s := s.heap root = ⟨rootName, attrDirectory, true, false, none, none, none⟩ ∧
    s.freed = [] ∧ s.wild = false ∧ s.tree = (fun _ => []) ∧ s.gone = []
  step s op s' := Legal ops root s op ∧ s' = s.step ops op

/-- What the directories owe: the children promised, unless mounted over, and those freed are those removed. -/
structure Correct (root : Addr) (s : Vfs) : Prop where
  children : ∀ d, Live root s d → (s.heap d).mounted = false →
    Chain (fun a => (s.heap a).next) (s.heap d).ptr ((s.tree d).map Prod.fst)
  names : ∀ d, ∀ p ∈ s.tree d, (s.heap p.1).name = p.2
  freed_eq : s.freed = s.gone
  tame : s.wild = false

/-- The condition: nothing that exists is removed, nothing mounted over changes, no mount of another
directory fails, and only mounted ones are unmounted, in vain. -/
def Meets (s : Vfs) : VfsOp → Prop
  | .add dir _ attr _ => attr &&& attrDirectory = 0 ∨ (s.heap dir).mounted = false
  | .remove dir name => (s.heap dir).mounted = false ∧ ∀ p ∈ s.tree dir, vsfileMatch name p.2 = false
  | .mount dir _ _ err => err = .none ∨ (s.heap dir).mounted = true
  | .unmount dir err => (s.heap dir).mounted = true ∧ err ≠ .none

/-! ### The calls, one by one -/

@[simp] theorem setFile_self (s : Vfs) (a : Addr) (f : VfsFile) : (s.setFile a f).heap a = f :=
  update_self ..

theorem setFile_ne (s : Vfs) {a b : Addr} (f : VfsFile) (h : b ≠ a) : (s.setFile a f).heap b = s.heap b :=
  update_of_ne h ..

theorem getchildLoop_spec (s : Vfs) (name : List UInt8) : ∀ (xs : List Addr) (f : ℕ) (idx : UInt32) (p : Option Addr),
    Chain (fun a => (s.heap a).next) p xs → xs.length ≤ f →
    s.getchildLoop (some name) f idx p = some (xs.find? fun a => vsfileMatch name (s.heap a).name)
  | [], f, _, _, h, _ => by
    rw [chain_nil.mp h]
    cases f <;> rfl
  | x :: xs, 0, _, _, _, hf => by cases hf
  | x :: xs, f + 1, idx, p, h, hf => by
    obtain ⟨rfl, hnext⟩ := chain_cons.mp h
    unfold getchildLoop
    by_cases hm : vsfileMatch name (s.heap x).name = true
    · simp [hm]
    · simp only [hm]
      rw [find?_cons_of_neg (by simpa using hm)]
      exact getchildLoop_spec s name xs f (idx - 1) _ hnext (Nat.le_of_succ_le_succ hf)

variable {ops : Addr → Bool} {root : Addr} {s : Vfs}

/-- What every call that meets the condition keeps. -/
structure Inv (ops : Addr → Bool) (root : Addr) (s : Vfs) : Prop extends Correct root s where
  vfs : ∀ d, Live root s d → (s.heap d).vfs = true
  table : ∀ d, Live root s d → (s.heap d).mounted = true → ∃ op, (s.heap d).ptr = some op ∧ ops op = true
  bare : ∀ d, ¬ Live root s d → s.tree d = []

theorem Live.child {d : Addr} {p : Addr × List UInt8} (h : p ∈ s.tree d) : Live root s p.1 :=
  .inr ⟨d, List.mem_map_of_mem h⟩

theorem Inv.getchild (h : Inv ops root s) {dir : Addr} (hlive : Live root s dir) (hm : (s.heap dir).mounted = false)
    (name : List UInt8) :
    s.getchild dir (some name) 0 = some (((s.tree dir).find? fun p => vsfileMatch name p.2).map Prod.fst) := by
  have hchain := h.children dir hlive hm
  unfold Vfs.getchild
  rw [if_neg (by simp [hm]), getchildLoop_spec s name _ walkFuel 0 _ hchain hchain.length_le, find?_map]
  congr 2
  apply find?_congr
  intro p hp
  simp only [Function.comp_apply, h.names dir p hp]

theorem Inv.remove (h : Inv ops root s) {dir : Addr} {name : List UInt8} (hlive : Live root s dir)
    (hm : Meets s (.remove dir name)) : s.removefile dir name = some (.fail, s) := by
  obtain ⟨hmount, hno⟩ := hm
  unfold removefile
  rw [h.getchild hlive hmount, find?_eq_none.mpr fun p hp => by simp [hno p hp]]
  rfl

/-- An add fails and changes nothing, or links the new directory. -/
theorem Inv.add_cases (h : Inv ops root s) {dir : Addr} {name : List UInt8} {attr : UInt8} {alloc : Option Addr}
    (hlive : Live root s dir) (hm : Meets s (.add dir name attr alloc)) :
    (∃ err, err ≠ .none ∧ s.addfile dir name attr alloc = some (err, s)) ∨
      ∃ a, alloc = some a ∧ (s.heap dir).mounted = false ∧
        s.addfile dir name attr alloc = some (.none, s.link dir a name attr) := by
  unfold addfile
  by_cases hattr : attr &&& attrDirectory = 0
  · exact .inl ⟨.fail, by decide, if_pos hattr⟩
  have hmount : (s.heap dir).mounted = false := hm.resolve_left hattr
  rw [if_neg hattr, h.getchild hlive hmount, map_some]
  cases (s.tree dir).find? fun p => vsfileMatch name p.2 with
  | some p => exact .inl ⟨.fail, by decide, rfl⟩
  | none =>
    cases alloc with
    | none => exact .inl ⟨.notEnoughResources, by decide, rfl⟩
    | some a => exact .inr ⟨a, rfl, hmount, rfl⟩

section
variable {dir a : Addr} {name : List UInt8} {attr : UInt8}

theorem link_new (s : Vfs) (hne : dir ≠ a) :
    (s.link dir a name attr).heap a = ⟨name, attr, true, false, none, none, (s.heap dir).ptr⟩ := by
  simp [link, setFile, hne, hne.symm]

theorem link_dir (s : Vfs) (hne : dir ≠ a) :
    (s.link dir a name attr).heap dir = { s.heap dir with ptr := some a } := by
  simp [link, setFile, hne]

theorem link_other (s : Vfs) {b : Addr} (ha : b ≠ a) (hd : b ≠ dir) :
    (s.link dir a name attr).heap b = s.heap b := by
  simp [link, setFile, ha, hd]

/-- Only the head of the children changes where something was. -/
theorem link_old (s : Vfs) (hne : dir ≠ a) {b : Addr} (ha : b ≠ a) :
    ((s.link dir a name attr).heap b).name = (s.heap b).name ∧
      ((s.link dir a name attr).heap b).vfs = (s.heap b).vfs ∧
      ((s.link dir a name attr).heap b).mounted = (s.heap b).mounted ∧
      ((s.link dir a name attr).heap b).next = (s.heap b).next := by
  by_cases hd : b = dir
  · subst hd
    rw [link_dir s hne]
    exact ⟨rfl, rfl, rfl, rfl⟩
  · rw [link_other s ha hd]
    exact ⟨rfl, rfl, rfl, rfl⟩

theorem Inv.link (h : Inv ops root s) (alloc : Option Addr) (halloc : alloc = some a) (hlive : Live root s dir)
    (hnew : ¬ Live root s a) (hm : (s.heap dir).mounted = false) :
    Inv ops root ((s.link dir a name attr).promise (.add dir name attr alloc)) := by
  subst halloc
  have hne : dir ≠ a := fun he => hnew (he ▸ hlive)
  have hbare := h.bare a hnew
  have holds : ∀ d, ∀ p ∈ s.tree d, p.1 ≠ a := fun d p hp he => hnew (he ▸ .child hp)
  set s' := (s.link dir a name attr).promise (.add dir name attr (some a))
  have hheap : s'.heap = (s.link dir a name attr).heap := rfl
  have htree : s'.tree = Function.update s.tree dir ((a, name) :: s.tree dir) := rfl
  have hdir : s'.tree dir = (a, name) :: s.tree dir := by rw [htree, update_self]
  have hrest : ∀ d, d ≠ dir → s'.tree d = s.tree d := fun d hd => by rw [htree, update_of_ne hd]
  have hold : ∀ d, Live root s' d → d ≠ a → Live root s d := by
    rintro d (hd | ⟨e, he⟩) hda
    · exact .inl hd
    · by_cases hed : e = dir
      · subst hed
        rw [hdir, map_cons, mem_cons] at he
        exact .inr ⟨e, he.resolve_left hda⟩
      · rw [hrest e hed] at he
        exact .inr ⟨e, he⟩
  have hmore : ∀ d, Live root s d → Live root s' d := by
    rintro d (hd | ⟨e, he⟩)
    · exact .inl hd
    · by_cases hed : e = dir
      · subst hed
        refine .inr ⟨e, ?_⟩
        rw [hdir, map_cons]
        exact mem_cons_of_mem _ he
      · exact .inr ⟨e, (hrest e hed).symm ▸ he⟩
  have hnext : ∀ d, ∀ b ∈ (s.tree d).map Prod.fst, (s'.heap b).next = (s.heap b).next := by
    intro d b hb
    obtain ⟨p, hp, rfl⟩ := List.mem_map.mp hb
    rw [hheap]
    exact (link_old s hne (holds d p hp)).2.2.2
  exact {
    children := by
      intro d hd hdm
      by_cases hda : d = a
      · subst hda
        rw [hrest d (Ne.symm hne), hbare, hheap, link_new s hne]
        rfl
      have hdl := hold d hd hda
      by_cases hdd : d = dir
      · subst hdd
        rw [hdir, hheap, link_dir s hne]
        refine chain_cons.mpr ⟨rfl, ?_⟩
        rw [link_new s hne]
        exact (h.children d hdl hm).congr (hnext d)
      · rw [hheap, link_other s hda hdd] at hdm ⊢
        rw [hrest d hdd]
        exact (h.children d hdl hdm).congr (hnext d)
    names := by
      have hname : ∀ d, ∀ p ∈ s.tree d, (s'.heap p.1).name = p.2 := fun d p hp => by
        rw [hheap, (link_old s hne (holds d p hp)).1, h.names d p hp]
      intro d p hp
      by_cases hdd : d = dir
      · subst hdd
        rw [hdir, mem_cons] at hp
        rcases hp with rfl | hp
        · rw [hheap, link_new s hne]
        · exact hname d p hp
      · rw [hrest d hdd] at hp
        exact hname d p hp
    freed_eq := h.freed_eq
    tame := h.tame
    vfs := by
      intro d hd
      by_cases hda : d = a
      · rw [hda, hheap, link_new s hne]
      · rw [hheap, (link_old s hne hda).2.1]
        exact h.vfs d (hold d hd hda)
    table := by
      intro d hd hdm
      by_cases hda : d = a
      · rw [hda, hheap, link_new s hne] at hdm
        cases hdm
      rw [hheap, (link_old s hne hda).2.2.1] at hdm
      have hdd : d ≠ dir := by
        rintro rfl
        rw [hm] at hdm
        cases hdm
      rw [hheap, link_other s hda hdd]
      exact h.table d (hold d hd hda) hdm
    bare := by
      intro d hd
      have hdd : d ≠ dir := fun he => hd (hmore d (he ▸ hlive))
      rw [hrest d hdd]
      exact h.bare d fun hl => hd (hmore d hl) }

end

/-- A directory with a file system over it: its children are not looked at. -/
theorem Inv.cover (h : Inv ops root s) {dir op : Addr} {f : VfsFile} (hop : ops op = true)
    (hname : f.name = (s.heap dir).name) (hvfs : f.vfs = (s.heap dir).vfs) (hnext : f.next = (s.heap dir).next)
    (hm : f.mounted = true) (hptr : f.ptr = some op) : Inv ops root (s.setFile dir f) := by
  have hkeep : ∀ b, ((s.setFile dir f).heap b).name = (s.heap b).name ∧
      ((s.setFile dir f).heap b).vfs = (s.heap b).vfs ∧ ((s.setFile dir f).heap b).next = (s.heap b).next := by
    intro b
    by_cases hb : b = dir
    · subst hb
      rw [setFile_self]
      exact ⟨hname, hvfs, hnext⟩
    · rw [setFile_ne s f hb]
      exact ⟨rfl, rfl, rfl⟩
  exact {
    children := by
      intro d hd hdm
      have hne : d ≠ dir := by
        rintro rfl
        rw [setFile_self, hm] at hdm
        cases hdm
      rw [setFile_ne s f hne] at hdm ⊢
      exact (h.children d hd hdm).congr fun b _ => (hkeep b).2.2
    names := fun d p hp => (hkeep p.1).1.trans (h.names d p hp)
    freed_eq := h.freed_eq
    tame := h.tame
    vfs := fun d hd => (hkeep d).2.1.trans (h.vfs d hd)
    table := by
      intro d hd hdm
      by_cases hne : d = dir
      · subst hne
        exact ⟨op, by rw [setFile_self, hptr], hop⟩
      · rw [setFile_ne s f hne] at hdm ⊢
        exact h.table d hd hdm
    bare := h.bare }

theorem Inv.mount (h : Inv ops root s) {dir op : Addr} (param : Option Addr) {err : Vsf.Err} (hlive : Live root s dir)
    (hop : ops op = true) (hm : Meets s (.mount dir op param err)) :
    ∃ s', s.mount dir op param err = some (err, s') ∧ Inv ops root s' := by
  unfold Vfs.mount
  rw [if_neg (by simp [h.vfs dir hlive])]
  refine ⟨_, rfl, ?_⟩
  by_cases herr : err = .none
  · rw [if_pos herr]
    exact h.cover hop rfl rfl rfl rfl rfl
  · rw [if_neg herr]
    exact h.cover hop rfl rfl rfl (hm.resolve_left herr) rfl

theorem Inv.unmount (h : Inv ops root s) {dir : Addr} {err : Vsf.Err} (hlive : Live root s dir)
    (hm : Meets s (.unmount dir err)) : s.unmount ops dir err = some (err, s) := by
  obtain ⟨hmounted, herr⟩ := hm
  obtain ⟨op, hptr, hop⟩ := h.table dir hlive hmounted
  unfold Vfs.unmount
  rw [if_neg (by simp [h.vfs dir hlive]), hptr]
  simp only [hop, herr, reduceCtorEq, if_false]

theorem Inv.step (h : Inv ops root s) {op : VfsOp} (hl : Legal ops root s op) (hm : Meets s op) :
    Inv ops root (s.step ops op) := by
  unfold Vfs.step call
  cases op with
  | add dir name attr alloc =>
    rcases h.add_cases hl.1 hm with ⟨err, herr, hadd⟩ | ⟨a, halloc, hmount, hadd⟩
    · simp only [hadd, herr, if_false]
      exact h
    · simp only [hadd, if_true]
      exact h.link alloc halloc hl.1 (hl.2 a halloc) hmount
  | remove dir name =>
    simp only [h.remove hl hm, reduceCtorEq, if_false]
    exact h
  | mount dir op param err =>
    obtain ⟨s', hmount, hinv⟩ := h.mount param hl.1 hl.2 hm
    simp only [hmount]
    by_cases herr : err = .none
    · rw [if_pos herr]
      exact hinv
    · rw [if_neg herr]
      exact hinv
  | unmount dir err =>
    simp only [h.unmount hl hm, hm.2, if_false]
    exact h

theorem start_inv (h : (system ops root).start s) : Inv ops root s := by
  obtain ⟨hroot, hfreed, hwild, htree, hgone⟩ := h
  have hlive : ∀ d, Live root s d → d = root := by
    rintro d (rfl | ⟨e, he⟩)
    · rfl
    · simp [htree] at he
  exact {
    children := fun d hd _ => by
      rw [hlive d hd, hroot, htree]
      rfl
    names := fun d p hp => by simp [htree] at hp
    freed_eq := by rw [hfreed, hgone]
    tame := hwild
    vfs := fun d hd => by rw [hlive d hd, hroot]
    table := fun d hd hm => by
      rw [hlive d hd, hroot] at hm
      cases hm
    bare := fun d _ => by rw [htree] }

/-- **The directories and the results**: the children are those promised, as long as the calls meet the
condition. -/
theorem promises_kept (h : ((system ops root).restrict Meets).Reach s) : Correct root s := by
  refine (h.invariant (P := Inv ops root) (fun s hs => start_inv hs) ?_).toCorrect
  rintro s op s' _ hi ⟨hm, hl, rfl⟩
  exact hi.step hl hm

theorem reach_step (h : (system ops root).Reach s) (op : VfsOp) (hl : Legal ops root s op) :
    (system ops root).Reach (s.step ops op) := h.step ⟨hl, rfl⟩

theorem reach_meets (h : ((system ops root).restrict Meets).Reach s) (op : VfsOp) (hm : Meets s op)
    (hl : Legal ops root s op) : ((system ops root).restrict Meets).Reach (s.step ops op) := h.step ⟨hm, hl, rfl⟩

/-- A memory with nothing in it but the root. -/
def rootOnly : Vfs where
  heap _ := ⟨rootName, attrDirectory, true, false, none, none, none⟩
  freed := []
  wild := false
  tree _ := []
  gone := []

theorem not_live_rootOnly {a : Addr} (h : a ≠ 0) : ¬ Live 0 rootOnly a := by
  rintro (rfl | ⟨d, hd⟩)
  · exact h rfl
  · cases hd

/-- A directory is added, a file system is mounted over it, and then another of the same name is added. -/
theorem promises_kept_mounted : ∃ s, s.tree 0 = [(1, [97])] ∧ (s.heap 1).mounted = true ∧ Correct 0 s := by
  have hstart : ((system (fun _ => true) 0).restrict Meets).Reach rootOnly := .start ⟨rfl, rfl, rfl, rfl, rfl⟩
  have hadd := reach_meets hstart (.add 0 [97] attrDirectory (some 1)) (.inr rfl)
    ⟨.inl rfl, fun a ha => not_live_rootOnly (by rw [← some.inj ha]; decide)⟩
  have hmount := reach_meets hadd (.mount 1 7 none .none) (.inl rfl) ⟨.inr ⟨0, by decide⟩, rfl⟩
  have hagain := reach_meets hmount (.add 0 [97] attrDirectory none) (.inr (by decide))
    ⟨.inl rfl, fun a ha => (by cases ha)⟩
  exact ⟨_, by decide, by decide, promises_kept hagain⟩

/-- A directory is added and removed: it is gone, and the result says it is
not. -/
theorem promises_break : ¬ ∀ s, (system (fun _ => false) 0).Reach s → Correct 0 s := by
  intro h
  have hstart : (system (fun _ => false) 0).Reach rootOnly := .start ⟨rfl, rfl, rfl, rfl, rfl⟩
  have hadd := reach_step hstart (.add 0 [97] attrDirectory (some 1))
    ⟨.inl rfl, fun a ha => not_live_rootOnly (by rw [← some.inj ha]; decide)⟩
  have hremove := reach_step hadd (.remove 0 [97]) (.inl rfl)
  exact absurd (h _ hremove).freed_eq (by decide)

end Vfs
end Vsf
