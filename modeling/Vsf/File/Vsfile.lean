/-
# Looking a file up by its path

`vsfile_getfile` walks a path; the position of the walk is global, so a critical section is held
from the first to the last component. A child is found by a prefix of what is left (`vsfile_match`).
Where a separator follows a file that is no directory, the walk returns without leaving the critical
section. A lookup is right if there is no such place on its path (`Clear`), among any other callers.
-/
import Mathlib
import Vsf.Lib.System
import Vsf.Framework.Sync
import Vsf.File.Name

namespace Vsf

open File List Option

/-- A name as a component of a path: not empty, without separators. -/
structure Component (c : List UInt8) : Prop where
  nonempty : c ≠ []
  no_div : ∀ ch ∈ c, isDiv ch = false

/-- The files of a memory file system, pointed to by `ι`; `child` ends at an entry without a name. A mounted
directory counts as one with the children of the root it looks up in. -/
structure Memfs (ι : Type) where
  name : ι → List UInt8
  /-- `attr & VSFILE_ATTR_DIRECTORY`. -/
  directory : ι → Bool
  child : ι → List ι
  names : ∀ d, directory d = true → ∀ f ∈ child d, Component (name f)
  distinct : ∀ d, directory d = true → ((child d).map name).Nodup

namespace Memfs

variable {ι : Type} (fs : Memfs ι)

/-- The loop of `vsfile_memfs_getchild`. -/
def getchildLoop (name : Option (List UInt8)) : UInt32 → List ι → Option ι
  | _, [] => none
  | idx, c :: cs =>
    if (match name with
        | some name => vsfileMatch name (fs.name c)
        | none => idx == 0) then some c
    else getchildLoop name (idx - 1) cs

/-- `vsfile_memfs_getchild`: what it returns, and `*file`. -/
def getchild (dir : ι) (name : Option (List UInt8)) (idx : UInt32) : File.Err × Option ι :=
  match fs.getchildLoop name idx (fs.child dir) with
  | none => (.notAvailable, none)
  | some file => (.none, some file)

end Memfs

/-- How a round of `vsfile_getfile` ends: it goes on behind a child, is over, or returns an error, properly
or not. -/
inductive Round (ι : Type) where
  | more (file : ι) (name : List UInt8)
  | closed (file : ι)
  | missing (err : File.Err) (file : Option ι)
  | returned (err : File.Err)

/-- Where a caller of `vsfile_getfile` is. -/
inductive GetPc where
  | idle
  /-- At the `vsfsm_pt_wfe`. -/
  | waiting
  | looping
  /-- At `end:`. -/
  | leaving (err : File.Err)
  | done (err : File.Err)
  deriving DecidableEq

/-- A caller: its arguments, and `*file`. Its path has the components `comps`, and maybe a separator behind. -/
structure GetCaller (ι : Type) where
  pc : GetPc
  dir : ι
  name : List UInt8
  comps : List (List UInt8)
  trail : Bool
  file : Option ι

/-- `vsfile.srch`, and the callers by their state machines. -/
structure Vsfile (ι : Type) where
  crit : Sync.State
  curFile : ι
  curName : List UInt8
  callers : Addr → GetCaller ι

namespace Vsfile

variable {ι : Type}

/-! ### The walk -/

/-- `getchild` for the rest of the path; closing the file left behind does nothing. -/
def descend (fs : Memfs ι) (file : ι) (name : List UInt8) : Round ι :=
  match fs.getchild file (some name) 0 with
  | (_, some child) => .more child (name.drop (fs.name child).length)
  | (err, none) => .missing err none

/-- A round of the loop, and what is behind it when the path ends. -/
def iterate (fs : Memfs ι) (file : ι) : List UInt8 → Round ι
  | [] => .closed file
  | ch :: rest =>
    if isDiv ch then
      if fs.directory file = false then .returned .fail
      else if rest = [] then .closed file
      else descend fs file rest
    else descend fs file (ch :: rest)

/-! ### Paths -/

/-- Behind a component: nothing, a separator, or one and the next component. -/
inductive Rest : List UInt8 → List (List UInt8) → Bool → Prop
  | nil : Rest [] [] false
  | trail {ch : UInt8} (hch : isDiv ch = true) : Rest [ch] [] true
  | cons {ch : UInt8} {c p : List UInt8} {cs : List (List UInt8)} {trail : Bool} (hch : isDiv ch = true)
      (hc : Component c) (h : Rest p cs trail) : Rest (ch :: (c ++ p)) (c :: cs) trail

/-- A path: components and single separators, maybe before and behind. -/
inductive Path : List UInt8 → List (List UInt8) → Bool → Prop
  | rest {p : List UInt8} {cs : List (List UInt8)} {trail : Bool} (h : Rest p cs trail) : Path p cs trail
  | cons {c p : List UInt8} {cs : List (List UInt8)} {trail : Bool} (hc : Component c) (h : Rest p cs trail) :
      Path (c ++ p) (c :: cs) trail

/-- The components lead from one file to another. -/
inductive Follows (fs : Memfs ι) : ι → List (List UInt8) → ι → Prop
  | nil (file : ι) : Follows fs file [] file
  | cons {dir child file : ι} {cs : List (List UInt8)} (hdir : fs.directory dir = true)
      (hchild : child ∈ fs.child dir) (h : Follows fs child cs file) : Follows fs dir (fs.name child :: cs) file

/-- No file on the way that is no directory has a separator behind it. -/
def Clear (fs : Memfs ι) : ι → List (List UInt8) → Bool → Prop
  | file, [], trail => trail = true → fs.directory file = true
  | file, c :: cs, trail => fs.directory file = true ∧
    ∀ child ∈ fs.child file, fs.name child = c → Clear fs child cs trail

/-! ### The callers -/

def setCaller (s : Vsfile ι) (sm : Addr) (c : GetCaller ι) : Vsfile ι :=
  { s with callers := Function.update s.callers sm c }

/-- The search begins. -/
def enter (s : Vsfile ι) (sm : Addr) (c : GetCaller ι) : Vsfile ι :=
  { s.setCaller sm { c with pc := .looping } with curName := c.name, curFile := c.dir }

/-- What a round leaves. -/
def round (s : Vsfile ι) (sm : Addr) : Round ι → Vsfile ι
  | .more file name => { s.setCaller sm { s.callers sm with file := some file } with curFile := file, curName := name }
  | .closed file => s.setCaller sm { s.callers sm with pc := .leaving .none, file := some file }
  | .missing err file => s.setCaller sm { s.callers sm with pc := .leaving err, file := file }
  | .returned err => s.setCaller sm { s.callers sm with pc := .done err }

/-- What may happen next. -/
inductive Act (ι : Type) where
  | call (sm : Addr) (dir : ι) (name : List UInt8) (comps : List (List UInt8)) (trail : Bool)
  /-- `VSFILE_EVT_CRIT` arrives. -/
  | wake (sm : Addr)
  | loop (sm : Addr)
  | leave (sm : Addr)
  /-- A `pending_next` is written elsewhere. -/
  | other (sm : Addr) (v : Option Addr)

/-- A call, a round of the loop, or the end; those of other callers may come between. -/
inductive Step (fs : Memfs ι) : Vsfile ι → Act ι → Vsfile ι → Prop
  | enter {s : Vsfile ι} {sm : Addr} {dir : ι} {name : List UInt8} {comps : List (List UInt8)} {trail : Bool}
      {crit : Sync.State} (file : Option ι) (hpc : (s.callers sm).pc = .idle ∨ ∃ err, (s.callers sm).pc = .done err)
      (hdir : fs.directory dir = true) (hname : Path name comps trail) (hfree : s.crit.sync.curValue > 0)
      (hcrit : Sync.step s.crit (.decrease sm) = some crit) :
      Step fs s (.call sm dir name comps trail)
        ({ s with crit := crit }.enter sm ⟨.looping, dir, name, comps, trail, file⟩)
  | wait {s : Vsfile ι} {sm : Addr} {dir : ι} {name : List UInt8} {comps : List (List UInt8)} {trail : Bool}
      {crit : Sync.State} (file : Option ι) (hpc : (s.callers sm).pc = .idle ∨ ∃ err, (s.callers sm).pc = .done err)
      (hdir : fs.directory dir = true) (hname : Path name comps trail) (hbusy : ¬ s.crit.sync.curValue > 0)
      (hcrit : Sync.step s.crit (.decrease sm) = some crit) :
      Step fs s (.call sm dir name comps trail)
        ({ s with crit := crit }.setCaller sm ⟨.waiting, dir, name, comps, trail, file⟩)
  | wake {s : Vsfile ι} {sm : Addr} (hpc : (s.callers sm).pc = .waiting) (hevt : sm ∈ s.crit.holders) :
      Step fs s (.wake sm) (s.enter sm (s.callers sm))
  | loop {s : Vsfile ι} {sm : Addr} (hpc : (s.callers sm).pc = .looping) :
      Step fs s (.loop sm) (s.round sm (iterate fs s.curFile s.curName))
  | leave {s : Vsfile ι} {sm : Addr} {err : File.Err} {crit : Sync.State} (hpc : (s.callers sm).pc = .leaving err)
      (hcrit : Sync.step s.crit (.increase (some sm) fun _ _ => .none) = some crit) :
      Step fs s (.leave sm) ({ s with crit := crit }.setCaller sm { s.callers sm with pc := .done err })
  | other {s : Vsfile ι} {sm : Addr} {v : Option Addr} {crit : Sync.State}
      (hfree : sm ∉ s.crit.waiting.map Prod.fst) (hcrit : Sync.step s.crit (.other sm v) = some crit) :
      Step fs s (.other sm v) { s with crit := crit }

/-- From `vsfile_init` on. -/
def system (fs : Memfs ι) : System (Vsfile ι) (Act ι) where
  start s := (Sync.system 1 1).start s.crit ∧ ∀ sm, (s.callers sm).pc = .idle
  step := Step fs

/-! ### What a lookup owes -/

/-- The answer: the file the components lead to, or an error. -/
def Answer (fs : Memfs ι) (c : GetCaller ι) (err : File.Err) : Prop :=
  (err = .none ∧ ∃ f, c.file = some f ∧ ∀ f', Follows fs c.dir c.comps f' ↔ f' = f) ∨
    (err ≠ .none ∧ ∀ f, ¬ Follows fs c.dir c.comps f)

/-- What the lookups owe: those over were right and left the critical section; while somebody waits,
somebody is inside and gets on. -/
structure Correct (fs : Memfs ι) (s : Vsfile ι) : Prop where
  answers : ∀ sm err, (s.callers sm).pc = .done err → Answer fs (s.callers sm) err
  released : ∀ sm err, (s.callers sm).pc = .done err → sm ∉ s.crit.holders
  one : s.crit.holders.length ≤ 1
  inside : s.crit.waiting ≠ [] → s.crit.holders ≠ []
  goes : ∀ sm ∈ s.crit.holders, ∃ s', Step fs s (.wake sm) s' ∨ Step fs s (.loop sm) s' ∨ Step fs s (.leave sm) s'
  shrinks : ∀ sm f name, (s.callers sm).pc = .looping → iterate fs s.curFile s.curName = .more f name →
    name.length < s.curName.length

/-- The condition under which they do: the paths looked up are clear. -/
def Meets (fs : Memfs ι) (_ : Vsfile ι) : Act ι → Prop
  | .call _ dir _ comps trail => Clear fs dir comps trail
  | _ => True

/-! ### A component -/

variable {fs : Memfs ι}

variable {c p name : List UInt8} {cs : List (List UInt8)} {trail : Bool} {d g : ι}

/-- A name without separators is a prefix up to a separator only of itself. -/
theorem match_component (hc : Component c) (hn : Component name)
    (hp : p = [] ∨ ∃ ch q, p = ch :: q ∧ isDiv ch = true) : vsfileMatch (c ++ p) name = true ↔ name = c := by
  unfold vsfileMatch
  rw [Bool.and_eq_true, isPrefixOf_iff_prefix]
  constructor
  · rintro ⟨hpre, hend⟩
    rcases prefix_or_prefix_of_prefix hpre (prefix_append c p) with ⟨t, rfl⟩ | ⟨t, rfl⟩
    · -- what is left of the component would begin with a separator
      cases t with
      | nil => exact (append_nil name).symm
      | cons ch t =>
        rw [append_assoc, drop_left] at hend
        have hch := hc.no_div ch (by simp)
        simp only [cons_append] at hend
        rw [hch] at hend
        cases hend
    · cases t with
      | nil => exact append_nil c
      | cons ch t =>
        have hch := hn.no_div ch (by simp)
        obtain ⟨q, hq⟩ := (prefix_append_right_inj c).mp hpre
        rcases hp with rfl | ⟨ch', q', rfl, hdiv⟩
        · simp at hq
        · obtain ⟨rfl, -⟩ := List.cons.inj hq
          rw [hch] at hdiv
          cases hdiv
  · rintro rfl
    refine ⟨prefix_append _ _, ?_⟩
    rw [drop_left]
    rcases hp with rfl | ⟨ch, q, rfl, hdiv⟩
    · rfl
    · exact hdiv

theorem Rest.begins (h : Rest p cs trail) : p = [] ∨ ∃ ch q, p = ch :: q ∧ isDiv ch = true := by
  cases h with
  | nil => exact .inl rfl
  | trail hch => exact .inr ⟨_, _, rfl, hch⟩
  | cons hch => exact .inr ⟨_, _, rfl, hch⟩

theorem getchildLoop_spec (hc : Component c)
    (hp : p = [] ∨ ∃ ch q, p = ch :: q ∧ isDiv ch = true) : ∀ (fs' : List ι) (idx : UInt32),
    (∀ f ∈ fs', Component (fs.name f)) →
    (∃ f ∈ fs', fs.name f = c ∧ fs.getchildLoop (some (c ++ p)) idx fs' = some f) ∨
      (∀ f ∈ fs', fs.name f ≠ c) ∧ fs.getchildLoop (some (c ++ p)) idx fs' = none
  | [], _, _ => .inr ⟨by simp, rfl⟩
  | f :: fs', idx, hn => by
    have hmatch := match_component hc (hn f mem_cons_self) hp
    unfold Memfs.getchildLoop
    by_cases hf : fs.name f = c
    · exact .inl ⟨f, mem_cons_self, hf, by simp [hmatch.mpr hf]⟩
    · have hno : ¬ vsfileMatch (c ++ p) (fs.name f) = true := fun hm => hf (hmatch.mp hm)
      rcases getchildLoop_spec hc hp fs' (idx - 1) fun g hg => hn g (mem_cons_of_mem _ hg) with
        ⟨g, hg, hname, hfind⟩ | ⟨hnone, hfind⟩
      · exact .inl ⟨g, mem_cons_of_mem _ hg, hname, by simp only [hno]; simpa using hfind⟩
      · refine .inr ⟨fun g hg => ?_, by simp only [hno]; simpa using hfind⟩
        rcases mem_cons.mp hg with rfl | hm
        · exact hf
        · exact hnone g hm

theorem child_unique {f : ι} (hd : fs.directory d = true) (hf : f ∈ fs.child d) (hg : g ∈ fs.child d)
    (h : fs.name f = fs.name g) : f = g := by
  have hnodup := fs.distinct d hd
  exact inj_on_of_nodup_map hnodup hf hg h

/-! ### A round -/

/-- Where a round ends: closer to the file, at the file, or where there is
none. -/
inductive Rounded (fs : Memfs ι) (d : ι) (cs : List (List UInt8)) (trail : Bool) (name : List UInt8) : Round ι → Prop
  | more {f : ι} {p : List UInt8} {cs' : List (List UInt8)} (hrest : Rest p cs' trail)
      (hclear : Clear fs f cs' trail) (hleads : ∀ g, Follows fs d cs g ↔ Follows fs f cs' g)
      (hshort : p.length < name.length) : Rounded fs d cs trail name (.more f p)
  | closed (hleads : ∀ g, Follows fs d cs g ↔ g = d) : Rounded fs d cs trail name (.closed d)
  | missing (hleads : ∀ g, ¬ Follows fs d cs g) : Rounded fs d cs trail name (.missing .notAvailable none)

theorem follows_nil : Follows fs d [] g ↔ g = d := by
  constructor
  · rintro ⟨⟩
    rfl
  · rintro rfl
    exact .nil _

theorem descend_spec (hc : Component c) (hrest : Rest p cs trail) (hclear : Clear fs d (c :: cs) trail)
    (hname : p.length < name.length) : Rounded fs d (c :: cs) trail name (descend fs d (c ++ p)) := by
  obtain ⟨hd, hnext⟩ := hclear
  unfold descend Memfs.getchild
  rcases getchildLoop_spec hc hrest.begins (fs.child d) 0 (fs.names d hd) with ⟨f, hf, rfl, hfind⟩ | ⟨hnone, hfind⟩
  · rw [hfind]
    dsimp only
    rw [drop_left]
    refine .more hrest (hnext f hf rfl) (fun g => ⟨?_, .cons hd hf⟩) hname
    generalize hq : fs.name f = q
    rintro (_ | ⟨hd', hchild, hg⟩)
    exact child_unique hd hchild hf hq.symm ▸ hg
  · rw [hfind]
    refine .missing fun g hg => ?_
    cases hg with
    | cons hd' hchild hg => exact hnone _ hchild rfl

theorem iterate_spec (hpath : Path name cs trail)
    (hclear : Clear fs d cs trail) : Rounded fs d cs trail name (iterate fs d name) := by
  cases hpath with
  | rest h =>
    cases h with
    | nil => exact .closed fun g => follows_nil
    | trail hch =>
      have hd : fs.directory d = true := hclear rfl
      rw [iterate, if_pos hch, if_neg (by simp [hd]), if_pos rfl]
      exact .closed fun g => follows_nil
    | cons hch hc h =>
      have hd : fs.directory d = true := hclear.1
      rw [iterate, if_pos hch, if_neg (by simp [hd]), if_neg (by simp [hc.nonempty])]
      exact descend_spec hc h hclear (by simp)
  | @cons c p cs trail hc h =>
    cases c with
    | nil => exact absurd rfl hc.nonempty
    | cons ch c =>
      have hch := hc.no_div ch mem_cons_self
      show Rounded fs d _ trail _ (iterate fs d (ch :: (c ++ p)))
      rw [iterate, if_neg (by simp [hch])]
      exact descend_spec hc h hclear (by simp)

/-! ### The critical section -/

section
variable {y y' : Sync.State} {sm : Addr}

theorem crit_facts (h : ((Sync.system 1 1).restrict Sync.byHolder).Reach y) :
    Sync.Correct 1 y ∧ y.holders.length + y.sync.curValue.toNat = 1 := by
  obtain ⟨hc, -⟩ := Sync.reach_correct (Nat.le_refl _) h.of_restrict
  exact ⟨hc, Sync.holders_add (Nat.le_refl _) h⟩

theorem crit_step (h : ((Sync.system 1 1).restrict Sync.byHolder).Reach y) (op : Sync.Op) (hby : Sync.byHolder y op)
    (hl : Sync.legal y op) (hstep : Sync.step y op = some y') : ((Sync.system 1 1).restrict Sync.byHolder).Reach y' :=
  h.step ⟨hby, hl, hstep⟩

theorem crit_alone (h : ((Sync.system 1 1).restrict Sync.byHolder).Reach y) (hin : sm ∈ y.holders) :
    y.holders = [sm] := by
  obtain ⟨-, hsum⟩ := crit_facts h
  rcases hy : y.holders with _ | ⟨x, xs⟩
  · rw [hy] at hin
    cases hin
  · rw [hy, length_cons] at hsum
    obtain rfl : xs = [] := length_eq_zero_iff.mp (by omega)
    rw [hy, mem_singleton] at hin
    rw [hin]

theorem crit_inside (h : ((Sync.system 1 1).restrict Sync.byHolder).Reach y) (hw : y.waiting ≠ []) :
    y.holders ≠ [] := by
  obtain ⟨hc, hsum⟩ := crit_facts h
  intro hnil
  rw [hnil, length_nil] at hsum
  have hnone := hc.empty (UInt32.lt_iff_toNat_lt.mpr (by rw [UInt32.toNat_zero]; omega))
  have hch := hc.chain
  rw [hnone] at hch
  exact hw (map_eq_nil_iff.mp (hch.unique rfl))

theorem crit_enter (h : ((Sync.system 1 1).restrict Sync.byHolder).Reach y) (hfree : y.sync.curValue > 0)
    (hstep : Sync.step y (.decrease sm) = some y') :
    y.holders = [] ∧ y'.holders = [sm] ∧ y'.waiting = y.waiting := by
  obtain ⟨-, hsum⟩ := crit_facts h
  have hpos : 0 < y.sync.curValue.toNat := hfree
  have hnil : y.holders = [] := length_eq_zero_iff.mp (by omega)
  simp only [Sync.step, Sync.decrease, hfree, ↓reduceIte, map_some, Option.some.injEq] at hstep
  rw [← hstep]
  exact ⟨hnil, by simp [hnil], rfl⟩

theorem crit_wait (hbusy : ¬ y.sync.curValue > 0) (hstep : Sync.step y (.decrease sm) = some y') :
    y'.holders = y.holders ∧ y'.waiting.map Prod.fst = y.waiting.map Prod.fst ++ [sm] := by
  simp only [Sync.step, Sync.decrease, hbusy, ↓reduceIte, Option.map_map, map_eq_some_iff] at hstep
  obtain ⟨sync, -, hsync⟩ := hstep
  rw [← hsync]
  exact ⟨rfl, by simp⟩

theorem crit_leave (h : ((Sync.system 1 1).restrict Sync.byHolder).Reach y) (hin : sm ∈ y.holders)
    (hstep : Sync.step y (.increase (some sm) fun _ _ => .none) = some y') :
    (y'.holders = [] ∧ y'.waiting = y.waiting) ∨
      ∃ sm' ∈ y.waiting.map Prod.fst, y'.holders = [sm'] ∧ y'.waiting = y.waiting.filter fun p => p.1 ≠ sm' := by
  obtain ⟨hc, -⟩ := crit_facts h
  have halone := crit_alone h hin
  unfold Sync.step Sync.increase at hstep
  rcases hp : y.sync.smPending with _ | sm'
  · rw [hp] at hstep
    by_cases hroom : y.sync.curValue < y.sync.maxValue
    · simp [hroom] at hstep
      rw [← hstep]
      exact .inl ⟨by simp [halone], rfl⟩
    · simp [hroom] at hstep
      rw [← hstep]
      exact .inl ⟨by simp [halone], rfl⟩
  · obtain ⟨t, rest, hw, -⟩ := hc.first hp
    rw [hp] at hstep
    simp at hstep
    rw [← hstep]
    refine .inr ⟨sm', ?_, by simp [halone], by simp⟩
    rw [hw]
    simp

end

/-! ### The runs -/

/-- Where the search of a caller is: what is left leads where all of it leads. -/
def At (fs : Memfs ι) (c : GetCaller ι) (file : ι) (name : List UInt8) : Prop :=
  ∃ cs, Path name cs c.trail ∧ Clear fs file cs c.trail ∧
    ∀ g, Follows fs c.dir c.comps g ↔ Follows fs file cs g

/-- What holds of a caller. -/
def Sound (fs : Memfs ι) (s : Vsfile ι) (sm : Addr) : Prop :=
  match (s.callers sm).pc with
  | .idle => sm ∉ s.crit.holders ∧ sm ∉ s.crit.waiting.map Prod.fst
  | .waiting => (sm ∈ s.crit.holders → sm ∉ s.crit.waiting.map Prod.fst) ∧
    At fs (s.callers sm) (s.callers sm).dir (s.callers sm).name
  | .looping => sm ∈ s.crit.holders ∧ sm ∉ s.crit.waiting.map Prod.fst ∧ At fs (s.callers sm) s.curFile s.curName
  | .leaving err => sm ∈ s.crit.holders ∧ sm ∉ s.crit.waiting.map Prod.fst ∧ Answer fs (s.callers sm) err
  | .done err => sm ∉ s.crit.holders ∧ sm ∉ s.crit.waiting.map Prod.fst ∧ Answer fs (s.callers sm) err

structure Inv (fs : Memfs ι) (s : Vsfile ι) : Prop where
  crit : ((Sync.system 1 1).restrict Sync.byHolder).Reach s.crit
  sound : ∀ sm, Sound fs s sm

theorem Sound.keep {s s' : Vsfile ι} {sm : Addr} (h : Sound fs s sm) (hcaller : s'.callers sm = s.callers sm)
    (hin : sm ∈ s'.crit.holders ↔ sm ∈ s.crit.holders)
    (hwait : sm ∈ s'.crit.waiting.map Prod.fst ↔ sm ∈ s.crit.waiting.map Prod.fst)
    (hsrch : sm ∈ s.crit.holders → s'.curFile = s.curFile ∧ s'.curName = s.curName) : Sound fs s' sm := by
  unfold Sound at h ⊢
  rw [hcaller, hin, hwait]
  cases hpc : (s.callers sm).pc with
  | looping =>
    rw [hpc] at h
    obtain ⟨h1, h2⟩ := hsrch h.1
    rw [h1, h2]
    exact h
  | idle => rw [hpc] at h; exact h
  | waiting => rw [hpc] at h; exact h
  | leaving err => rw [hpc] at h; exact h
  | done err => rw [hpc] at h; exact h

@[simp] theorem setCaller_self (s : Vsfile ι) (sm : Addr) (c : GetCaller ι) : (s.setCaller sm c).callers sm = c :=
  Function.update_self ..

theorem setCaller_ne (s : Vsfile ι) {sm sm' : Addr} (c : GetCaller ι) (h : sm' ≠ sm) :
    (s.setCaller sm c).callers sm' = s.callers sm' := Function.update_of_ne h ..

theorem Sound.outside {s : Vsfile ι} {sm : Addr} (h : Sound fs s sm)
    (hpc : (s.callers sm).pc = .idle ∨ ∃ err, (s.callers sm).pc = .done err) :
    sm ∉ s.crit.holders ∧ sm ∉ s.crit.waiting.map Prod.fst := by
  unfold Sound at h
  rcases hpc with hpc | ⟨err, hpc⟩
  · rw [hpc] at h
    exact h
  · rw [hpc] at h
    exact ⟨h.1, h.2.1⟩

/-- Who waits for the token is at its `vsfsm_pt_wfe`. -/
theorem Sound.waits {s : Vsfile ι} {sm : Addr} (h : Sound fs s sm) (hw : sm ∈ s.crit.waiting.map Prod.fst) :
    (s.callers sm).pc = .waiting := by
  unfold Sound at h
  cases hpc : (s.callers sm).pc with
  | waiting => rfl
  | idle => rw [hpc] at h; exact absurd hw h.2
  | looping => rw [hpc] at h; exact absurd hw h.2.1
  | leaving err => rw [hpc] at h; exact absurd hw h.2.1
  | done err => rw [hpc] at h; exact absurd hw h.2.1

section
variable {s s' : Vsfile ι} {sm : Addr}

@[simp] theorem round_crit (r : Round ι) : (s.round sm r).crit = s.crit := by cases r <;> rfl

theorem round_ne {sm' : Addr} (r : Round ι) (h : sm' ≠ sm) : (s.round sm r).callers sm' = s.callers sm' := by
  cases r <;> exact setCaller_ne _ _ h

/-- A step leaves the others where they are: not inside, or it does not move the position. -/
theorem Inv.one_moves (h : Inv fs s) (sm : Addr) (hcrit : ((Sync.system 1 1).restrict Sync.byHolder).Reach s'.crit)
    (hothers : ∀ sm' ≠ sm, s'.callers sm' = s.callers sm' ∧
      (sm' ∈ s'.crit.holders ↔ sm' ∈ s.crit.holders) ∧
      (sm' ∈ s'.crit.waiting.map Prod.fst ↔ sm' ∈ s.crit.waiting.map Prod.fst) ∧
      (sm' ∈ s.crit.holders → s'.curFile = s.curFile ∧ s'.curName = s.curName))
    (hsm : Sound fs s' sm) : Inv fs s' := by
  refine ⟨hcrit, fun sm' => ?_⟩
  by_cases hne : sm' = sm
  · exact hne ▸ hsm
  · obtain ⟨h1, h2, h3, h4⟩ := hothers sm' hne
    exact (h.sound sm').keep h1 h2 h3 h4

theorem Inv.round (h : Inv fs s) (hpc : (s.callers sm).pc = .looping) :
    Inv fs (s.round sm (iterate fs s.curFile s.curName)) := by
  have hs := h.sound sm
  unfold Sound at hs
  rw [hpc] at hs
  obtain ⟨hin, hwait, cs, hpath, hclear, hleads⟩ := hs
  have halone := crit_alone h.crit hin
  apply h.one_moves sm (by rw [round_crit]; exact h.crit)
  · intro sm' hne
    rw [round_crit]
    refine ⟨round_ne _ hne, Iff.rfl, Iff.rfl, fun hm => ?_⟩
    rw [halone] at hm
    exact absurd (mem_singleton.mp hm) hne
  have hround : Rounded fs s.curFile cs _ s.curName (iterate fs s.curFile s.curName) := iterate_spec hpath hclear
  generalize iterate fs s.curFile s.curName = r at hround
  unfold Sound
  rw [round_crit]
  cases hround with
  | more hrest hclear' hnext hshort =>
    simp only [Vsfile.round, setCaller_self, hpc]
    exact ⟨hin, hwait, _, .rest hrest, hclear', fun g => (hleads g).trans (hnext g)⟩
  | closed hend =>
    simp only [Vsfile.round, setCaller_self]
    exact ⟨hin, hwait, .inl ⟨rfl, _, rfl, fun g => (hleads g).trans (hend g)⟩⟩
  | missing hnone =>
    simp only [Vsfile.round, setCaller_self]
    exact ⟨hin, hwait, .inr ⟨by decide, fun g hg => hnone g ((hleads g).mp hg)⟩⟩

theorem At.start {c : GetCaller ι} (hpath : Path c.name c.comps c.trail) (hclear : Clear fs c.dir c.comps c.trail) :
    At fs c c.dir c.name := ⟨c.comps, hpath, hclear, fun _ => Iff.rfl⟩

theorem Inv.enter (h : Inv fs s) {c : GetCaller ι} {crit : Sync.State}
    (hpc : (s.callers sm).pc = .idle ∨ ∃ err, (s.callers sm).pc = .done err) (hfree : s.crit.sync.curValue > 0)
    (hcrit : Sync.step s.crit (.decrease sm) = some crit) (hat : At fs c c.dir c.name) :
    Inv fs ({ s with crit := crit }.enter sm c) := by
  obtain ⟨hout, hwait⟩ := (h.sound sm).outside hpc
  obtain ⟨hnil, hone, hsame⟩ := crit_enter h.crit hfree hcrit
  apply h.one_moves sm (crit_step h.crit (.decrease sm) trivial hwait hcrit)
  · intro sm' hne
    refine ⟨setCaller_ne _ _ hne, ?_, ?_, fun hm => ?_⟩
    · show sm' ∈ crit.holders ↔ _
      simp [hone, hnil, hne]
    · show sm' ∈ crit.waiting.map Prod.fst ↔ _
      rw [hsame]
    · rw [hnil] at hm
      cases hm
  · unfold Sound
    simp only [Vsfile.enter, setCaller_self]
    refine ⟨?_, ?_, hat⟩
    · show sm ∈ crit.holders
      simp [hone]
    · show sm ∉ crit.waiting.map Prod.fst
      rw [hsame]
      exact hwait

theorem Inv.wait (h : Inv fs s) {c : GetCaller ι} {crit : Sync.State}
    (hpc : (s.callers sm).pc = .idle ∨ ∃ err, (s.callers sm).pc = .done err) (hbusy : ¬ s.crit.sync.curValue > 0)
    (hcrit : Sync.step s.crit (.decrease sm) = some crit) (hc : c.pc = .waiting) (hat : At fs c c.dir c.name) :
    Inv fs ({ s with crit := crit }.setCaller sm c) := by
  obtain ⟨hout, hwait⟩ := (h.sound sm).outside hpc
  obtain ⟨hsame, hmore⟩ := crit_wait hbusy hcrit
  apply h.one_moves sm (crit_step h.crit (.decrease sm) trivial hwait hcrit)
  · intro sm' hne
    refine ⟨setCaller_ne _ _ hne, ?_, ?_, fun _ => ⟨rfl, rfl⟩⟩
    · show sm' ∈ crit.holders ↔ _
      rw [hsame]
    · show sm' ∈ crit.waiting.map Prod.fst ↔ _
      rw [hmore, mem_append, mem_singleton, or_iff_left hne]
  · unfold Sound
    simp only [setCaller_self, hc]
    refine ⟨fun hm => ?_, hat⟩
    have hm : sm ∈ crit.holders := hm
    rw [hsame] at hm
    exact absurd hm hout

theorem Inv.wake (h : Inv fs s) (hpc : (s.callers sm).pc = .waiting) (hevt : sm ∈ s.crit.holders) :
    Inv fs (s.enter sm (s.callers sm)) := by
  have hs := h.sound sm
  unfold Sound at hs
  rw [hpc] at hs
  have halone := crit_alone h.crit hevt
  refine Inv.one_moves h sm (show _ from h.crit) ?_ ?_
  · intro sm' hne
    refine ⟨setCaller_ne _ _ hne, Iff.rfl, Iff.rfl, fun hm => ?_⟩
    rw [halone] at hm
    exact absurd (mem_singleton.mp hm) hne
  · unfold Sound
    simp only [Vsfile.enter, setCaller_self]
    exact ⟨hevt, hs.1 hevt, hs.2⟩

theorem Inv.leave (h : Inv fs s) {err : File.Err} {crit : Sync.State} (hpc : (s.callers sm).pc = .leaving err)
    (hcrit : Sync.step s.crit (.increase (some sm) fun _ _ => .none) = some crit) :
    Inv fs ({ s with crit := crit }.setCaller sm { s.callers sm with pc := .done err }) := by
  have hs := h.sound sm
  unfold Sound at hs
  rw [hpc] at hs
  obtain ⟨hin, hwait, hans⟩ := hs
  have halone := crit_alone h.crit hin
  have hreach : ((Sync.system 1 1).restrict Sync.byHolder).Reach crit :=
    crit_step h.crit (.increase (some sm) fun _ _ => .none) ⟨sm, hin, rfl⟩ (fun _ _ => rfl) hcrit
  rcases crit_leave h.crit hin hcrit with ⟨hnil, hsame⟩ | ⟨w, hw, hone, hless⟩
  · apply h.one_moves sm hreach
    · intro sm' hne
      refine ⟨setCaller_ne _ _ hne, ?_, ?_, fun _ => ⟨rfl, rfl⟩⟩
      · show sm' ∈ crit.holders ↔ _
        simp [hnil, halone, hne]
      · show sm' ∈ crit.waiting.map Prod.fst ↔ _
        rw [hsame]
    · unfold Sound
      simp only [setCaller_self]
      refine ⟨?_, ?_, hans⟩
      · show sm ∉ crit.holders
        simp [hnil]
      · show sm ∉ crit.waiting.map Prod.fst
        rw [hsame]
        exact hwait
  · have hwpc := (h.sound w).waits hw
    have hwne : w ≠ sm := fun he => hwait (he ▸ hw)
    have hmem : ∀ x, x ∈ crit.waiting.map Prod.fst ↔ x ∈ s.crit.waiting.map Prod.fst ∧ x ≠ w := by
      intro x
      rw [hless]
      simp only [List.mem_map, mem_filter, decide_eq_true_eq]
      constructor
      · rintro ⟨p, ⟨hp, hne⟩, rfl⟩
        exact ⟨⟨p, hp, rfl⟩, hne⟩
      · rintro ⟨⟨p, hp, rfl⟩, hne⟩
        exact ⟨p, ⟨hp, hne⟩, rfl⟩
    refine ⟨hreach, fun sm' => ?_⟩
    by_cases hsm : sm' = sm
    · subst hsm
      unfold Sound
      simp only [setCaller_self]
      refine ⟨?_, ?_, hans⟩
      · show sm' ∉ crit.holders
        rw [hone, mem_singleton]
        exact Ne.symm hwne
      · show sm' ∉ crit.waiting.map Prod.fst
        exact fun hm => hwait ((hmem sm').mp hm).1
    by_cases hsw : sm' = w
    · subst hsw
      have hs := h.sound sm'
      unfold Sound at hs ⊢
      rw [hwpc] at hs
      rw [setCaller_ne _ _ hsm]
      simp only [hwpc]
      exact ⟨fun _ hm => ((hmem sm').mp hm).2 rfl, hs.2⟩
    · refine (h.sound sm').keep (setCaller_ne _ _ hsm) ?_ ?_ fun _ => ⟨rfl, rfl⟩
      · show sm' ∈ crit.holders ↔ _
        simp [hone, halone, hsm, hsw]
      · show sm' ∈ crit.waiting.map Prod.fst ↔ _
        rw [hmem sm']
        exact and_iff_left hsw

theorem Inv.step {a : Act ι} (h : Inv fs s) (hm : Meets fs s a) (hst : Step fs s a s') : Inv fs s' := by
  cases hst with
  | enter file hpc hdir hname hfree hcrit => exact h.enter hpc hfree hcrit (.start hname hm)
  | wait file hpc hdir hname hbusy hcrit => exact h.wait hpc hbusy hcrit rfl (.start hname hm)
  | wake hpc hevt => exact h.wake hpc hevt
  | loop hpc => exact h.round hpc
  | leave hpc hcrit => exact h.leave hpc hcrit
  | @other sm v crit hfree hcrit =>
    have hreach := crit_step h.crit (.other sm v) trivial hfree hcrit
    obtain rfl := some.inj hcrit
    exact ⟨hreach, fun sm' => (h.sound sm').keep rfl Iff.rfl Iff.rfl fun _ => ⟨rfl, rfl⟩⟩

theorem Inv.goes (h : Inv fs s) (hin : sm ∈ s.crit.holders) :
    ∃ s', Step fs s (.wake sm) s' ∨ Step fs s (.loop sm) s' ∨ Step fs s (.leave sm) s' := by
  have hs := h.sound sm
  unfold Sound at hs
  cases hpc : (s.callers sm).pc with
  | idle => rw [hpc] at hs; exact absurd hin hs.1
  | waiting => exact ⟨_, .inl (.wake hpc hin)⟩
  | looping => exact ⟨_, .inr (.inl (.loop hpc))⟩
  | leaving err =>
    obtain ⟨hc, -⟩ := crit_facts h.crit
    have hpost : ∀ (sm : Addr) (evt : Evt), (fun _ _ => .none : Addr → Evt → Vsf.Err) sm evt = .none :=
      fun _ _ => rfl
    obtain ⟨crit, hcrit, -⟩ := hc.increase (some sm) hpost
    exact ⟨_, .inr (.inr (.leave hpc hcrit))⟩
  | done err => rw [hpc] at hs; exact absurd hin hs.1

theorem Inv.correct (h : Inv fs s) : Correct fs s where
  answers sm err hpc := by
    have hs := h.sound sm
    unfold Sound at hs
    rw [hpc] at hs
    exact hs.2.2
  released sm err hpc := ((h.sound sm).outside (.inr ⟨err, hpc⟩)).1
  one := by
    have hsum := (crit_facts h.crit).2
    omega
  inside := crit_inside h.crit
  goes sm hin := h.goes hin
  shrinks sm f name hpc hmore := by
    have hs := h.sound sm
    unfold Sound at hs
    rw [hpc] at hs
    obtain ⟨-, -, cs, hpath, hclear, -⟩ := hs
    have hround := iterate_spec hpath hclear
    rw [hmore] at hround
    cases hround with
    | more _ _ _ hshort => exact hshort

/-- **Lookups by path**, interleaved, find what their components lead to, and hand on the critical section. -/
theorem finds (h : ((system fs).restrict (Meets fs)).Reach s) : Correct fs s := by
  refine Inv.correct (h.invariant (P := Inv fs) ?_ fun s a s' _ hi hst => hi.step hst.1 hst.2)
  intro s ⟨hcrit, hidle⟩
  refine ⟨.start hcrit, fun sm => ?_⟩
  obtain ⟨y, evt, hy⟩ := hcrit
  unfold Sound
  rw [hidle sm]
  simp [hy]

end

theorem component_letter (ch : UInt8) (h : isDiv ch = false) : Component [ch] where
  nonempty := cons_ne_nil _ _
  no_div c hc := by
    rw [mem_singleton.mp hc]
    exact h

/-- A directory with one file in it, `a`. -/
def oneFile : Memfs Bool where
  name b := if b then [97] else []
  directory b := !b
  child b := if b then [] else [true]
  names := by
    intro d hd f hf
    cases d with
    | true => cases hd
    | false =>
      obtain rfl := mem_singleton.mp hf
      exact component_letter 97 (by decide)
  distinct := by
    intro d hd
    cases d with
    | true => cases hd
    | false => exact nodup_singleton _

/-- Nobody has called yet. -/
def rested : Vsfile Bool where
  crit := ⟨Sync.init ⟨0, 0, 0, none, fun _ => none⟩ 1 1 Evt.user, 0, [], [], 0, 0, []⟩
  curFile := false
  curName := []
  callers _ := ⟨.idle, false, [], [], false, none⟩

theorem rested_start : (system oneFile).start rested := ⟨⟨_, _, rfl⟩, fun _ => rfl⟩

theorem oneFile_path : Path [97] [[97]] false := .cons (p := []) (component_letter 97 (by decide)) .nil

/-- One looks `a` up, another has to wait; the first gets it and leaves. -/
theorem finds_oneFile : ∃ s, (s.callers 1).pc = .done .none ∧ (s.callers 1).file = some true ∧
    s.crit.holders = [2] ∧ Correct oneFile s := by
  have hclear : Clear oneFile false [[97]] false := ⟨rfl, fun f _ _ ht => absurd ht (by decide)⟩
  have hstart : ((system oneFile).restrict (Meets oneFile)).Reach rested := .start rested_start
  have hfirst := hstart.step (show Meets oneFile _ (.call 1 false [97] [[97]] false) ∧ Step oneFile _ _ _ from
    ⟨hclear, .enter none (.inl rfl) rfl oneFile_path (by decide) rfl⟩)
  have hsecond := hfirst.step (show Meets oneFile _ (.call 2 false [97] [[97]] false) ∧ Step oneFile _ _ _ from
    ⟨hclear, .wait none (.inl rfl) rfl oneFile_path (by decide) rfl⟩)
  have hround := hsecond.step (show Meets oneFile _ (.loop 1) ∧ Step oneFile _ _ _ from ⟨trivial, .loop rfl⟩)
  have hend := hround.step (show Meets oneFile _ (.loop 1) ∧ Step oneFile _ _ _ from ⟨trivial, .loop rfl⟩)
  have hleave := hend.step (show Meets oneFile _ (.leave 1) ∧ Step oneFile _ _ _ from ⟨trivial, .leave rfl rfl⟩)
  exact ⟨_, by decide, by decide, by decide, finds hleave⟩

/-- `a/b`: the lookup fails, and the critical section stays taken. -/
theorem finds_break : ¬ ∀ s, (system oneFile).Reach s → Correct oneFile s := by
  intro h
  have hstart : (system oneFile).Reach rested := .start rested_start
  have hcall := hstart.step (show Step oneFile _ (.call 1 false [97, 47, 98] [[97], [98]] false) _ from
    .enter none (.inl rfl) rfl (.cons (p := [47, 98]) (component_letter 97 (by decide))
      (.cons (p := []) (by decide) (component_letter 98 (by decide)) .nil)) (by decide) rfl)
  have hround := hcall.step (show Step oneFile _ (.loop 1) _ from .loop rfl)
  have hend := hround.step (show Step oneFile _ (.loop 1) _ from .loop rfl)
  exact absurd ((h _ hend).released 1 .fail (by decide)) (by decide)

end Vsfile
end Vsf
