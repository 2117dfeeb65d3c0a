/-
# Directory entries parsed in place

`vsffat_getchild` and `fakefat32_dir_write` let `filename` point at the sector that is parsed. This
finds what a buffer of its own for the name finds if, on the parser's way through the sector, no
name changes a byte that is still to be read (`Clean`, `inPlace_same`). In the first entry a short
name of 8 characters and a dot writes the dot over the extension, and ends in four dots
(`inPlace_breaks`).
-/
import Mathlib
import Vsf.File.Dentry

namespace Vsf
namespace File

open ByteMem List Function Option

variable {m m0 : Mem} {e top fn n : ℕ} {b : List UInt8}

/-! ### Names that are safe in place -/

theorem nameSafe_before : ∀ (cs : List UInt8) (src ptr : ℕ), ptr ≤ src → NameSafe m top src ptr cs
  | [], _, _, _ => trivial
  | _ :: cs, src, ptr, h => ⟨fun h1 _ => absurd h1 (by omega), nameSafe_before cs (src + 1) (ptr + 1) (by omega)⟩

/-- **The first entry**, if it is short: no extension, or at most 7 characters before the dot and, unless
the attributes are 0, 9 with it. -/
theorem safe_short_first (hm : m 11 = LE.get8 b 11)
    (h : LE.get8 b 8 = space ∨ (shortBase b).length ≤ 7 ∧ ((shortBase b).length + (shortExt b).length ≤ 9 ∨ LE.get8 b 11 = 0)) :
    ShortSafe m 0 top 0 b := by
  have h1 := shortBase_length_le b
  have h2 := shortExt_length_le b
  refine ⟨nameSafe_before _ 0 0 (le_refl 0), fun hext => ?_, ?_⟩
  · obtain ⟨h7, _⟩ := h.resolve_left hext
    exact ⟨fun h _ => absurd h (by omega), nameSafe_before _ (0 + 8) _ (by omega)⟩
  · intro hlo _
    by_cases hext : LE.get8 b 8 = space
    · rw [shortName, if_neg fun h => h hext, append_nil] at hlo
      omega
    · obtain ⟨h7, hshort⟩ := h.resolve_left hext
      rw [shortName, if_pos hext, length_append, length_cons] at hlo ⊢
      rw [show 0 + ((shortBase b).length + ((shortExt b).length + 1)) = 11 by omega, hm]
      exact hshort.resolve_left (by omega)

/-- **Any other short entry.** -/
theorem safe_short_behind (b : List UInt8) (he : 32 ≤ e) : ShortSafe m 0 top e b := by
  have h1 := shortBase_length_le b
  have h2 := shortName_length_le b
  exact ⟨nameSafe_before _ e 0 (Nat.zero_le _),
    fun _ => ⟨fun h _ => absurd h (by omega), nameSafe_before _ (e + 8) _ (by omega)⟩, fun h _ => absurd h (by omega)⟩

/-! ### The parser's way through a sector -/

/-- The bytes that the loops over a long entry read. -/
def unitsRead (m : Mem) (entry : ℕ) : List ℕ → List ℕ
  | [] => []
  | u :: us =>
    if m (entry + u) ≠ 0 then (entry + u) :: unitsRead m entry us
    else if m (entry + u + 1) ≠ 0 then (entry + u) :: (entry + u + 1) :: unitsRead m entry us
    else [entry + u, entry + u + 1]

/-- The characters that they copy. -/
def copied (m : Mem) (entry : ℕ) : List ℕ → List UInt8
  | [] => []
  | u :: us => if m (entry + u) = 0 ∧ m (entry + u + 1) = 0 then [] else m (entry + u) :: copied m entry us

/-- They go to `ptr` without harm for what the loops, and then the parser, still read. -/
def CopySafe (m : Mem) (entry top : ℕ) : List ℕ → ℕ → Prop
  | [], _ => True
  | u :: us, ptr =>
    m (entry + u) = 0 ∧ m (entry + u + 1) = 0 ∨
      (ptr ∈ unitsRead m entry us → m ptr = m (entry + u)) ∧ Keeps m (entry + 40) top ptr (m (entry + u)) ∧
        CopySafe m entry top us (ptr + 1)

/-- The place in the name of a long entry. -/
def longPos (m : Mem) (entry : ℕ) : ℕ := (((m entry &&& 0x0F) - 1) * 13).toNat

/-- What a long entry writes there; the last piece ends the name. -/
def longText (m : Mem) (entry : ℕ) : List UInt8 := copied m entry longUnits ++ if m entry &&& 0xF0 = 0x40 then [0] else []

/-- A long entry changes nothing that is still to be read. -/
structure LongSafe (m : Mem) (filename top entry : ℕ) : Prop where
  copy : CopySafe m entry top longUnits (filename + longPos m entry)
  zero : m entry &&& 0xF0 = 0x40 → Keeps m (entry + 40) top (filename + longPos m entry + (copied m entry longUnits).length) 0

/-- What long entries have written at `filename`. -/
abbrev Written := ℕ → Option UInt8

def Written.put (w : Written) (pos : ℕ) (cs : List UInt8) : Written := fun i => if pos ≤ i then cs[i - pos]?.or (w i) else w i

/-- A whole name, up to its 0. -/
def Written.Named (w : Written) : Prop := ∃ k, w k = some 0 ∧ ∀ i < k, w i ≠ none

/-- **The way through a sector** that ends at `top`: it stays there, no name changes a byte still to be read, and
a name in long entries is whole. -/
def Clean (m : Mem) (top : ℕ) : ℕ → ℕ → UInt8 → Written → Prop
  | 0, _, _, _ => True
  | n + 1, entry, lfn, w =>
    m entry = 0 ∧ entry < top ∨ m entry ≠ 0 ∧ entry + 32 ≤ top ∧
      if m entry ≠ 0xE5 then
        if m (entry + 11) = attrLongname then
          LongSafe m 0 top entry ∧ Clean m top n (entry + 40) (m entry &&& 0x0F) (w.put (longPos m entry) (longText m entry))
        else if m (entry + 11) ≠ attrVolumid then
          (if lfn = 1 then w.Named else ShortSafe m 0 top entry (entryBytes m entry)) ∧ Clean m top n (entry + 32) 0 fun _ => none
        else Clean m top n (entry + 40) lfn w
      else Clean m top n (entry + 40) 0 w

/-- The memory is that of the sector from `entry` on, and has at `filename` what was written there. -/
structure Tracks (m m0 : Mem) (filename top entry : ℕ) (w : Written) : Prop where
  agree : Agree m m0 entry top
  known : ∀ i v, w i = some v → m (filename + i) = v

variable {w : Written} {lfn : UInt8}

theorem Tracks.fresh {e' : ℕ} (h : Agree m m0 e top) (he : e ≤ e') : Tracks m m0 fn top e' fun _ => none :=
  ⟨h.mono he, fun _ _ hv => nomatch hv⟩

theorem Tracks.mono {e' : ℕ} (h : Tracks m m0 fn top e w) (he : e ≤ e') : Tracks m m0 fn top e' w := ⟨h.agree.mono he, h.known⟩

theorem mem_unitsRead : ∀ {us : List ℕ} {x : ℕ}, x ∈ unitsRead m0 e us → ∃ u ∈ us, x = e + u ∨ x = e + u + 1
  | u :: us, x, h => by
    have hrest : x ∈ unitsRead m0 e us → ∃ v ∈ u :: us, x = e + v ∨ x = e + v + 1 := by
      intro hx
      obtain ⟨v, hv, hxv⟩ := mem_unitsRead hx
      exact ⟨v, mem_cons_of_mem _ hv, hxv⟩
    rw [unitsRead] at h
    split_ifs at h
    · rcases mem_cons.mp h with hx | hx
      · exact ⟨u, mem_cons_self, .inl hx⟩
      · exact hrest hx
    · rcases mem_cons.mp h with hx | hx
      · exact ⟨u, mem_cons_self, .inl hx⟩
      rcases mem_cons.mp hx with hx | hx
      · exact ⟨u, mem_cons_self, .inr hx⟩
      · exact hrest hx
    · exact ⟨u, mem_cons_self, by simpa using h⟩

/-- The characters are copied as they were, if none changes a byte still to be read. -/
theorem longCopy_spec : ∀ (us : List ℕ) (m : Mem) (ptr : ℕ), (∀ x ∈ unitsRead m0 e us, m x = m0 x) → Agree m m0 (e + 40) top →
    CopySafe m0 e top us ptr → ∃ m', longCopy e us m ptr = (m', ptr + (copied m0 e us).length) ∧ Holds m' ptr (copied m0 e us) ∧
      Same (fun x => ptr ≤ x ∧ x < ptr + (copied m0 e us).length) m m' ∧ Agree m' m0 (e + 40) top
  | [], m, ptr, _, hag, _ => ⟨m, rfl, holds_nil m ptr, Same.refl _ m, hag⟩
  | u :: us, m, ptr, hread, hag, hsafe => by
    have hu : m (e + u) = m0 (e + u) := by
      refine hread _ ?_
      rw [unitsRead]
      split_ifs <;> exact mem_cons_self
    have hhigh : m0 (e + u) = 0 → m (e + u + 1) = m0 (e + u + 1) := by
      intro h0
      refine hread _ ?_
      rw [unitsRead, if_neg fun h => h h0]
      split_ifs <;> exact mem_cons_of_mem _ mem_cons_self
    have hrest : ¬ (m0 (e + u) = 0 ∧ m0 (e + u + 1) = 0) → ∀ x ∈ unitsRead m0 e us, x ∈ unitsRead m0 e (u :: us) := by
      intro hne x hx
      rw [unitsRead]
      split_ifs with h0 h1
      · exact mem_cons_of_mem _ hx
      · exact mem_cons_of_mem _ (mem_cons_of_mem _ hx)
      · exact absurd ⟨not_not.mp h0, not_not.mp h1⟩ hne
    by_cases hz : m0 (e + u) = 0 ∧ m0 (e + u + 1) = 0
    · refine ⟨m, ?_, ?_, ?_, hag⟩
      · rw [longCopy, hu, hhigh hz.1, if_pos hz, copied, if_pos hz, length_nil, add_zero]
      · rw [copied, if_pos hz]
        exact holds_nil m ptr
      · exact Same.refl _ m
    · have hz' : ¬ (m (e + u) = 0 ∧ m (e + u + 1) = 0) := by
        rw [hu]
        exact fun h => hz ⟨h.1, (hhigh h.1).symm.trans h.2⟩
      have hcons : copied m0 e (u :: us) = m0 (e + u) :: copied m0 e us := by rw [copied, if_neg hz]
      obtain ⟨hptr, hkeep, hsafes⟩ := hsafe.resolve_left hz
      obtain ⟨m', hcopy, hholds, hsame, hag'⟩ := longCopy_spec us (Function.update m ptr (m0 (e + u))) (ptr + 1)
        (fun x hx => by
          by_cases hxp : x = ptr
          · subst hxp
            rw [update_self, hptr hx]
          · rw [update_of_ne hxp]
            exact hread x (hrest hz x hx))
        (hag.update hkeep) hsafes
      rw [hcons, length_cons]
      refine ⟨m', ?_, holds_cons.mpr ⟨?_, hholds⟩, ?_, hag'⟩
      · rw [longCopy, if_neg hz', hu, hcopy, add_assoc, add_comm 1]
      · rw [hsame ptr (by omega), update_self]
      · intro x hx
        rw [hsame x (by omega), update_of_ne (by omega)]

theorem Tracks.put {m' : Mem} {e' pos : ℕ} {cs : List UInt8} (h : Tracks m m0 fn top e w) (hag : Agree m' m0 e' top)
    (hcs : Holds m' (fn + pos) cs) (hsame : Same (fun x => fn + pos ≤ x ∧ x < fn + pos + cs.length) m m') :
    Tracks m' m0 fn top e' (w.put pos cs) := by
  refine ⟨hag, fun i v hv => ?_⟩
  unfold Written.put at hv
  by_cases hi : pos ≤ i ∧ i - pos < cs.length
  · rw [if_pos hi.1, getElem?_eq_getElem hi.2, some_or] at hv
    have hval := hcs (i - pos) hi.2
    rw [show fn + pos + (i - pos) = fn + i by omega] at hval
    exact hval.trans (some.inj hv)
  · have hw : w i = some v := by
      split_ifs at hv with hpos
      · rwa [getElem?_eq_none (by omega), none_or] at hv
      · exact hv
    rw [hsame _ (by omega)]
    exact h.known i v hw

/-- **A long entry** writes its characters, and nothing else. -/
theorem Tracks.long (h : Tracks m m0 fn top e w) (htop : e + 32 ≤ top) (hsafe : LongSafe m0 fn top e) :
    Tracks (parseLong m e fn) m0 fn top (e + 40) (w.put (longPos m0 e) (longText m0 e)) := by
  have hunits : ∀ u ∈ longUnits, u ≤ 30 := by decide
  have hread : ∀ x ∈ unitsRead m0 e longUnits, m x = m0 x := by
    intro x hx
    obtain ⟨u, hu, hxu⟩ := mem_unitsRead hx
    have := hunits u hu
    exact h.agree x (by omega) (by omega)
  obtain ⟨m', hcopy, hholds, hsame, hag⟩ := longCopy_spec longUnits m (fn + longPos m0 e) hread (h.agree.mono (by omega)) hsafe.copy
  have hindex : m e = m0 e := h.agree e (le_refl e) (by omega)
  have hpos : (((m e &&& 0x0F) - 1) * 13).toNat = longPos m0 e := by rw [hindex, longPos]
  unfold parseLong
  dsimp only
  rw [hpos, hcopy, hindex, longText]
  split_ifs with hflag
  · refine h.put (hag.update (hsafe.zero hflag)) ?_ ?_
    · rw [holds_append, holds_cons]
      exact ⟨hholds.update (by omega) _, update_self .., holds_nil _ _⟩
    · intro x hx
      rw [length_append, length_singleton] at hx
      exact (update_of_ne (by omega) _ _).trans (hsame x (by omega))
  · rw [append_nil]
    exact h.put hag hholds hsame

/-! ### The same files in place -/

/-- Both parsers are at the same entry, with the same name and fields. -/
structure SameFile (fn fn' : ℕ) (d d' : Dparser) : Prop where
  entry : d.entry = d'.entry
  name : ∃ name, 0 ∉ name ∧ Holds d.mem fn (name ++ [0]) ∧ Holds d'.mem fn' (name ++ [0])
  fields : ∀ i, 11 ≤ i → i < 32 → d.mem (d.entry + i) = d'.mem (d'.entry + i)

theorem Written.named_put (cs : List UInt8) : Written.Named (Written.put (fun _ => none) 0 (cs ++ [0])) := by
  refine ⟨cs.length, ?_, fun i hi => ?_⟩
  · simp [Written.put]
  · simp [Written.put, getElem?_append_left hi, hi]

theorem sameFile_of_tracks {m1 m2 : Mem} {fn' : ℕ} (h1 : Tracks m1 m0 fn top (e + 11) w) (h2 : Tracks m2 m0 fn' top (e + 11) w)
    (hw : w.Named) (htop : e + 32 ≤ top) (num : UInt16) : SameFile fn fn' ⟨m1, e, num, 0, fn⟩ ⟨m2, e, num, 0, fn'⟩ := by
  obtain ⟨k, h0, hk⟩ := hw
  have hsame : ∀ i ≤ k, m1 (fn + i) = m2 (fn' + i) := by
    intro i hi
    obtain ⟨v, hv⟩ : ∃ v, w i = some v := by
      rcases Nat.eq_or_lt_of_le hi with rfl | hlt
      · exact ⟨0, h0⟩
      · exact ne_none_iff_exists'.mp (hk i hlt)
    rw [h1.known i v hv, h2.known i v hv]
  have hzero : ∃ i, m1 (fn + i) = 0 := ⟨k, h1.known k 0 h0⟩
  have hle : Nat.find hzero ≤ k := Nat.find_min' hzero (h1.known k 0 h0)
  have hholds : ∀ {m : Mem} {a : ℕ}, (∀ i ≤ k, m1 (fn + i) = m (a + i)) →
      Holds m a ((List.range (Nat.find hzero)).map (fun i => m1 (fn + i)) ++ [0]) := by
    intro m a hm
    rw [holds_append, holds_cons, length_map, length_range]
    refine ⟨fun i hi => ?_, ?_, holds_nil _ _⟩
    · rw [length_map, length_range] at hi
      rw [getElem_map, getElem_range, hm i (by omega)]
    · rw [← hm _ hle]
      exact Nat.find_spec hzero
  refine ⟨rfl, ⟨_, fun hmem => ?_, hholds fun _ _ => rfl, hholds hsame⟩, fun i hlo hhi => ?_⟩
  · obtain ⟨i, hi, hi0⟩ := mem_map.mp hmem
    exact Nat.find_min hzero (mem_range.mp hi) hi0
  · exact (h1.agree (e + i) (by omega) (by omega)).trans (h2.agree (e + i) (by omega) (by omega)).symm

theorem parseAll_pass {m' : Mem} {e' fuel : ℕ} {lfn' : UInt8} (hn : n + 1 < 65536)
    (h : parseLoop fn (n + 1) m e lfn = parseLoop fn n m' e' lfn') : parseAll (fuel + 1) ⟨m, e, UInt16.ofNat (n + 1), lfn, fn⟩ =
      parseAll (fuel + 1) ⟨m', e', UInt16.ofNat n, lfn', fn⟩ := by
  have hparse : parseDentry ⟨m, e, UInt16.ofNat (n + 1), lfn, fn⟩ = parseDentry ⟨m', e', UInt16.ofNat n, lfn', fn⟩ := by
    rw [parseDentry, parseDentry, toNat_ofNat16 hn, toNat_ofNat16 (by omega), h]
  conv_lhs => rw [parseAll]
  conv_rhs => rw [parseAll]
  rw [if_neg (ofNat16_ne_zero (Nat.succ_ne_zero n) hn), hparse]
  rcases eq_zero_or_pos n with rfl | hpos
  · rfl
  · rw [if_neg (ofNat16_ne_zero hpos.ne' (by omega))]

theorem copySafe_behind (htop : e + 32 ≤ top) : ∀ (us : List ℕ) (ptr : ℕ), (∀ u ∈ us, u ≤ 30) → top ≤ ptr → CopySafe m e top us ptr
  | [], _, _, _ => trivial
  | u :: us, ptr, hus, hptr => by
    refine .inr ⟨fun hmem => ?_, fun _ h => absurd h (by omega),
      copySafe_behind htop us (ptr + 1) (fun v hv => hus v (mem_cons_of_mem _ hv)) (by omega)⟩
    obtain ⟨v, hv, hx⟩ := mem_unitsRead hmem
    have := hus v (mem_cons_of_mem _ hv)
    omega

theorem longSafe_behind (htop : e + 32 ≤ top) (hfn : top ≤ fn) : LongSafe m fn top e :=
  ⟨copySafe_behind htop _ _ (by decide) (by omega), fun _ _ h => absurd h (by omega)⟩

theorem holds_entryBytes (m : Mem) (e : ℕ) : Holds m e (entryBytes m e) := by
  intro i hi
  simp [entryBytes]

theorem Tracks.short (h : Tracks m m0 fn top e w) (htop : e + 32 ≤ top) (hsafe : ShortSafe m0 fn top e (entryBytes m0 e)) :
    Tracks (parseShort m e fn) m0 fn top (e + 11) (Written.put (fun _ => none) 0 (shortName (entryBytes m0 e) ++ [0])) := by
  obtain ⟨hname, hag⟩ := parseShort_spec (by simp [entryBytes]) (holds_entryBytes m0 e) h.agree htop hsafe
  refine ⟨hag, fun i v hv => ?_⟩
  rw [Written.put, if_pos (Nat.zero_le i), Nat.sub_zero, or_none] at hv
  obtain ⟨hi, rfl⟩ := List.getElem?_eq_some_iff.mp hv
  exact hname i hi

theorem Tracks.loop (h : Tracks m m0 fn top e w) (h0 : m0 e ≠ 0) (htop : e + 32 ≤ top) (n : ℕ) (lfn : UInt8) :
    parseLoop fn (n + 1) m e lfn = if m0 e ≠ 0xE5 then
      if m0 (e + 11) = attrLongname then parseLoop fn n (parseLong m e fn) (e + 40) (m0 e &&& 0x0F)
      else if m0 (e + 11) ≠ attrVolumid then (true, ⟨if lfn = 1 then m else parseShort m e fn, e, UInt16.ofNat n, 0, fn⟩)
      else parseLoop fn n m (e + 40) lfn
    else parseLoop fn n m (e + 40) 0 := by
  have hbyte : m e = m0 e := h.agree e (le_refl e) (by omega)
  have hattr : m (e + 11) = m0 (e + 11) := h.agree (e + 11) (by omega) (by omega)
  have hlfn : (if lfn > 0 then 0 else lfn) = 0 := by grind
  rw [parseLoop, hbyte, hattr, if_neg h0, hlfn]
  split_ifs <;> rfl

/-- **A clean way** is the same in place and with a buffer behind the sector. -/
theorem inPlace_walk (hfn : top ≤ fn) : ∀ (n e : ℕ) (lfn : UInt8) (w : Written) (m1 m2 : Mem) (fuel : ℕ), n < 65536 → n ≤ fuel →
    Clean m0 top n e lfn w → Tracks m1 m0 0 top e w → Tracks m2 m0 fn top e w →
    List.Forall₂ (SameFile 0 fn) (parseAll fuel ⟨m1, e, UInt16.ofNat n, lfn, 0⟩) (parseAll fuel ⟨m2, e, UInt16.ofNat n, lfn, fn⟩)
  | 0, e, lfn, w, m1, m2, fuel, hn, _, _, _, _ => by
    have hnil : ∀ (m : Mem) (fn : ℕ), parseAll fuel ⟨m, e, UInt16.ofNat 0, lfn, fn⟩ = [] := fun m fn =>
      parseAll_end hn fun h => absurd h (lt_irrefl 0)
    rw [hnil, hnil]
    exact List.Forall₂.nil
  | n + 1, e, lfn, w, m1, m2, fuel, hn, hfuel, h, h1, h2 => by
    obtain ⟨fuel, rfl⟩ := Nat.exists_eq_succ_of_ne_zero (show fuel ≠ 0 by omega)
    rcases h with ⟨h0, hlt⟩ | ⟨h0, htop, hrest⟩
    · have hnil : ∀ {m : Mem} {fn : ℕ}, Tracks m m0 fn top e w → parseAll (fuel + 1) ⟨m, e, UInt16.ofNat (n + 1), lfn, fn⟩ = [] :=
        fun ht => parseAll_end hn fun _ => (ht.agree e (le_refl e) hlt).trans h0
      rw [hnil h1, hnil h2]
      exact List.Forall₂.nil
    have hl1 := h1.loop h0 htop n lfn
    have hl2 := h2.loop h0 htop n lfn
    split_ifs at hrest with herased hlong hfile hwhole
    · rw [if_pos herased, if_pos hlong] at hl1 hl2
      rw [parseAll_pass hn hl1, parseAll_pass hn hl2]
      exact inPlace_walk hfn n _ _ _ _ _ (fuel + 1) (by omega) (by omega) hrest.2 (h1.long htop hrest.1)
        (h2.long htop (longSafe_behind htop hfn))
    · rw [if_pos herased, if_neg hlong, if_pos hfile, if_pos hwhole] at hl1 hl2
      rw [parseAll_hit hn hl1, parseAll_hit hn hl2]
      refine List.Forall₂.cons (sameFile_of_tracks (h1.mono (by omega)) (h2.mono (by omega)) hrest.1 htop _) ?_
      exact inPlace_walk hfn n (e + 32) 0 _ m1 m2 fuel (by omega) (by omega) hrest.2 (.fresh h1.agree (by omega)) (.fresh h2.agree (by omega))
    · rw [if_pos herased, if_neg hlong, if_pos hfile, if_neg hwhole] at hl1 hl2
      have hs1 := h1.short htop hrest.1
      have hs2 := h2.short htop (shortSafe_apart (a := 0) _ (.inr hfn) (Nat.zero_le e))
      rw [parseAll_hit hn hl1, parseAll_hit hn hl2]
      refine List.Forall₂.cons (sameFile_of_tracks hs1 hs2 (Written.named_put _) htop _) ?_
      exact inPlace_walk hfn n (e + 32) 0 _ _ _ fuel (by omega) (by omega) hrest.2 (.fresh hs1.agree (by omega)) (.fresh hs2.agree (by omega))
    · rw [if_pos herased, if_neg hlong, if_neg hfile] at hl1 hl2
      rw [parseAll_pass hn hl1, parseAll_pass hn hl2]
      exact inPlace_walk hfn n _ _ _ _ _ (fuel + 1) (by omega) (by omega) hrest (h1.mono (by omega)) (h2.mono (by omega))
    · rw [if_neg herased] at hl1 hl2
      rw [parseAll_pass hn hl1, parseAll_pass hn hl2]
      exact inPlace_walk hfn n _ _ _ _ _ (fuel + 1) (by omega) (by omega) hrest (h1.mono (by omega)) (h2.mono (by omega))

/-- Short entries are a clean way, if their names are safe. -/
theorem clean_of_items : ∀ (its : List Item) (n e : ℕ), (∀ it ∈ its, it.Valid) → Holds m e (its.flatMap Item.bytes) →
    e + 32 * entryCount its ≤ top → ItemsSafe m 0 top e its → entryCount its ≤ n →
    (entryCount its < n → m (e + 32 * entryCount its) = 0 ∧ e + 32 * entryCount its < top) → Clean m top n e 0 fun _ => none
  | [], 0, _, _, _, _, _, _, _ => trivial
  | [], n + 1, e, _, _, _, _, _, hend => .inl (hend (Nat.succ_pos n))
  | .skip _ :: _, _, _, _, _, _, ⟨hsafe, _⟩, _, _ => hsafe.elim
  | .long _ _ :: _, _, _, _, _, _, ⟨hsafe, _⟩, _, _ => hsafe.elim
  | .short b :: its, n, e, hvalid, hm, htop, ⟨hsafe, hsafes⟩, hcount, hend => by
    have hb : ShortOk b := hvalid (.short b) mem_cons_self
    rw [entryCount_cons, Item.num] at htop hcount hend
    rw [flatMap_cons, holds_append, Item.bytes, hb.length] at hm
    obtain ⟨k, rfl⟩ := Nat.exists_eq_add_of_le' (show 1 ≤ n by omega)
    have hbytes : entryBytes m e = b := by
      refine ext_getElem (by simp [entryBytes, hb.length]) fun i _ hi => ?_
      rw [← hm.1 i hi]
      simp [entryBytes]
    have h0 : m e = LE.get8 b 0 := Holds.head hm.1 (by rw [hb.length]; decide)
    have h11 : m (e + 11) = LE.get8 b 11 := Holds.get8 hm.1 (by rw [hb.length]; decide)
    refine .inr ⟨h0 ▸ hb.used, by omega, ?_⟩
    rw [h0, h11, if_pos hb.live, if_neg hb.not_long, if_pos hb.not_label, if_neg (by decide), hbytes]
    refine ⟨hsafe, clean_of_items its k (e + 32) (fun it h => hvalid it (mem_cons_of_mem _ h)) hm.2 (by omega) hsafes (by omega)
      fun hlt => ?_⟩
    have := hend (by omega)
    rwa [show e + 32 * (1 + entryCount its) = e + 32 + 32 * entryCount its by omega] at this

/-! ### A first entry that is not safe -/

theorem holds_string_unique : ∀ {s t : List UInt8} {a : ℕ}, 0 ∉ s → 0 ∉ t → Holds m a (s ++ [0]) → Holds m a (t ++ [0]) → s = t
  | [], [], _, _, _, _, _ => rfl
  | [], c :: t, _, _, ht, hs0, ht0 => by
    have h1 := (holds_cons.mp hs0).1
    have h2 := (holds_cons.mp ht0).1
    exact absurd (mem_cons.mpr (.inl (h1.symm.trans h2))) ht
  | c :: s, [], _, hs, _, hs0, ht0 => by
    have h1 := (holds_cons.mp hs0).1
    have h2 := (holds_cons.mp ht0).1
    exact absurd (mem_cons.mpr (.inl (h2.symm.trans h1))) hs
  | c :: s, d :: t, _, hs, ht, hs0, ht0 => by
    obtain ⟨h1, hs'⟩ := holds_cons.mp hs0
    obtain ⟨h2, ht'⟩ := holds_cons.mp ht0
    rw [h1.symm.trans h2, holds_string_unique (fun h => hs (mem_cons_of_mem _ h)) (fun h => ht (mem_cons_of_mem _ h)) hs' ht']

theorem parseShort_first (hb : b.length = 32) (hm : Holds m 0 b) : ∃ m1, Holds m1 0 (shortBase b) ∧ Agree m1 m 8 32 ∧
    copyName (m 12 &&& 0x08 ≠ 0) 8 m 0 0 = (m1, (shortBase b).length) := by
  have h12 : m 12 = LE.get8 b 12 := by
    rw [← Holds.get8 hm (by omega), zero_add]
  have h8 : (b.take 8).length = 8 := by simp [hb]
  have hm8 : Holds m 0 (b.take 8) := by
    rw [← take_append_drop 8 b, holds_append] at hm
    exact hm.1
  obtain ⟨m1, hcopy, hholds, -, hag⟩ := @copyName_spec m 32 (LE.get8 b 12 &&& 0x08 ≠ 0) (b.take 8) m 0 0 hm8
    (fun _ _ _ => rfl) (by omega) (nameSafe_before _ 0 0 (le_refl 0))
  rw [h8] at hcopy hag
  refine ⟨m1, hholds, hag, ?_⟩
  rw [h12, hcopy, zero_add]
  rfl

/-- With 8 characters before the dot, the extension read is the dot. -/
theorem parseShort_full (hb : b.length = 32) (hm : Holds m 0 b) (hext : LE.get8 b 8 ≠ space) (hbase : 7 < (shortBase b).length) :
    parseShort m 0 0 9 = dot := by
  obtain ⟨m1, -, hag, hcopy⟩ := parseShort_first hb hm
  have hlen : (shortBase b).length = 8 := le_antisymm (shortBase_length_le b) hbase
  have h8 : m1 8 = LE.get8 b 8 := by
    rw [hag 8 (le_refl 8) (by decide), ← Holds.get8 hm (by omega), zero_add]
  have hfold : ∀ lower : Bool, (if lower then toLower dot else dot) = dot := by decide
  have hspace : dot ≠ space := by decide
  unfold parseShort
  rw [zero_add, zero_add, hcopy, hlen]
  dsimp only
  rw [if_pos fun h => hext (h8.symm.trans h)]
  generalize decide (Function.update m1 8 dot 12 &&& 0x10 ≠ 0) = lower
  simp [copyName, hfold, hspace]

/-- With 11 characters the zero behind the name is written over the attributes. -/
theorem parseShort_attr (hb : b.length = 32) (hm : Holds m 0 b) (hext : LE.get8 b 8 ≠ space) (hbase : (shortBase b).length ≤ 7)
    (hlen : 9 < (shortBase b).length + (shortExt b).length) : parseShort m 0 0 11 = 0 := by
  obtain ⟨m1, -, hag, hcopy⟩ := parseShort_first hb hm
  have h3 := shortExt_length_le b
  have h8 : m1 8 = LE.get8 b 8 := by
    rw [hag 8 (le_refl 8) (by decide), ← Holds.get8 hm (by omega), zero_add]
  have hag2 : Agree (Function.update m1 (shortBase b).length dot) m 8 32 := hag.update fun h _ => absurd h (by omega)
  have h12 : Function.update m1 (shortBase b).length dot 12 = LE.get8 b 12 := by
    rw [hag2 12 (by decide) (by decide), ← Holds.get8 hm (by omega), zero_add]
  have hb3 : ((b.drop 8).take 3).length = 3 := by simp [hb]
  have hm3 : Holds m 8 ((b.drop 8).take 3) := by
    rw [← take_append_drop 8 b, holds_append, length_take, hb] at hm
    have h := hm.2
    rw [← take_append_drop 3 (b.drop 8), holds_append] at h
    exact h.1
  obtain ⟨m3, hcopy3, -, -, -⟩ := @copyName_spec m 32 (LE.get8 b 12 &&& 0x10 ≠ 0) ((b.drop 8).take 3)
    (Function.update m1 (shortBase b).length dot) 8 ((shortBase b).length + 1) hm3 hag2 (by omega) (nameSafe_before _ 8 _ (by omega))
  have hlen3 : (nameChars (LE.get8 b 12 &&& 0x10 ≠ 0) ((b.drop 8).take 3)).length = (shortExt b).length := rfl
  rw [hb3, hlen3] at hcopy3
  unfold parseShort
  rw [zero_add, zero_add, hcopy]
  dsimp only
  rw [if_pos fun h => hext (h8.symm.trans h), h12, hcopy3]
  rw [show (shortBase b).length + 1 + (shortExt b).length = 11 by omega, update_self]

/-- **A first entry that is not safe** is not read as it is. -/
theorem sameFile_first {fn : ℕ} {d d' : Dparser} (hb : ShortOk b) (hm : Holds m 0 b) (hext : LE.get8 b 8 ≠ space)
    (hdot : dot ∉ shortExt b) (hlong : 7 < (shortBase b).length ∨ 9 < (shortBase b).length + (shortExt b).length ∧ LE.get8 b 11 ≠ 0)
    (hd : d.mem = parseShort m 0 0) (hd0 : d.entry = 0) (hd' : Dparser.At fn d' ⟨shortName b, 0, b⟩) : ¬ SameFile 0 fn d d' := by
  rintro ⟨_, ⟨name, h0, hname, hname'⟩, hfields⟩
  have hlen := hb.length
  by_cases hfull : 7 < (shortBase b).length
  · have heq : name = shortName b := holds_string_unique h0 hb.name_ne_zero hname' hd'.name
    have hbase : (shortBase b).length = 8 := le_antisymm (shortBase_length_le b) hfull
    have hshape : shortName b = shortBase b ++ dot :: shortExt b := by rw [shortName, if_pos hext]
    rw [heq, hshape, append_assoc, holds_append, cons_append, holds_cons, hd] at hname
    have h9 := hname.2.2
    rw [hbase, zero_add] at h9
    cases hx : shortExt b with
    | nil =>
      -- an extension whose first character is no space is not empty
      have hget : LE.get8 b 8 = ((b.drop 8).take 3).headD 0 := by
        rw [headD_eq_head?_getD, head?_take, head?_drop]
        rfl
      have hlen3 : ((b.drop 8).take 3).length = 3 := by simp [hlen]
      obtain ⟨c, cs, hc⟩ := exists_cons_of_length_eq_add_one hlen3
      rw [hc, headD_cons] at hget
      rw [shortExt, hc, nameChars, takeWhile_cons_of_pos (by simpa [← hget] using hext)] at hx
      exact absurd hx (cons_ne_nil _ _)
    | cons c ext =>
      rw [hx, cons_append, holds_cons] at h9
      rw [parseShort_full hlen hm hext hfull] at h9
      rw [hx] at hdot
      exact hdot (h9.1 ▸ mem_cons_self)
  · obtain ⟨h10, hattr⟩ := hlong.resolve_left hfull
    have h11 := hfields 11 (le_refl 11) (by decide)
    have hfield := hd'.fields 0 (by rw [length_drop, hlen]; decide)
    rw [hd, hd0, zero_add, parseShort_attr hlen hm hext (not_lt.mp hfull) h10, hd'.entry] at h11
    rw [getElem_drop] at hfield
    have : LE.get8 b 11 = 0 := by
      rw [LE.get8, getD_eq_getElem _ _ (by omega)]
      exact hfield.symm.trans h11.symm
    exact hattr this

/-- **Parsing in place finds the same files** as with a buffer of its own, if no name changes a byte still
to be read; a short name in the first entry can. -/
theorem inPlace_same (hn : n < 65536) (hfn : 32 * n ≤ fn) :
    (Clean m (32 * n) n 0 0 (fun _ => none) → List.Forall₂ (SameFile 0 fn) (parseAll n ⟨m, 0, UInt16.ofNat n, 0, 0⟩)
      (parseAll n ⟨m, 0, UInt16.ofNat n, 0, fn⟩)) ∧
    ∀ b, 0 < n → ShortOk b → Holds m 0 b → LE.get8 b 8 ≠ space → dot ∉ shortExt b →
      7 < (shortBase b).length ∨ 9 < (shortBase b).length + (shortExt b).length ∧ LE.get8 b 11 ≠ 0 →
      ¬ List.Forall₂ (SameFile 0 fn) (parseAll n ⟨m, 0, UInt16.ofNat n, 0, 0⟩) (parseAll n ⟨m, 0, UInt16.ofNat n, 0, fn⟩) := by
  refine ⟨fun h => inPlace_walk hfn n 0 0 _ m m n hn (le_refl n) h (.fresh (fun _ _ _ => rfl) (le_refl 0))
    (.fresh (fun _ _ _ => rfl) (le_refl 0)), ?_⟩
  intro b hpos hb hm hext hdot hlong hsame
  obtain ⟨k, rfl⟩ := Nat.exists_eq_succ_of_ne_zero hpos.ne'
  obtain ⟨d, m', hat, -, hrun⟩ := parseAll_short hb hm (show Agree m m 0 (32 * (k + 1)) from fun _ _ _ => rfl) (by omega)
    (shortSafe_apart (a := 0) b (.inr hfn) (le_refl 0)) hn k
  have hfirst : parseLoop 0 (k + 1) m 0 0 = (true, ⟨parseShort m 0 0, 0, UInt16.ofNat k, 0, 0⟩) := by
    rw [parseLoop_short hb hm, if_neg (by decide)]
  rw [hrun, parseAll_hit hn hfirst, forall₂_cons] at hsame
  exact sameFile_first hb hm hext hdot hlong rfl rfl hat hsame.1

/-- The entry of `ABCDEF.TXT`, cluster 3 and 5 bytes. -/
def shortSector : List UInt8 :=
  [65, 66, 67, 68, 69, 70, 32, 32, 84, 88, 84, 32, 0, 0, 0, 0, 0, 0, 0, 0, 0, 0, 0, 0, 0, 0, 3, 0, 5, 0, 0, 0]

theorem inPlace_same_short : List.Forall₂ (SameFile 0 32) (parseAll 1 ⟨bufMem shortSector, 0, UInt16.ofNat 1, 0, 0⟩)
    (parseAll 1 ⟨bufMem shortSector, 0, UInt16.ofNat 1, 0, 32⟩) :=
  have hvalid : ∀ it ∈ [Item.short shortSector], it.Valid := fun it hit =>
    mem_singleton.mp hit ▸ ⟨by decide, by decide, by decide, by decide, by decide, by decide⟩
  (inPlace_same (by decide) (by decide)).1 (clean_of_items [.short shortSector] 1 0 hvalid (holds_bufMem shortSector) (by decide)
    ⟨safe_short_first rfl (.inr (by decide)), trivial⟩ (by decide) fun h => absurd h (by decide))

/-- The entry of `ABCDEFGH.TXT`, cluster 3 and 5 bytes. -/
def fullSector : List UInt8 :=
  [65, 66, 67, 68, 69, 70, 71, 72, 84, 88, 84, 32, 0, 0, 0, 0, 0, 0, 0, 0, 0, 0, 0, 0, 0, 0, 3, 0, 5, 0, 0, 0]

/-- **A first entry with 8 characters before the dot**: its attribute is a dot. -/
theorem inPlace_breaks : ShortOk fullSector ∧
    ¬ List.Forall₂ (SameFile 0 32) (parseAll 1 ⟨bufMem fullSector, 0, UInt16.ofNat 1, 0, 0⟩)
      (parseAll 1 ⟨bufMem fullSector, 0, UInt16.ofNat 1, 0, 32⟩) := by
  refine ⟨⟨by decide, by decide, by decide, by decide, by decide, by decide⟩, fun h => ?_⟩
  have hrun : parseAll 1 ⟨bufMem fullSector, 0, UInt16.ofNat 1, 0, 0⟩ =
      [⟨parseShort (bufMem fullSector) 0 0, 0, UInt16.ofNat 0, 0, 0⟩] := rfl
  have hrun' : parseAll 1 ⟨bufMem fullSector, 0, UInt16.ofNat 1, 0, 32⟩ =
      [⟨parseShort (bufMem fullSector) 0 32, 0, UInt16.ofNat 0, 0, 32⟩] := rfl
  rw [hrun, hrun'] at h
  have hattr := (forall₂_cons.mp h).1.fields 11 (le_refl 11) (by decide)
  exact absurd hattr (by decide)

end File
end Vsf
