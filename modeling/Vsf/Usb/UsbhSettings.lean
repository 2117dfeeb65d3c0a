/-
# The settings of the interfaces of a device

What `vsfusbh_parse_config` makes of the whole block. It stays in the block and in its arrays where
that is `Orderly`, and what it notes is right where an interface has one setting: `desc_size` is
stored one setting too late. An interface out of order has 0 settings when its array is allocated,
and ends the parse.
-/
import Mathlib
import Vsf.Usb.UsbhConfig

namespace Vsf
namespace UsbhConfig

open List Option

variable {b : Block} {s s' : Scan} {p q k c i n : ℕ} {ds g rest : List ℕ} {alts : List UsbhAlt} {r : ParseEnd}

/-! ### The end of an interface's descriptors -/

/-- Another interface is next, or nothing, and the last one is to be filled in. -/
def Stop (b : Block) (k q claiming : ℕ) : Prop :=
  (q < b.total ∧ q + b.len q ≤ b.total ∧ Inside b q ∧ b.isInterface q ∧ b.number q ≠ UInt8.ofNat k) ∨
    (q = b.total ∧ claiming = 1)

/-- A pass begins at the start of the interface's descriptors. -/
structure Begin (b : Block) (s : Scan) (k p : ℕ) : Prop where
  first : First b s k 0 p
  tmppos : s.tmppos = p
  tmpsize : s.tmpsize = b.total - p

theorem next_interface (hpos : s.pos = q) (hsize : s.size = b.total - q) (hifs : s.ifs = k) (hk : k < b.num)
    (hend : q + b.len q ≤ b.total) (hin : Inside b q) (hi : b.isInterface q) : next b s = interface b s := by
  rw [next_inside hpos hsize hend hin, if_pos hi, if_neg (by rw [hifs]; omega)]

/-- What the end of an interface's descriptors starts, met by the next header or by the end of the block. -/
theorem stop_goes {claiming : ℕ} {e : ParseEnd ⊕ Scan} (hpos : s.pos = q) (hsize : s.size = b.total - q) (hifs : s.ifs = k)
    (hk : k < b.num) (hstop : Stop b k q claiming) (hnext : b.number q ≠ UInt8.ofNat k → interface b s = e)
    (hlast : q = b.total → claiming = 1 → settle b s = e) (r : ParseEnd) :
    Loop.Goes (next b) (settle b s) r ↔ Loop.Goes (next b) e r := by
  rcases hstop with ⟨hlt, hend, hin, hi, hne⟩ | ⟨hq, hclaim⟩
  · rw [settle_more (.inl (by omega)), ← hnext hne, ← next_interface hpos hsize hifs hk hend hin hi]
    exact Loop.ends_iff
  · rw [hlast hq hclaim]

theorem First.stop (h : First b s k c q) (hk : k < b.num) (hstop : Stop b k q s.claiming) (r : ParseEnd) :
    Loop.Goes (UsbhConfig.next b) (settle b s) r ↔ Loop.Goes (UsbhConfig.next b) (allocAlt b s) r := by
  refine stop_goes h.pos h.size h.ifs hk hstop (fun hne => ?_) (fun hq hclaim => ?_) r
  · unfold interface
    rw [h.ifs, h.entry, h.pos, h.ifnum]
    exact if_neg hne
  · unfold settle
    rw [h.size, hq, Nat.sub_self, hclaim]
    simp

theorem Second.stop (h : Second b s k c alts i q) (hk : k < b.num) {claiming : ℕ} (hstop : Stop b k q claiming) (r : ParseEnd) :
    Loop.Goes (UsbhConfig.next b) (settle b s) r ↔ Loop.Goes (UsbhConfig.next b) (probeAlt s q) r := by
  refine stop_goes h.pos h.size h.ifs hk hstop (fun hne => ?_) (fun hq _ => ?_) r
  · unfold interface
    rw [h.ifs, h.entry, h.pos, h.ifnum]
    exact if_neg hne
  · unfold settle
    rw [h.size, h.claiming, h.pos, hq, Nat.sub_self]
    simp

section
variable (h : Begin b s k p) (hw : Walk b p g q) (hp : p < b.total) (hin : ∀ d ∈ g, Inside b d) (hplain : Plain b k g)
  (hk : k < b.num) (hstop : Stop b k q s.claiming)
include h hw hp hin hplain hk hstop

theorem Begin.refused (hno : granted b k (count b g) = false) : ∃ t, Loop.Ends (next b) s (.noAlt t) := by
  obtain ⟨s', h', hkept, hends⟩ := pass_one hw h.first hp hin hplain (.inr hk)
  rw [zero_add] at h'
  refine ⟨s', ?_⟩
  rw [hends, h'.stop hk (hkept.claiming ▸ hstop), h'.refused hk hno]
  rfl

variable (hfits : granted b k (count b g) = true)
include hfits

theorem Begin.second :
    ∃ s', Second b s' k (count b g) (blank (count b g)) 0 p ∧
      (∀ j, j ≠ k → s'.table j = s.table j) ∧ ∀ r, Loop.Ends (next b) s r ↔ Loop.Ends (next b) s' r := by
  obtain ⟨s₁, h₁, hkept, hends⟩ := pass_one hw h.first hp hin hplain (.inr hk)
  rw [zero_add] at h₁
  have htmp : s₁.tmpsize = b.total - s₁.tmppos := by
    rw [hkept.tmpsize, hkept.tmppos, h.tmppos, h.tmpsize]
  obtain ⟨s₂, halloc, h₂, htable⟩ := h₁.alloc hk hfits htmp
  rw [hkept.tmppos, h.tmppos] at h₂
  refine ⟨s₂, h₂, fun j hj => (htable j hj).trans (hkept.table j hj), fun r => ?_⟩
  rw [hends r, h₁.stop hk (hkept.claiming ▸ hstop), halloc]
  exact Iff.rfl

theorem group_filled
    (hfill : fill b g (blank (count b g)) 0 = some (alts, i + 1)) :
    ∃ s', Begin b s' (k + 1) q ∧ s'.claiming = (if q < b.total then 1 else 0) ∧
      s'.table k = { numOfAlt := UInt8.ofNat (count b g), alt := some (setSize alts i q) } ∧
      (∀ j, j ≠ k → s'.table j = s.table j) ∧ ∀ r, Loop.Ends (next b) s r ↔ Loop.Ends (next b) s' r := by
  obtain ⟨s₁, h₁, hkept₁, hends₁⟩ := h.second hw hp hin hplain hk hstop hfits
  have hpass := pass_two hw h₁ hp hin hplain hk
  rw [hfill] at hpass
  obtain ⟨s₂, h₂, hkept₂, hends₂⟩ := hpass
  obtain ⟨s₃, hprobe, h₃, htmppos, htmpsize, hclaim, htable, hkept₃⟩ := h₂.probe
  refine ⟨s₃, ⟨h₃, htmppos, htmpsize⟩, hclaim, htable, fun j hj => ?_, fun r => ?_⟩
  · rw [hkept₃ j hj, hkept₂ j hj, hkept₁ j hj]
  · rw [hends₁ r, hends₂ r, h₂.stop hk hstop, hprobe]
    exact Iff.rfl

/-- An array that is too small, or an endpoint or an end before the first setting. -/
theorem group_fault
    (hfill : ∀ alts i, fill b g (blank (count b g)) 0 ≠ some (alts, i + 1)) (r : ParseEnd) :
    Loop.Ends (next b) s r ↔ r = .fault := by
  obtain ⟨s₁, h₁, -, hends₁⟩ := h.second hw hp hin hplain hk hstop hfits
  have hpass := pass_two hw h₁ hp hin hplain hk
  rw [hends₁ r]
  cases hf : fill b g (blank (count b g)) 0 with
  | none =>
    rw [hf] at hpass
    exact hpass r
  | some f =>
    rw [hf] at hpass
    obtain ⟨s₂, h₂, -, hends₂⟩ := hpass
    obtain ⟨alts, i⟩ := f
    cases i with
    | zero =>
      rw [hends₂ r, h₂.stop hk hstop, h₂.probe_fault]
      exact Iff.rfl
    | succ i => exact absurd hf (hfill alts i)

end

theorem First.parsed (h : First b s k c q) (hq : q ≤ b.total) (hend : q = b.total ∨ b.total < q + b.len q) :
    UsbhConfig.next b s = .inl (.parsed s) := by
  unfold UsbhConfig.next
  rw [h.pos, h.size]
  rcases lt_or_ge q b.total with hlt | hge
  · rw [if_neg (by omega), if_neg (by omega), if_pos (by omega)]
  · rw [if_pos (by omega)]

/-! ### What the second pass writes -/

/-- An endpoint comes before the first setting. -/
def early (b : Block) : List ℕ → Bool
  | [] => false
  | p :: ds => if b.isInterface p then false else b.isEndpoint p || early b ds

theorem count_cons (p : ℕ) (ds : List ℕ) : count b (p :: ds) = count b ds + if b.isInterface p then 1 else 0 := by
  unfold count
  rw [countP_cons]

@[simp] theorem setSize_length (alts : List UsbhAlt) (i p : ℕ) : (setSize alts i p).length = alts.length := by
  rw [setSize, length_modify]

@[simp] theorem nextSetting_length (alts : List UsbhAlt) (i p : ℕ) : (nextSetting alts i p).length = alts.length := by
  unfold nextSetting
  split_ifs <;> simp

@[simp] theorem firstEndpoint_length (alts : List UsbhAlt) (i p : ℕ) : (firstEndpoint alts i p).length = alts.length := by
  rw [firstEndpoint, length_modify]

/-- Sizes are stored up to two settings ago. -/
def Unsized (alts : List UsbhAlt) (i : ℕ) : Prop := ∀ j a, alts[j]? = some a → i ≤ j + 2 → a.descSize = 0

theorem Unsized.nextSetting (h : Unsized alts i) (p : ℕ) : Unsized (nextSetting alts i p) (i + 1) := by
  intro j a hj hij
  unfold UsbhConfig.nextSetting setSize at hj
  rw [getElem?_modify] at hj
  by_cases h2 : 2 ≤ i
  · rw [if_pos h2, getElem?_modify] at hj
    simp only [show i - 2 ≠ j by omega, if_false] at hj
    obtain ⟨a', ha', rfl⟩ := map_eq_some_iff.mp hj
    obtain ⟨a'', ha'', rfl⟩ := map_eq_some_iff.mp ha'
    have := h j a'' ha'' (by omega)
    split_ifs <;> exact this
  · rw [if_neg h2] at hj
    obtain ⟨a', ha', rfl⟩ := map_eq_some_iff.mp hj
    have := h j a' ha' (by omega)
    split_ifs <;> exact this

theorem Unsized.firstEndpoint (h : Unsized alts i) (k p : ℕ) : Unsized (firstEndpoint alts k p) i := by
  intro j a hj hij
  unfold UsbhConfig.firstEndpoint at hj
  rw [getElem?_modify] at hj
  obtain ⟨a', ha', rfl⟩ := map_eq_some_iff.mp hj
  have := h j a' ha' hij
  split_ifs <;> exact this

/-- The pass stays in the array if there is room, and no endpoint comes too early. -/
theorem fill_some : ∀ {g : List ℕ} {alts : List UsbhAlt} {i : ℕ}, 0 < i ∨ early b g = false → i + count b g ≤ alts.length →
    Unsized alts i → ∃ alts', fill b g alts i = some (alts', i + count b g) ∧ alts'.length = alts.length ∧
      Unsized alts' (i + count b g)
  | [], alts, i, _, _, hz => ⟨alts, rfl, rfl, hz⟩
  | p :: ds, alts, i, hearly, hroom, hz => by
    rw [count_cons] at hroom ⊢
    unfold fill fillStep
    by_cases hi : b.isInterface p = true
    · rw [if_pos hi] at hroom ⊢
      rw [if_pos hi, if_pos (by omega), bind_some]
      have hroom' : i + 1 + count b ds ≤ (nextSetting alts i p).length := by
        rw [nextSetting_length]
        omega
      obtain ⟨alts', hfill, hlen, hz'⟩ := fill_some (.inl (by omega)) hroom' (hz.nextSetting p)
      rw [show i + (count b ds + 1) = i + 1 + count b ds by omega]
      exact ⟨alts', hfill, by rw [hlen, nextSetting_length], hz'⟩
    · rw [if_neg hi] at hroom ⊢
      rw [if_neg hi]
      by_cases he : b.isEndpoint p = true
      · rw [if_pos he]
        have hpos : 0 < i := by
          refine hearly.resolve_right fun h => ?_
          rw [early, if_neg hi, he] at h
          cases h
        obtain ⟨i, rfl⟩ : ∃ j, i = j + 1 := ⟨i - 1, by omega⟩
        rw [bind_some]
        have hroom' : i + 1 + count b ds ≤ (firstEndpoint alts i p).length := by
          rw [firstEndpoint_length]
          omega
        obtain ⟨alts', hfill, hlen, hz'⟩ := fill_some (.inl (by omega)) hroom' (hz.firstEndpoint i p)
        exact ⟨alts', hfill, by rw [hlen, firstEndpoint_length], hz'⟩
      · rw [if_neg he, bind_some]
        refine fill_some (g := ds) (hearly.imp_right fun h => ?_) hroom hz
        rw [early, if_neg hi] at h
        exact (Bool.or_eq_false_iff.mp h).2

theorem fill_none : ∀ {g : List ℕ} {alts : List UsbhAlt} {i : ℕ}, (i = 0 ∧ early b g = true) ∨ alts.length < i + count b g →
    i ≤ alts.length → fill b g alts i = none
  | [], alts, i, h, hi => by
    rcases h with ⟨-, h⟩ | h
    · cases h
    · exact absurd h (by simp [count]; omega)
  | p :: ds, alts, i, h, hle => by
    rw [count_cons, early] at h
    unfold fill fillStep
    by_cases hi : b.isInterface p = true
    · rw [if_pos hi, if_pos hi] at h
      rw [if_pos hi]
      by_cases hlt : i < alts.length
      · rw [if_pos hlt, bind_some]
        refine fill_none (.inr ?_) (by rw [nextSetting_length]; omega)
        rw [nextSetting_length]
        rcases h with ⟨-, h⟩ | h
        · cases h
        · omega
      · rw [if_neg hlt]
        rfl
    · rw [if_neg hi, if_neg hi] at h
      rw [if_neg hi]
      by_cases he : b.isEndpoint p = true
      · rw [if_pos he]
        cases i with
        | zero => rfl
        | succ i =>
          rw [bind_some]
          refine fill_none (.inr ?_) (by rw [firstEndpoint_length]; omega)
          rw [firstEndpoint_length]
          rcases h with ⟨h, -⟩ | h
          · cases h
          · omega
      · rw [if_neg he, bind_some]
        refine fill_none (h.imp (fun h => ⟨h.1, ?_⟩) id) hle
        simpa [he] using h.2

/-! ### What is to be noted -/

/-- A setting: its descriptor, its interface, its first endpoint, and the next interface or the end. -/
structure Setting where
  pos : ℕ
  number : UInt8
  endpoint : Option ℕ
  stop : ℕ

def settings (b : Block) (q : ℕ) : List ℕ → List Setting
  | [] => []
  | p :: ds =>
    if b.isInterface p then
      { pos := p
        number := b.number p
        endpoint := (ds.takeWhile fun d => !b.isInterface d).find? b.isEndpoint
        stop := (ds.find? b.isInterface).getD q } :: settings b q ds
    else settings b q ds

/-- The settings of the interface `i`. -/
def settingsOf (b : Block) (q : ℕ) (ds : List ℕ) (i : ℕ) : List Setting :=
  (settings b q ds).filter fun x => x.number = UInt8.ofNat i

def Setting.alt (x : Setting) : UsbhAlt :=
  { ifsDesc := some x.pos, epDesc := x.endpoint, descSize := UInt16.ofNat (x.stop - x.pos) }

theorem settings_mem : ∀ {ds : List ℕ}, ∀ x ∈ settings b q ds, ∃ d ∈ ds, b.isInterface d ∧ x.number = b.number d
  | [], x, hx => by cases hx
  | p :: ds, x, hx => by
    unfold settings at hx
    by_cases hi : b.isInterface p = true
    · rw [if_pos hi] at hx
      rcases mem_cons.mp hx with rfl | hx
      · exact ⟨p, mem_cons_self .., hi, rfl⟩
      · obtain ⟨d, hd, hrest⟩ := settings_mem x hx
        exact ⟨d, mem_cons_of_mem _ hd, hrest⟩
    · rw [if_neg hi] at hx
      obtain ⟨d, hd, hrest⟩ := settings_mem x hx
      exact ⟨d, mem_cons_of_mem _ hd, hrest⟩

theorem settings_length : ∀ ds : List ℕ, (settings b q ds).length = count b ds
  | [] => rfl
  | p :: ds => by
    unfold settings
    rw [count_cons]
    by_cases hi : b.isInterface p = true
    · simp [hi, settings_length ds]
    · simp [hi, settings_length ds]

theorem Walk.find_le (hw : Walk b p ds q) : p ≤ (ds.find? b.isInterface).getD q := by
  induction hw with
  | nil => exact le_refl _
  | @cons p q ds hlen hend hw ih =>
    rw [find?_cons]
    split
    · exact le_refl _
    · omega

theorem settings_lt (hw : Walk b p ds q) : ∀ x ∈ settings b q ds, x.pos < x.stop ∧ x.stop ≤ q := by
  induction hw with
  | nil =>
    intro x hx
    cases hx
  | @cons p q ds hlen hend hw ih =>
    intro x hx
    unfold settings at hx
    by_cases hi : b.isInterface p = true
    · rw [if_pos hi] at hx
      rcases mem_cons.mp hx with rfl | hx
      · refine ⟨Nat.lt_of_lt_of_le (Nat.lt_add_of_pos_right hlen) hw.find_le, ?_⟩
        show (ds.find? b.isInterface).getD q ≤ q
        cases hf : ds.find? b.isInterface with
        | none => exact le_refl _
        | some d =>
          obtain ⟨l, l', rfl, -⟩ := (find?_eq_some_iff_append.mp hf).2
          obtain ⟨j, -, hw'⟩ := hw.split
          have hj := hw'.le
          cases hw' with
          | cons => exact hj
      · exact ih x hx
    · rw [if_neg hi] at hx
      exact ih x hx

theorem settings_append (hrest : rest = [] ∧ n = q ∨ ∃ ds, rest = n :: ds ∧ b.isInterface n) :
    ∀ g : List ℕ, settings b q (g ++ rest) = settings b n g ++ settings b q rest
  | [] => rfl
  | p :: g => by
    have hfind : ((g ++ rest).find? b.isInterface).getD q = (g.find? b.isInterface).getD n := by
      rw [find?_append]
      rcases hrest with ⟨rfl, rfl⟩ | ⟨ds, rfl, hn⟩
      · simp
      · rw [find?_cons_of_pos hn]
        cases g.find? b.isInterface <;> rfl
    have htake : (g ++ rest).takeWhile (fun d => !b.isInterface d) = g.takeWhile fun d => !b.isInterface d := by
      rcases hrest with ⟨rfl, -⟩ | ⟨ds, rfl, hn⟩
      · rw [append_nil]
      · rw [takeWhile_append]
        split
        · rename_i hall
          simp only [takeWhile_cons, hn, Bool.not_true, Bool.false_eq_true, if_false, append_nil]
          exact (List.takeWhile_prefix _).eq_of_length hall |>.symm
        · rfl
    have hcons : ∀ (q : ℕ) (ds : List ℕ), settings b q (p :: ds) = if b.isInterface p then
        { pos := p, number := b.number p, endpoint := (ds.takeWhile fun d => !b.isInterface d).find? b.isEndpoint,
          stop := (ds.find? b.isInterface).getD q } :: settings b q ds else settings b q ds := fun _ _ => rfl
    rw [cons_append, hcons, hcons, settings_append hrest g, hfind, htake]
    split_ifs
    · rfl
    · rfl

theorem ofNat_ne {i j : ℕ} (hi : i < 256) (hj : j < 256) (h : i ≠ j) : UInt8.ofNat i ≠ UInt8.ofNat j := by
  intro he
  apply h
  have := congrArg UInt8.toNat he
  rwa [UInt8.toNat_ofNat', UInt8.toNat_ofNat', Nat.mod_eq_of_lt hi, Nat.mod_eq_of_lt hj] at this

/-- What the second pass makes of an interface with one setting. -/
theorem fill_tail : ∀ {g : List ℕ} {x : UsbhAlt}, count b g = 0 →
    fill b g [x] 1 = some ([{ x with epDesc := x.epDesc.or (g.find? b.isEndpoint) }], 1)
  | [], x, _ => by
    simp [fill]
  | p :: g, x, h => by
    rw [count_cons] at h
    have hi : b.isInterface p = false := by
      by_contra hi
      rw [if_pos (by simpa using hi)] at h
      omega
    rw [fill, fillStep, if_neg (by simp [hi]), find?_cons]
    by_cases he : b.isEndpoint p = true
    · rw [if_pos he, bind_some]
      have hx : firstEndpoint [x] 0 p = [{ x with epDesc := x.epDesc.or (some p) }] := by
        obtain ⟨d, ep, size⟩ := x
        cases ep <;> rfl
      dsimp only
      rw [hx, fill_tail (by omega), he]
      cases x.epDesc <;> rfl
    · rw [if_neg he, bind_some]
      dsimp only
      rw [fill_tail (by omega), Bool.eq_false_iff.mpr he]

theorem count_eq_zero {g : List ℕ} : count b g = 0 ↔ ∀ d ∈ g, b.isInterface d = false := by
  simp [count]

theorem fill_one : ∀ {g : List ℕ}, count b g = 1 → early b g = false →
    ∃ x : Setting, settings b q g = [x] ∧ x.stop = q ∧
      fill b g [noSetting] 0 = some ([{ ifsDesc := some x.pos, epDesc := x.endpoint, descSize := 0 }], 1)
  | [], h, _ => by
    cases h
  | p :: g, h, hearly => by
    rw [count_cons] at h
    unfold settings fill fillStep
    by_cases hi : b.isInterface p = true
    · rw [if_pos hi] at h ⊢
      rw [if_pos hi, if_pos (by decide), bind_some]
      have hnone := count_eq_zero.mp (show count b g = 0 by omega)
      have hset : settings b q g = [] := eq_nil_of_length_eq_zero (by rw [settings_length]; omega)
      have htake : (g.takeWhile fun d => !b.isInterface d) = g := by
        rw [takeWhile_eq_self_iff]
        intro d hd
        rw [hnone d hd]
        rfl
      have hfind : g.find? b.isInterface = none := by
        rw [find?_eq_none]
        intro d hd
        rw [hnone d hd]
        decide
      rw [hset, htake, hfind]
      refine ⟨_, rfl, rfl, ?_⟩
      exact fill_tail (by omega)
    · rw [if_neg hi] at h ⊢
      rw [early, if_neg hi] at hearly
      obtain ⟨hep, hearly⟩ := Bool.or_eq_false_iff.mp hearly
      rw [if_neg hi, if_neg (by simp [hep]), bind_some]
      exact fill_one h hearly

/-! ### What the scan gets through -/

/-- `c` settings of the interface `k` were seen, after an endpoint or not. What is read is in the block; another
interface ends the parse if there is no memory, and else there are 1 to 255 settings to fill in. The last ones
are filled in if the block ends with them; at `q` there may be a descriptor of 0 bytes. -/
def Orderly (b : Block) (q : ℕ) : Bool → ℕ → ℕ → Bool → List ℕ → Prop
  | claim, k, c, e, [] =>
    if q < b.total ∧ b.len q = 0 then
      Inside b q ∧ b.isInterface q ∧ b.number q ≠ UInt8.ofNat k ∧ k < b.num ∧
        (granted b k c →
          c ≤ 255 ∧ e = false ∧ b.number q ≠ UInt8.ofNat (k + 1) ∧ k + 1 < b.num)
    else c = 0 ∨ k < b.num ∧ (q = b.total → claim → granted b k c → c ≤ 255)
  | claim, k, c, e, p :: ds =>
    Inside b p ∧
      if b.isInterface p then
        if b.number p = UInt8.ofNat k then Orderly b q claim k (c + 1) e ds
        else k < b.num ∧ (granted b k c →
          c ≤ 255 ∧ e = false ∧
            if b.number p = UInt8.ofNat (k + 1) then Orderly b q true (k + 1) 1 false ds else k + 1 < b.num)
      else Orderly b q claim k c (e || b.isEndpoint p && decide (c = 0)) ds

instance decidableOrderly (b : Block) (q : ℕ) : ∀ claim k c e ds, Decidable (Orderly b q claim k c e ds)
  | _, _, _, _, [] => inferInstanceAs (Decidable (ite _ (_ ∧ _ ∧ _ ∧ _ ∧ (_ → _ ∧ _ ∧ _ ∧ _)) (_ ∨ _ ∧ (_ → _ → _ → _))))
  | claim, k, c, e, p :: ds =>
    have := decidableOrderly b q claim k (c + 1) e ds
    have := decidableOrderly b q true (k + 1) 1 false ds
    have := decidableOrderly b q claim k c (e || b.isEndpoint p && decide (c = 0)) ds
    inferInstanceAs (Decidable (_ ∧ ite _ (ite _ _ (_ ∧ (_ → _ ∧ _ ∧ ite _ _ _))) _))

variable {claim e : Bool}

/-- Settings seen are an interface's that has its entry. -/
theorem Orderly.lt : ∀ {ds : List ℕ} {c : ℕ} {e : Bool}, Orderly b q claim k c e ds → 0 < c ∨ 0 < count b ds → k < b.num
  | [], c, e, h, hc => by
    unfold Orderly at h
    split_ifs at h with hdead
    · exact h.2.2.2.1
    · exact (h.resolve_left fun h0 => hc.elim (by omega) (by simp [count])).1
  | p :: ds, c, e, h, hc => by
    unfold Orderly at h
    rw [count_cons] at hc
    by_cases hi : b.isInterface p = true
    · rw [if_pos hi] at h
      by_cases hn : b.number p = UInt8.ofNat k
      · rw [if_pos hn] at h
        exact Orderly.lt h.2 (.inl (by omega))
      · rw [if_neg hn] at h
        exact h.2.1
    · rw [if_neg hi] at h hc
      exact Orderly.lt h.2 hc

theorem orderly_append (claim : Bool) (rest : List ℕ) : ∀ {g : List ℕ} {c : ℕ} {e : Bool}, Plain b k g →
    (Orderly b q claim k c e (g ++ rest) ↔ (∀ d ∈ g, Inside b d) ∧
      Orderly b q claim k (c + count b g) (e || decide (c = 0) && early b g) rest)
  | [], c, e, _ => by
    simp [count, early]
  | p :: g, c, e, hplain => by
    have hplain' : Plain b k g := fun d hd => hplain d (mem_cons_of_mem _ hd)
    rw [cons_append, count_cons, early, forall_mem_cons, and_assoc]
    conv_lhs => unfold Orderly
    apply and_congr_right'
    by_cases hi : b.isInterface p = true
    · rw [if_pos hi, if_pos (hplain p (mem_cons_self ..) hi), orderly_append claim rest hplain', if_pos hi, if_pos hi]
      have hc : c + 1 + count b g = c + (count b g + 1) := by omega
      rw [hc]
      simp
    · rw [if_neg hi, orderly_append claim rest hplain', if_neg hi, if_neg hi, add_zero]
      have he : ((e || b.isEndpoint p && decide (c = 0)) || decide (c = 0) && early b g) =
          (e || decide (c = 0) && (b.isEndpoint p || early b g)) := by
        cases e <;> cases b.isEndpoint p <;> cases decide (c = 0) <;> rfl
      rw [he]

/-- What is left begins with the descriptor at `p`, or ends with it, of 0 bytes. -/
def From (b : Block) (q p : ℕ) (ds : List ℕ) : Prop :=
  (∃ ds', ds = p :: ds') ∨ ds = [] ∧ p = q ∧ q < b.total ∧ b.len q = 0

theorem orderly_next (hfrom : From b q p ds) (hi : b.isInterface p) (hne : b.number p ≠ UInt8.ofNat k) :
    Orderly b q claim k c e ds ↔ Inside b p ∧ k < b.num ∧ (granted b k c →
      c ≤ 255 ∧ e = false ∧ Orderly b q true (k + 1) 0 false ds) := by
  rcases hfrom with ⟨ds', rfl⟩ | ⟨rfl, rfl, hdead⟩
  · conv_lhs => unfold Orderly
    rw [if_pos hi, if_neg hne]
    refine and_congr_right fun hin => and_congr_right' (imp_congr_right fun _ => and_congr_right' (and_congr_right' ?_))
    conv_rhs => unfold Orderly
    rw [if_pos hi]
    simp [hin]
  · unfold Orderly
    rw [if_pos hdead, if_pos hdead]
    simp only [hi, hne, ne_eq, not_false_eq_true, true_and]
    refine and_congr_right fun hin => and_congr_right' (imp_congr_right fun _ => and_congr_right' (and_congr_right' ?_))
    simp [hin]

/-! ### The whole block -/

/-- An interface's entry by its settings: right if there is one, not if there are more. -/
def Entry (xs : List Setting) (ifs : UsbhIfs) : Prop :=
  (xs.length = 1 → ifs = { numOfAlt := 1, alt := some (xs.map Setting.alt) }) ∧
    (2 ≤ xs.length → ifs.alt ≠ some (xs.map Setting.alt))

theorem ofNat_ne_zero (h0 : 0 < n) (hn : n < 65536) : UInt16.ofNat n ≠ 0 := by
  intro h
  have := congrArg UInt16.toNat h
  rw [UInt16.toNat_ofNat', Nat.mod_eq_of_lt hn] at this
  exact absurd this (by simp; omega)

/-- Where there are several settings, the one before the last keeps size 0. -/
theorem setSize_ne {xs : List Setting} (hlen : xs.length = i + 2) (hz : Unsized alts (i + 2))
    (hxs : ∀ x ∈ xs, x.pos < x.stop ∧ x.stop < 65536) : setSize alts (i + 1) q ≠ xs.map Setting.alt := by
  intro heq
  have hx : xs[i]? = some xs[i] := getElem?_eq_getElem (by omega)
  have hget := congrArg (·[i]?) heq
  simp only [setSize, getElem?_modify, getElem?_map, hx, show i + 1 ≠ i by omega, if_false, map_some] at hget
  obtain ⟨a, ha, hax⟩ := map_eq_some_iff.mp hget
  have hsize : xs[i].alt.descSize = 0 := by
    rw [← hax]
    exact hz i a ha (le_refl _)
  obtain ⟨hlt, hstop⟩ := hxs xs[i] (getElem_mem _)
  exact ofNat_ne_zero (by omega) (by omega) hsize

theorem unsized_replicate (n : ℕ) : Unsized (List.replicate n noSetting) i := by
  intro j a hj _
  rw [getElem?_replicate] at hj
  split_ifs at hj
  obtain rfl := some.inj hj
  rfl

theorem total_lt (b : Block) : b.total < 65536 := ByteMem.load16_lt _ _

/-- No array for no descriptor of an interface, more than 255, or an endpoint before the first. -/
theorem fill_bad (hbad : ¬(0 < count b g ∧ count b g ≤ 255 ∧ early b g = false)) (alts : List UsbhAlt) (i : ℕ) :
    fill b g (blank (count b g)) 0 ≠ some (alts, i + 1) := by
  intro hf
  by_cases hearly : early b g = true
  · rw [fill_none (.inl ⟨rfl, hearly⟩) (Nat.zero_le _)] at hf
    cases hf
  rw [Bool.not_eq_true] at hearly
  rcases eq_zero_or_pos (count b g) with h0 | h0
  · obtain ⟨alts', hf', -⟩ := fill_some (.inr hearly) (by rw [h0]; simp)
      (unsized_replicate (i := 0) (UInt8.ofNat (count b g)).toNat)
    rw [hf, h0] at hf'
    cases hf'
  · have hroom := (UInt8.ofNat (count b g)).toNat_lt
    have hmany : 255 < count b g := by
      by_contra hle
      exact hbad ⟨h0, by omega, hearly⟩
    rw [fill_none (.inr (by rw [length_replicate]; omega)) (Nat.zero_le _)] at hf
    cases hf

theorem fill_entry (hw : Walk b p g q) (hq : q ≤ b.total) (hearly : early b g = false) (h0 : 0 < count b g)
    (h255 : count b g ≤ 255) : ∃ alts i,
      fill b g (blank (count b g)) 0 = some (alts, i + 1) ∧
        Entry (settings b q g) { numOfAlt := UInt8.ofNat (count b g), alt := some (setSize alts i q) } := by
  have hroom : (UInt8.ofNat (count b g)).toNat = count b g := by
    rw [UInt8.toNat_ofNat', Nat.mod_eq_of_lt (by omega)]
  rw [blank, hroom]
  rcases lt_or_ge 1 (count b g) with hmany | hone
  · obtain ⟨alts, hfill, -, hz⟩ := fill_some (.inr hearly) (by rw [length_replicate, zero_add])
      (unsized_replicate (count b g))
    obtain ⟨i, hi⟩ : ∃ i, count b g = i + 2 := ⟨count b g - 2, by omega⟩
    rw [zero_add, hi] at hfill hz
    rw [hi]
    refine ⟨alts, i + 1, hfill, fun h1 => ?_, fun _ heq => ?_⟩
    · rw [settings_length, hi] at h1
      omega
    · refine setSize_ne ((settings_length g).trans hi) hz (fun x hx => ?_) (some.inj heq)
      obtain ⟨hlt, hle⟩ := settings_lt hw x hx
      exact ⟨hlt, by have := total_lt b; omega⟩
  · have h1 : count b g = 1 := by omega
    obtain ⟨x, hx, hstop, hfill⟩ := fill_one (q := q) h1 hearly
    rw [h1]
    refine ⟨_, 0, hfill, fun _ => ?_, fun h2 => ?_⟩
    · rw [hx, map_singleton, Setting.alt, hstop]
      rfl
    · rw [hx] at h2
      exact absurd h2 (by simp)

/-- What the table says of the interfaces from `k` on. -/
structure Noted (b : Block) (q : ℕ) (claim : Bool) (k : ℕ) (ds : List ℕ) (t : Scan) : Prop where
  numbers : ∀ d ∈ ds, b.isInterface d → ∃ j, k ≤ j ∧ j < b.num ∧ b.number d = UInt8.ofNat j
  filled : q = b.total → (claim = true ∨ ∃ x ∈ settings b q ds, x.number ≠ UInt8.ofNat k) →
    ∀ i, k ≤ i → i < 256 → Entry (settingsOf b q ds i) (t.table i)
  left : q = b.total → claim = false → (∀ x ∈ settings b q ds, x.number = UInt8.ofNat k) → (t.table k).alt = none

/-- If there is memory and the interfaces come in order, one has not one setting. -/
def Refused (b : Block) (q k : ℕ) (ds : List ℕ) : Prop :=
  (∀ i, b.altFits i = true) → q = b.total → (settings b q ds).Pairwise (fun x y => x.number ≤ y.number) →
    (∀ x ∈ settings b q ds, UInt8.ofNat k ≤ x.number) → ∃ i, k ≤ i ∧ i < b.num ∧ (settingsOf b q ds i).length ≠ 1

/-- The loop gets to the end of the block or runs out of memory. -/
def Through (b : Block) (s : Scan) (q : ℕ) (claim : Bool) (k : ℕ) (ds : List ℕ) : Prop :=
  (∃ t, Loop.Ends (next b) s (.parsed t) ∧ (∀ j, j < k → t.table j = s.table j) ∧ Noted b q claim k ds t) ∨
    (∃ t, Loop.Ends (next b) s (.noAlt t)) ∧ Refused b q k ds

theorem plain_settings (h : Plain b k g) : ∀ x ∈ settings b q g, x.number = UInt8.ofNat k := by
  intro x hx
  obtain ⟨d, hd, hi, hnum⟩ := settings_mem x hx
  rw [hnum]
  exact h d hd hi

theorem settingsOf_plain (h : Plain b k g) : settingsOf b q g k = settings b q g := by
  rw [settingsOf, filter_eq_self]
  intro x hx
  exact decide_eq_true (plain_settings h x hx)

theorem settingsOf_other (h : Plain b k g) (hk : k < 256) (hi : i < 256) (hne : i ≠ k) : settingsOf b q g i = [] := by
  rw [settingsOf, filter_eq_nil_iff]
  intro x hx hx'
  rw [plain_settings h x hx] at hx'
  exact ofNat_ne hk hi (Ne.symm hne) (of_decide_eq_true hx')

theorem exists_first (P : ℕ → Bool) (ds : List ℕ) :
    (∀ x ∈ ds, P x = false) ∨ ∃ l d l', ds = l ++ d :: l' ∧ P d = true ∧ ∀ x ∈ l, P x = false := by
  cases hfind : ds.find? P with
  | none => exact .inl fun x hx => by simpa using find?_eq_none.mp hfind x hx
  | some d =>
    obtain ⟨hd, l, l', hds, hl⟩ := find?_eq_some_iff_append.mp hfind
    exact .inr ⟨l, d, l', hds, hd, fun x hx => by simpa using hl x hx⟩

theorem exists_split (k : ℕ) (ds : List ℕ) : ∃ g rest, ds = g ++ rest ∧ Plain b k g ∧
    (rest = [] ∨ ∃ d ds', rest = d :: ds' ∧ b.isInterface d ∧ b.number d ≠ UInt8.ofNat k) := by
  have hplain : ∀ {l : List ℕ}, (∀ x ∈ l, (b.isInterface x && b.number x != UInt8.ofNat k) = false) → Plain b k l := by
    intro l hl x hx hi
    simpa [hi] using hl x hx
  rcases exists_first (fun x => b.isInterface x && b.number x != UInt8.ofNat k) ds with hnone | ⟨l, d, l', hds, hd, hl⟩
  · exact ⟨ds, [], (append_nil ds).symm, hplain hnone, .inl rfl⟩
  · exact ⟨l, d :: l', hds, hplain hl, .inr ⟨d, l', rfl, by simpa using hd⟩⟩

theorem ends_many (h : Begin b s k p) (hw : Walk b p ds q) (hp : p ≤ b.total) (hin : ∀ d ∈ ds, Inside b d) (hk : b.num ≤ k)
    (hcount : 0 < count b ds) (r : ParseEnd) : Loop.Ends (next b) s r ↔ r = .fault := by
  obtain ⟨lead, d, tl, rfl, hdi, hnone⟩ := (exists_first b.isInterface ds).resolve_left fun hnone => by
    rw [count_eq_zero.mpr hnone] at hcount
    exact absurd hcount (by decide)
  obtain ⟨j, hwl, hwr⟩ := hw.split
  have hjd : j = d ∧ 0 < b.len j ∧ j + b.len j ≤ b.total := by
    cases hwr with
    | cons hlen hend _ => exact ⟨rfl, hlen, hend⟩
  obtain ⟨rfl, hlen, hend⟩ := hjd
  have hle := hwl.le
  obtain ⟨s', h', -, hends⟩ := pass_one hwl h.first (by omega) (fun x hx => hin x (mem_append_left _ hx))
    (fun x hx hxi => by rw [hnone x hx] at hxi; cases hxi) (.inl (count_eq_zero.mpr hnone))
  have hfault : next b s' = .inl .fault := by
    rw [next_inside h'.pos h'.size hend (hin j (by simp)), if_pos hdi, if_pos (by rw [h'.ifs]; exact hk)]
  rw [hends r, settle_more (.inl (by rw [h'.size]; omega))]
  exact Loop.ends_inl hfault

/-- What happens at a descriptor that the first pass comes to. -/
theorem Begin.reach (h : Begin b s k p) (hw : Walk b p g q) (hq : q < b.total) (hin : ∀ d ∈ g, Inside b d)
    (hplain : Plain b k g) (hk : count b g = 0 ∨ k < b.num) :
    ∃ s', First b s' k (count b g) q ∧ Kept s s' k ∧ ∀ r, Loop.Ends (next b) s r ↔ Loop.Ends (next b) s' r := by
  have hle := hw.le
  obtain ⟨s', h', hkept, hends⟩ := pass_one hw h.first (by omega) hin hplain hk
  rw [zero_add] at h'
  refine ⟨s', h', hkept, fun r => ?_⟩
  rw [hends r, settle_more (.inl (by rw [h'.size]; omega))]
  exact Iff.rfl

theorem Begin.outside (h : Begin b s k p) (hw : Walk b p g q) (hq : q < b.total) (hend : q + b.len q ≤ b.total)
    (hin : ∀ d ∈ g, Inside b d) (hplain : Plain b k g) (hk : count b g = 0 ∨ k < b.num) (hout : ¬Inside b q) (r : ParseEnd) :
    Loop.Ends (next b) s r ↔ r = .fault := by
  obtain ⟨s', h', -, hends⟩ := h.reach hw hq hin hplain hk
  rw [hends r]
  exact Loop.ends_inl (next_outside h'.pos h'.size hq hend hout)

theorem exists_outside (h : ¬∀ d ∈ g, Inside b d) :
    ∃ l d l', g = l ++ d :: l' ∧ (∀ x ∈ l, Inside b x) ∧ ¬Inside b d := by
  obtain ⟨l, d, l', hg, hd, hl⟩ := (exists_first (fun x => !decide (Inside b x)) g).resolve_left fun hall =>
    h fun x hx => by simpa using hall x hx
  exact ⟨l, d, l', hg, fun x hx => by simpa using hl x hx, by simpa using hd⟩

variable {d : ℕ} {ds' : List ℕ}

theorem settingsOf_append (hd : b.isInterface d) (g : List ℕ) (i : ℕ) :
    settingsOf b q (g ++ d :: ds') i = settingsOf b d g i ++ settingsOf b q (d :: ds') i := by
  rw [settingsOf, settings_append (.inr ⟨ds', rfl, hd⟩), filter_append]
  rfl

/-- The settings before another interface, if those behind come in order. -/
theorem settings_gt (hd : b.isInterface d) (hne : b.number d ≠ UInt8.ofNat k)
    (hpair : (settings b q (d :: ds')).Pairwise (fun x y => x.number ≤ y.number))
    (hge : ∀ x ∈ settings b q (d :: ds'), UInt8.ofNat k ≤ x.number) :
    ∀ x ∈ settings b q (d :: ds'), UInt8.ofNat k < x.number := by
  unfold settings at hpair hge ⊢
  rw [if_pos hd] at hpair hge ⊢
  have hhead : UInt8.ofNat k < b.number d :=
    UInt8.lt_of_le_of_ne (hge _ (mem_cons_self ..)) (Ne.symm hne)
  intro x hx
  rcases mem_cons.mp hx with rfl | hx
  · exact hhead
  · exact UInt8.lt_of_lt_of_le hhead (rel_of_pairwise_cons hpair hx)

/-- An interface that gets no memory has no setting, or 256 at least. -/
theorem refused_here (hplain : Plain b k g) (hd : b.isInterface d) (hne : b.number d ≠ UInt8.ofNat k)
    (hk : k < b.num) (hno : granted b k (count b g) = false) : Refused b q k (g ++ d :: ds') := by
  intro hfits _ hpair hge
  have happend := settings_append (b := b) (q := q) (n := d) (.inr ⟨ds', rfl, hd⟩) g
  rw [happend] at hpair hge
  have hgt := settings_gt hd hne (pairwise_append.mp hpair).2.1 fun x hx => hge x (mem_append_right _ hx)
  have hnone : settingsOf b q (d :: ds') k = [] := by
    rw [settingsOf, filter_eq_nil_iff]
    intro x hx hx'
    have := hgt x hx
    rw [of_decide_eq_true hx'] at this
    exact UInt8.lt_irrefl _ this
  refine ⟨k, le_refl _, hk, ?_⟩
  rw [settingsOf_append hd, hnone, append_nil, settingsOf_plain hplain, settings_length]
  simp only [granted, malloc, hfits, Bool.true_and, decide_eq_false_iff_not, not_not, UInt8.toNat_ofNat'] at hno
  omega

theorem scan_last (h : Begin b s k p) (hclaim : s.claiming = if claim then 1 else 0)
    (hhead : claim = true → ∀ d ds', ds = d :: ds' → b.isInterface d) (hw : Walk b p ds q) (hp : p ≤ b.total)
    (hin : ∀ d ∈ ds, Inside b d) (hplain : Plain b k ds) (hend : q = b.total ∨ b.total < q + b.len q)
    (hk : count b ds = 0 ∨ k < b.num) :
    (Orderly b q claim k 0 false ds → Through b s q claim k ds) ∧
    (¬Orderly b q claim k 0 false ds → ∀ r, Loop.Ends (next b) s r → r = .fault) := by
  have hq : q ≤ b.total := hw.end_le hp
  have horderly : Orderly b q claim k 0 false ds ↔ count b ds = 0 ∨
      k < b.num ∧ (q = b.total → claim → granted b k (count b ds) → count b ds ≤ 255) := by
    have happend := orderly_append claim [] (q := q) (c := 0) (e := false) hplain
    rw [append_nil, zero_add] at happend
    rw [happend, and_iff_right hin, Orderly, if_neg (by omega)]
  rw [horderly]
  have hnumbers : ∀ d ∈ ds, b.isInterface d → ∃ j, k ≤ j ∧ j < b.num ∧ b.number d = UInt8.ofNat j := by
    intro d hd hdi
    refine ⟨k, le_refl _, hk.resolve_left fun h0 => ?_, hplain d hd hdi⟩
    rw [count_eq_zero.mp h0 d hd] at hdi
    cases hdi
  have hothers : ∀ {P : Prop}, (∃ x ∈ settings b q ds, x.number ≠ UInt8.ofNat k) → P := by
    rintro P ⟨x, hx, hne⟩
    exact absurd (plain_settings hplain x hx) hne
  rcases eq_nil_or_concat ds with rfl | ⟨init, last, hds⟩
  · -- There is nothing more.
    cases hw with
    | nil =>
      refine ⟨fun _ => .inl ⟨s, (Loop.ends_inl (h.first.parsed hp hend)).mpr rfl, fun _ _ => rfl,
        ⟨hnumbers, fun _ _ i _ _ => ?_, fun _ _ _ => ?_⟩⟩, fun hn => absurd (.inl rfl) hn⟩
      · exact ⟨fun h1 => by simp [settingsOf, settings] at h1, fun h2 => by simp [settingsOf, settings] at h2⟩
      · rw [h.first.entry]
  · have hlt : p < b.total := by
      cases hw with
      | nil => simp at hds
      | cons hlen hend _ => omega
    by_cases hfill : q = b.total ∧ claim = true
    · obtain ⟨hfull, rfl⟩ := hfill
      have hhead' : ∃ d ds', ds = d :: ds' ∧ b.isInterface d := by
        cases ds with
        | nil => simp at hds
        | cons d ds' => exact ⟨d, ds', rfl, hhead rfl d ds' rfl⟩
      obtain ⟨d, ds', hcons, hdi⟩ := hhead'
      have hcount : 0 < count b ds := by
        rw [hcons, count_cons, if_pos hdi]
        omega
      have hearly : early b ds = false := by
        rw [hcons, early, if_pos hdi]
      have hnum : k < b.num := hk.resolve_left (by omega)
      have hstop : Stop b k q s.claiming := .inr ⟨hfull, hclaim⟩
      by_cases hfits : granted b k (count b ds) = true
      · constructor
        · intro hn
          have h255 : count b ds ≤ 255 := (hn.resolve_left (by omega)).2 hfull rfl hfits
          obtain ⟨alts, i, hfill, hentry⟩ := fill_entry hw hq hearly hcount h255
          obtain ⟨s', h', -, htable, hkept, hends⟩ := group_filled h hw hlt hin hplain hnum hstop hfits hfill
          have hparsed := h'.first.parsed hq (.inl hfull)
          refine .inl ⟨s', (hends _).mpr ((Loop.ends_inl hparsed).mpr rfl), fun j hj => hkept j (by omega),
            ⟨hnumbers, fun _ _ i hki hi => ?_, ?_⟩⟩
          · by_cases hik : i = k
            · rw [hik, settingsOf_plain hplain, htable]
              exact hentry
            · have h256 : b.num < 256 := (b.mem 4).toNat_lt
              rw [settingsOf_other hplain (by omega) hi hik]
              exact ⟨fun h1 => absurd h1 (by simp), fun h2 => absurd h2 (by simp)⟩
          · intro _ hf
            cases hf
        · intro hn r hr
          have hmany : ¬count b ds ≤ 255 := fun hle => hn (.inr ⟨hnum, fun _ _ _ => hle⟩)
          exact (group_fault h hw hlt hin hplain hnum hstop hfits (fill_bad fun hgood => hmany hgood.2.1) r).mp hr
      · -- As many settings as there are numbers for are none.
        rw [Bool.not_eq_true] at hfits
        refine ⟨fun _ => .inr ⟨h.refused hw hlt hin hplain hnum hstop hfits, fun hall _ _ _ => ⟨k, le_refl _, hnum, ?_⟩⟩, fun hn => ?_⟩
        · rw [settingsOf_plain hplain, settings_length]
          simp only [granted, malloc, hall, Bool.true_and, decide_eq_false_iff_not, not_not, UInt8.toNat_ofNat'] at hfits
          omega
        · refine absurd (.inr ⟨hnum, fun _ _ hf => ?_⟩) hn
          rw [hfits] at hf
          cases hf
    · obtain ⟨s', h', hkept, hends⟩ := pass_one hw h.first hlt hin hplain hk
      have hmore : settle b s' = .inr s' := by
        apply settle_more
        rw [h'.size, hkept.claiming, hclaim]
        by_cases hqt : q = b.total
        · right
          rw [if_neg fun hc => hfill ⟨hqt, hc⟩]
        · left
          omega
      have hparsed := h'.parsed hq hend
      have hends' : Loop.Ends (next b) s (.parsed s') := by
        rw [hends, hmore]
        exact (Loop.ends_inl hparsed).mpr rfl
      refine ⟨fun _ => .inl ⟨s', hends', fun j hj => hkept.table j (by omega),
        ⟨hnumbers, fun hqt hc => ?_, fun _ _ _ => ?_⟩⟩, fun hn => ?_⟩
      · rcases hc with hc | hc
        · exact absurd ⟨hqt, hc⟩ hfill
        · exact hothers hc
      · rw [h'.entry]
      · exact absurd (hk.imp id fun hk => ⟨hk, fun hqt hc => absurd ⟨hqt, hc⟩ hfill⟩) hn

theorem Noted.append {t : Scan} (h : Noted b q true (k + 1) (d :: ds') t) (hd : b.isInterface d)
    (hne : b.number d ≠ UInt8.ofNat k) (hplain : Plain b k g) (hk : k < b.num)
    (hentry : Entry (settings b d g) (t.table k)) : Noted b q claim k (g ++ d :: ds') t := by
  have h256 : b.num < 256 := (b.mem 4).toNat_lt
  have happend := settings_append (b := b) (q := q) (n := d) (.inr ⟨ds', rfl, hd⟩) g
  refine ⟨fun x hx hxi => ?_, fun hq _ i hki hi => ?_, fun _ _ hall => ?_⟩
  · rcases mem_append.mp hx with hx | hx
    · exact ⟨k, le_refl _, hk, hplain x hx hxi⟩
    · obtain ⟨j, hj, hrest⟩ := h.numbers x hx hxi
      exact ⟨j, by omega, hrest⟩
  · rw [settingsOf_append hd]
    by_cases hik : i = k
    · have hnone : settingsOf b q (d :: ds') k = [] := by
        rw [settingsOf, filter_eq_nil_iff]
        intro x hx hx'
        obtain ⟨y, hy, hyi, hxy⟩ := settings_mem x hx
        obtain ⟨j, hj, hjn, hyj⟩ := h.numbers y hy hyi
        rw [hxy, hyj] at hx'
        exact ofNat_ne (by omega) (by omega) (by omega) (of_decide_eq_true hx')
      rw [hik, settingsOf_plain hplain, hnone, append_nil]
      exact hentry
    · rw [settingsOf_other hplain (by omega) hi hik, nil_append]
      exact h.filled hq (.inl rfl) i (by omega) hi
  · rw [happend] at hall
    have hmem : (settings b q (d :: ds')).head? = some {
        pos := d
        number := b.number d
        endpoint := (ds'.takeWhile fun d => !b.isInterface d).find? b.isEndpoint
        stop := (ds'.find? b.isInterface).getD q } := by
      rw [settings, if_pos hd]
      rfl
    exact absurd (hall _ (mem_append_right _ (mem_of_mem_head? hmem))) hne

theorem Refused.append (h : Refused b q (k + 1) (d :: ds')) (hd : b.isInterface d)
    (hne : b.number d ≠ UInt8.ofNat k) (hplain : Plain b k g) (hk : k < b.num) : Refused b q k (g ++ d :: ds') := by
  intro hfits hq hpair hge
  have h256 : b.num < 256 := (b.mem 4).toNat_lt
  have happend := settings_append (b := b) (q := q) (n := d) (.inr ⟨ds', rfl, hd⟩) g
  rw [happend] at hpair hge
  have hpair' := (pairwise_append.mp hpair).2.1
  have hgt := settings_gt hd hne hpair' fun x hx => hge x (mem_append_right _ hx)
  obtain ⟨i, hki, hi, hlen⟩ := h hfits hq hpair' fun x hx => by
    have := hgt x hx
    rw [UInt8.lt_iff_toNat_lt, UInt8.toNat_ofNat'] at this
    rw [UInt8.le_iff_toNat_le, UInt8.toNat_ofNat']
    omega
  refine ⟨i, by omega, hi, ?_⟩
  rw [settingsOf_append hd, settingsOf_other hplain (by omega) (by omega) (by omega), nil_append]
  exact hlen

theorem Through.append {j : ℕ} (h : Through b s' q true (k + 1) rest) (hfrom : From b q j rest) (hi : b.isInterface j)
    (hne : b.number j ≠ UInt8.ofNat k) (hplain : Plain b k g) (hk : k < b.num) (hentry : Entry (settings b j g) (s'.table k))
    (hkept : ∀ i, i ≠ k → s'.table i = s.table i) (hends : ∀ r, Loop.Ends (next b) s r ↔ Loop.Ends (next b) s' r) :
    Through b s q claim k (g ++ rest) := by
  refine h.imp (fun ⟨t, ht, hbefore, hnoted⟩ => ?_) fun ⟨⟨t, ht⟩, hrefused⟩ => ?_
  · refine ⟨t, (hends _).mpr ht, fun i hi => (hbefore i (by omega)).trans (hkept i (by omega)), ?_⟩
    rcases hfrom with ⟨ds', rfl⟩ | ⟨rfl, rfl, hdead⟩
    · refine hnoted.append hi hne hplain hk ?_
      rw [hbefore k (by omega)]
      exact hentry
    · refine ⟨fun x hx hxi => ?_, fun hq => absurd hq hdead.1.ne, fun hq => absurd hq hdead.1.ne⟩
      rw [append_nil] at hx
      exact ⟨k, le_refl _, hk, hplain x hx hxi⟩
  · refine ⟨⟨t, (hends _).mpr ht⟩, ?_⟩
    rcases hfrom with ⟨ds', rfl⟩ | ⟨rfl, rfl, hdead⟩
    · exact hrefused.append hi hne hplain hk
    · exact fun _ hq => absurd hq hdead.1.ne

theorem From.walk {j : ℕ} (h : From b q j rest) (hw : Walk b j rest q) : j < b.total ∧ j + b.len j ≤ b.total := by
  rcases h with ⟨ds', rfl⟩ | ⟨rfl, rfl, hlt, hlen⟩
  · cases hw with
    | cons hlen hend _ => exact ⟨by omega, hend⟩
  · exact ⟨hlt, by omega⟩

/-- **The scan**, from the start of an interface on. -/
theorem scan : ∀ (m : ℕ) {ds : List ℕ} {s : Scan} {k p : ℕ} {claim : Bool}, ds.length = m → Begin b s k p →
      (s.claiming = if claim then 1 else 0) → (claim = true → ∀ d ds', ds = d :: ds' → b.isInterface d) → Walk b p ds q →
      (q = b.total ∨ b.len q = 0 ∨ b.total < q + b.len q) → p ≤ b.total →
      (Orderly b q claim k 0 false ds → Through b s q claim k ds) ∧
      (¬Orderly b q claim k 0 false ds → ∀ r, Loop.Ends (next b) s r → r = .fault) := by
  intro m
  induction m using Nat.strong_induction_on with
  | _ m ih =>
    intro ds s k p claim hm h hclaim hhead hw hend hp
    obtain ⟨g, rest, rfl, hplain, hrest⟩ := exists_split (b := b) k ds
    obtain ⟨j, hwg, hwr⟩ := hw.split
    have happend := orderly_append claim rest (q := q) (c := 0) (e := false) hplain
    rw [zero_add, Bool.false_or, decide_eq_true rfl, Bool.true_and] at happend
    -- a descriptor of this interface that is not in the block
    by_cases hing : ∀ d ∈ g, Inside b d
    swap
    · refine ⟨fun hn => absurd (happend.mp hn).1 hing, fun _ r hr => ?_⟩
      obtain ⟨l, d, l', rfl, hl, hd⟩ := exists_outside hing
      obtain ⟨i, hwl, hwd⟩ := hwg.split
      have hplain' : Plain b k l := fun x hx => hplain x (mem_append_left _ hx)
      cases hwd with
      | cons hlen hdend _ =>
        by_cases hmany : 0 < count b l ∧ b.num ≤ k
        · exact (ends_many h hwl hp hl hmany.2 hmany.1 r).mp hr
        · exact (h.outside hwl (by omega) hdend hl hplain' (by omega) hd r).mp hr
    by_cases hmany : 0 < count b g ∧ b.num ≤ k
    · refine ⟨fun hn => ?_, fun _ r => (ends_many h hwg hp hing hmany.2 hmany.1 r).mp⟩
      have := (happend.mp hn).2.lt (.inl hmany.1)
      omega
    have hk : count b g = 0 ∨ k < b.num := by omega
    by_cases hother : From b q j rest ∧ b.isInterface j ∧ b.number j ≠ UInt8.ofNat k
    · -- another interface
      obtain ⟨hfrom, hi, hne⟩ := hother
      obtain ⟨hjlt, hjend⟩ := hfrom.walk hwr
      have hpj := hwg.le
      rw [happend, and_iff_right hing, orderly_next hfrom hi hne]
      by_cases hin : Inside b j
      swap
      · exact ⟨fun hn => absurd hn.1 hin, fun _ r => (h.outside hwg hjlt hjend hing hplain hk hin r).mp⟩
      by_cases hnum : k < b.num
      swap
      · refine ⟨fun hn => absurd hn.2.1 hnum, fun _ r hr => ?_⟩
        obtain ⟨s', h', -, hends⟩ := h.reach hwg hjlt hing hplain hk
        have hfault : next b s' = .inl .fault := by
          rw [next_inside h'.pos h'.size hjend hin, if_pos hi, if_pos (by rw [h'.ifs]; omega)]
        exact (Loop.ends_inl hfault).mp ((hends r).mp hr)
      have hstop : Stop b k j s.claiming := .inl ⟨hjlt, hjend, hin, hi, hne⟩
      by_cases hfits : granted b k (count b g) = true
      · have h0 : 0 < count b g := by
          rw [pos_iff_ne_zero]
          intro h0
          rw [h0] at hfits
          simp at hfits
        by_cases hgood : count b g ≤ 255 ∧ early b g = false
        · obtain ⟨h255, hearly⟩ := hgood
          obtain ⟨alts, i, hfill, hentry⟩ := fill_entry hwg (by omega) hearly h0 h255
          obtain ⟨s', h', hclaim', htable, hkept, hends⟩ := group_filled h hwg (by omega) hing hplain hnum hstop hfits hfill
          have hglen : 0 < g.length := lt_of_lt_of_le h0 countP_le_length
          rw [length_append] at hm
          have hclaim'' : s'.claiming = if true then 1 else 0 := by
            rw [hclaim', if_pos hjlt]
            rfl
          have hhead' : true = true → ∀ d ds'', rest = d :: ds'' → b.isInterface d := by
            rintro - d ds'' rfl
            rcases hfrom with ⟨ds', hcons⟩ | ⟨hnil, -⟩
            · cases hcons
              exact hi
            · cases hnil
          obtain ⟨hyes, hno⟩ := ih rest.length (by omega) rfl h' hclaim'' hhead' hwr hend hjlt.le
          rw [← htable] at hentry
          constructor
          · rintro ⟨-, -, hn⟩
            exact (hyes (hn hfits).2.2).append hfrom hi hne hplain hnum hentry hkept hends
          · intro hn r hr
            exact hno (fun hn' => hn ⟨hin, hnum, fun _ => ⟨h255, hearly, hn'⟩⟩) r ((hends r).mp hr)
        · refine ⟨fun hn => absurd ⟨(hn.2.2 hfits).1, (hn.2.2 hfits).2.1⟩ hgood, fun _ r hr => ?_⟩
          exact (group_fault h hwg (by omega) hing hplain hnum hstop hfits (fill_bad fun hb => hgood hb.2) r).mp hr
      · -- its array gets no memory
        rw [Bool.not_eq_true] at hfits
        refine ⟨fun _ => .inr ⟨h.refused hwg (by omega) hing hplain hnum hstop hfits, ?_⟩, fun hn => absurd ⟨hin, hnum, fun hf => ?_⟩ hn⟩
        · rcases hfrom with ⟨ds', rfl⟩ | ⟨rfl, rfl, hdead⟩
          · exact refused_here hplain hi hne hnum hfits
          · exact fun _ hq => absurd hq hdead.1.ne
        · rw [hfits] at hf
          cases hf
    · -- no other interface
      obtain rfl : rest = [] := by
        rcases hrest with rfl | ⟨d, ds', rfl, hd⟩
        · rfl
        · have hjd : j = d := by
            cases hwr with
            | cons => rfl
          exact absurd ⟨.inl ⟨ds', by rw [hjd]⟩, hjd ▸ hd⟩ hother
      obtain rfl : j = q := by
        cases hwr with
        | nil => rfl
      rw [append_nil] at *
      by_cases hdead : j < b.total ∧ b.len j = 0
      · have hown : b.isInterface j → b.number j = UInt8.ofNat k := by
          intro hi
          by_contra hne
          exact hother ⟨.inr ⟨rfl, rfl, hdead⟩, hi, hne⟩
        refine ⟨fun hn => ?_, fun _ r hr => ?_⟩
        · have hlast := (happend.mp hn).2
          unfold Orderly at hlast
          rw [if_pos hdead] at hlast
          exact absurd (hown hlast.2.1) hlast.2.2.1
        · by_cases hin : Inside b j
          · obtain ⟨s', h', -, hends⟩ := h.reach hwg hdead.1 hing hplain hk
            by_cases hi : b.isInterface j ∧ b.num ≤ k
            · have hfault : next b s' = .inl .fault := by
                rw [next_inside h'.pos h'.size (by omega) hin, if_pos hi.1, if_pos (by rw [h'.ifs]; exact hi.2)]
              exact (Loop.ends_inl hfault).mp ((hends r).mp hr)
            · refine absurd ((hends r).mp hr) (h'.stuck hdead.1 hdead.2 hin fun hi' => ⟨hown hi', ?_⟩)
              by_contra hnum
              exact hi ⟨hi', by omega⟩
          · exact (h.outside hwg hdead.1 (by omega) hing hplain hk hin r).mp hr
      · exact scan_last h hclaim hhead hwg hp hing hplain (by omega) hk

/-! ### When it is right -/

namespace Block

/-- The descriptors behind the configuration's, and where they stop. -/
def descriptors (b : Block) : List ℕ := (descs b b.total (b.len 0)).1
def stop (b : Block) : ℕ := (descs b b.total (b.len 0)).2

def settings (b : Block) : List Setting := UsbhConfig.settings b b.stop b.descriptors

/-- The settings of the interface `i`. -/
def settingsOf (b : Block) (i : ℕ) : List Setting := UsbhConfig.settingsOf b b.stop b.descriptors i

/-- A block, with memory for everything. -/
def ofMem (m : ByteMem.Mem) : Block := { mem := m, ifsFits := true, altFits := fun _ => true }

end Block

/-- The descriptors fill the block, each as long as its kind, interfaces in order. -/
structure WellFormed (b : Block) : Prop where
  config : b.type 0 = dtConfig
  header : 9 ≤ b.len 0
  full : b.stop = b.total
  size : ∀ d ∈ b.descriptors, 2 ≤ b.len d ∧ (b.isInterface d → 9 ≤ b.len d) ∧ (b.isEndpoint d → 7 ≤ b.len d)
  order : b.settings.Pairwise fun x y => x.number ≤ y.number
  numbers : ∀ x ∈ b.settings, x.number.toNat < b.num
  every : ∀ i < b.num, b.settingsOf i ≠ []

/-- What is noted of the interfaces is what the block says. -/
def Fields (b : Block) (t : Scan) : Prop :=
  ∀ i < b.num, (t.table i).numOfAlt.toNat = (b.settingsOf i).length ∧
    (t.table i).alt = some ((b.settingsOf i).map Setting.alt)

/-- What is asked of `vsfusbh_parse_config`; a device without interfaces has no fields to be noted. -/
def Right (b : Block) (epMpsIn epMpsOut : ℕ → UInt16) : Prop :=
  ∃ fuel r, parseConfig b epMpsIn epMpsOut fuel = some r ∧ r ≠ .fault ∧
    (WellFormed b → b.num ≠ 0 → ∃ t, r = .parsed t ∧ Fields b t)

/-- Each interface has one setting, and if there is one interface, it comes first. -/
def Single (b : Block) : Prop := (∀ i < b.num, (b.settingsOf i).length = 1) ∧ (b.num = 1 → b.isInterface (b.len 0))

/-- The configuration's fields are in the block; with memory for `ifs` the next header is, and the rest is
orderly. -/
def Safe (b : Block) : Prop :=
  4 ≤ b.total ∧ (b.type 0 = dtConfig → 5 ≤ b.total ∧ (malloc b.ifsFits b.num → b.len 0 + 2 ≤ b.total ∧
    Orderly b b.stop (b.isInterface (b.len 0)) 0 0 false b.descriptors))

instance (b : Block) : Decidable (Safe b) := inferInstanceAs (Decidable (_ ∧ (_ → _ ∧ (_ → _ ∧ _))))

/-- And if well formed, there is one setting each. -/
def Meets (b : Block) : Prop := Safe b ∧ (WellFormed b → Single b)

variable {epMpsIn epMpsOut : ℕ → UInt16}

theorem parseConfig_ends :
    (∃ fuel, parseConfig b epMpsIn epMpsOut fuel = some r) ↔ Loop.Goes (next b) (parseStart b epMpsIn epMpsOut) r := by
  unfold parseConfig
  cases parseStart b epMpsIn epMpsOut with
  | inl r' =>
    constructor
    · rintro ⟨_, h⟩
      exact (some.inj h).symm
    · rintro rfl
      exact ⟨0, rfl⟩
  | inr s => exact Iff.rfl

theorem fields_iff {t : Scan} (hwf : WellFormed b)
    (hnoted : Noted b b.stop (b.isInterface (b.len 0)) 0 b.descriptors t) : Fields b t ↔ Single b := by
  have h256 : b.num < 256 := (b.mem 4).toNat_lt
  have hpos : ∀ i < b.num, 0 < (b.settingsOf i).length := fun i hi => length_pos_iff.mpr (hwf.every i hi)
  have hzero : UInt8.ofNat 0 = 0 := rfl
  by_cases hfill : b.isInterface (b.len 0) = true ∨ ∃ x ∈ b.settings, x.number ≠ UInt8.ofNat 0
  · have hentry := hnoted.filled hwf.full hfill
    constructor
    · intro hf
      refine ⟨fun i hi => ?_, fun hone => ?_⟩
      · have hlen := hpos i hi
        by_contra hne
        exact (hentry i (Nat.zero_le _) (by omega)).2 (by
          show 2 ≤ (b.settingsOf i).length
          omega) (hf i hi).2
      · refine hfill.resolve_right ?_
        rintro ⟨x, hx, hne⟩
        apply hne
        have := hwf.numbers x hx
        exact UInt8.toNat_inj.mp (by rw [hzero]; show x.number.toNat = 0; omega)
    · rintro ⟨hone, -⟩ i hi
      have := (hentry i (Nat.zero_le _) (by omega)).1 (hone i hi)
      rw [this]
      exact ⟨(hone i hi).symm, rfl⟩
  · rw [not_or, Bool.not_eq_true] at hfill
    obtain ⟨hclaim, hall⟩ := hfill
    have hall' : ∀ x ∈ b.settings, x.number = UInt8.ofNat 0 := by
      intro x hx
      by_contra hne
      exact hall ⟨x, hx, hne⟩
    have hnone : (t.table 0).alt = none := hnoted.left hwf.full hclaim hall'
    constructor
    · intro hf
      refine ⟨fun i hi => ?_, fun hone => ?_⟩
      · have h0 := (hf 0 (by omega)).2
        rw [hnone] at h0
        cases h0
      · have h0 := (hf 0 (by omega)).2
        rw [hnone] at h0
        cases h0
    · rintro ⟨-, hone⟩ i hi
      have hnum : b.num ≠ 1 := by
        intro h1
        rw [hclaim] at hone
        exact absurd (hone h1) (by decide)
      obtain ⟨x, hx⟩ := exists_mem_of_ne_nil _ (hwf.every 1 (by omega))
      obtain ⟨hx, hx1⟩ := mem_filter.mp hx
      rw [hall' x hx] at hx1
      cases hx1

theorem scan_whole (hhead : b.len 0 + 1 < b.total) :
    (Orderly b b.stop (b.isInterface (b.len 0)) 0 0 false b.descriptors →
      Through b (scanStart b epMpsIn epMpsOut) b.stop (b.isInterface (b.len 0)) 0 b.descriptors) ∧
    (¬Orderly b b.stop (b.isInterface (b.len 0)) 0 0 false b.descriptors →
      ∀ r, Loop.Ends (next b) (scanStart b epMpsIn epMpsOut) r → r = .fault) := by
  obtain ⟨hw, -, hend⟩ := descs_walk (b := b) (p := b.len 0) b.total (by omega) (by omega)
  have hbegin : Begin b (scanStart b epMpsIn epMpsOut) 0 (b.len 0) := ⟨⟨rfl, rfl, rfl, rfl, rfl, rfl, fun _ _ => rfl⟩, rfl, rfl⟩
  have hfirst : b.isInterface (b.len 0) = true → ∀ d ds', b.descriptors = d :: ds' → b.isInterface d := by
    intro hi d ds' hcons
    rw [show (descs b b.total (b.len 0)).1 = d :: ds' from hcons] at hw
    cases hw with
    | cons => exact hi
  exact scan b.descriptors.length rfl hbegin rfl hfirst hw hend (by omega)

theorem parse_faults (h : ¬Safe b) (hr : Loop.Goes (next b) (parseStart b epMpsIn epMpsOut) r) : r = .fault := by
  unfold parseStart at hr
  by_cases h3 : b.total ≤ 3
  · rw [if_pos h3] at hr
    exact hr
  rw [if_neg h3] at hr
  by_cases hconfig : b.type 0 = dtConfig
  swap
  · exact absurd ⟨by omega, fun hc => absurd hc hconfig⟩ h
  rw [if_neg (not_not_intro hconfig)] at hr
  by_cases h4 : b.total ≤ 4
  · rw [if_pos h4] at hr
    exact hr
  rw [if_neg h4] at hr
  by_cases hifs : malloc b.ifsFits b.num = true
  swap
  · exact absurd ⟨by omega, fun _ => ⟨by omega, fun hc => absurd hc hifs⟩⟩ h
  rw [if_neg (not_not_intro hifs)] at hr
  by_cases hhead : b.total ≤ b.len 0 + 1
  · rw [if_pos hhead] at hr
    exact hr
  rw [if_neg hhead] at hr
  refine (scan_whole (by omega)).2 (fun horderly => h ?_) r hr
  exact ⟨by omega, fun _ => ⟨by omega, fun _ => ⟨by omega, horderly⟩⟩⟩

/-- The three ways of a parse that stays inside. -/
theorem parse_safe (epMpsIn epMpsOut : ℕ → UInt16) (h : Safe b) : (b.type 0 ≠ dtConfig ∧ parseStart b epMpsIn epMpsOut = .inl .notConfig) ∨
      (b.type 0 = dtConfig ∧ malloc b.ifsFits b.num = false ∧ parseStart b epMpsIn epMpsOut = .inl .noIfs) ∨
      (b.type 0 = dtConfig ∧ parseStart b epMpsIn epMpsOut = .inr (scanStart b epMpsIn epMpsOut) ∧
        Through b (scanStart b epMpsIn epMpsOut) b.stop (b.isInterface (b.len 0)) 0 b.descriptors) := by
  obtain ⟨h4, h⟩ := h
  unfold parseStart
  rw [if_neg (by omega)]
  by_cases hconfig : b.type 0 = dtConfig
  · obtain ⟨h5, h⟩ := h hconfig
    rw [if_neg (not_not_intro hconfig), if_neg (by omega)]
    by_cases hifs : malloc b.ifsFits b.num = true
    · obtain ⟨hhead, horderly⟩ := h hifs
      rw [if_neg (not_not_intro hifs), if_neg (by omega)]
      exact .inr (.inr ⟨hconfig, rfl, (scan_whole (by omega)).1 horderly⟩)
    · rw [if_pos hifs]
      exact .inr (.inl ⟨hconfig, by simpa using hifs, rfl⟩)
  · rw [if_pos hconfig]
    exact .inl ⟨hconfig, rfl⟩

theorem parse_cases (h : Safe b) {fuel : ℕ} (hr : parseConfig b epMpsIn epMpsOut fuel = some r) :
    (b.type 0 ≠ dtConfig ∧ r = .notConfig) ∨ (b.type 0 = dtConfig ∧ malloc b.ifsFits b.num = false ∧ r = .noIfs) ∨
      (b.type 0 = dtConfig ∧ ∃ s, r = .noAlt s ∨ r = .parsed s) := by
  have hgoes := parseConfig_ends.mp ⟨fuel, hr⟩
  rcases parse_safe epMpsIn epMpsOut h with
    ⟨hc, hstart⟩ | ⟨hc, hno, hstart⟩ | ⟨hc, hstart, hthrough⟩
  · rw [hstart] at hgoes
    exact .inl ⟨hc, hgoes⟩
  · rw [hstart] at hgoes
    exact .inr (.inl ⟨hc, hno, hgoes⟩)
  · rw [hstart] at hgoes
    refine .inr (.inr ⟨hc, ?_⟩)
    rcases hthrough with ⟨t, ht, -⟩ | ⟨⟨t, ht⟩, -⟩
    · exact ⟨t, .inr (Loop.Ends.unique hgoes ht)⟩
    · exact ⟨t, .inl (Loop.Ends.unique hgoes ht)⟩

/-- One interface with two settings. -/
def twoSettings : Block :=
  .ofMem fun i => [9, 2, 27, 0, 1, 1, 0, 0, 0, 9, 4, 0, 0, 0, 0, 0, 0, 0, 9, 4, 0, 1, 0, 0, 0, 0, 0].getD i 0

theorem twoSettings_wellFormed : WellFormed twoSettings := by
  refine ⟨by decide, by decide, by decide +kernel, by decide +kernel, by decide +kernel, by decide +kernel, ?_⟩
  intro i hi
  have hnum : twoSettings.num = 1 := by decide
  obtain rfl : i = 0 := by omega
  decide +kernel

end UsbhConfig
end Vsf
