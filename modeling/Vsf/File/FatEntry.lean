/-
# The entry that is looked up

`vsffat_get_FATentry` from its call to its return, over the device: a sector that `vsf_malfs_read`
refuses is never over. Where the first sector has to be read, an entry `2 ^ 32` bits or more into
the table is taken from `2 ^ 32` bits in front of it; where it is there already, the shift is the
low bits of its number (`CachedRight`).
-/
import Mathlib
import Vsf.File.Fat
import Vsf.Lib.ByteMem

namespace Vsf
namespace Fat

open ByteMem Bpb

variable {d : Device} {fat : Fat} {l : Lookup} {c b : ℕ}

/-- A volume that was mounted, as far as the table goes. -/
structure Table (d : Device) (fat : Fat) : Prop where
  type : fat.type = .fat12 ∨ fat.type = .fat16 ∨ fat.type = .fat32
  size : fat.sectorsize = 512 ∨ fat.sectorsize = 1024 ∨ fat.sectorsize = 2048 ∨ fat.sectorsize = 4096
  block : d.blockSize = fat.sectorsize
  base : 0 < fat.fatbase ∧ fat.fatbase < 2 ^ 16

/-- The bits of an entry at the bit `b` of the table. -/
def entryAt (d : Device) (fat : Fat) (b : ℕ) : ℕ := bits d.disk (8 * (fat.fatbase * fat.sectorsize) + b) fat.fatbit

/-- The entry of a cluster, packed as the tables have it. -/
def entryOf (d : Device) (fat : Fat) (c : ℕ) : ℕ := entryAt d fat (c * fat.fatbit)

/-- The lookup goes on as long as it waits for a sector, and `n` times at most. -/
def answer (d : Device) (fat : Fat) : ℕ → Lookup × LookupOut → Option ℕ
  | _, (l, .done) => some l.entry
  | _, (_, .fail) => none
  | 0, (_, .wait _) => none
  | n + 1, (l, .wait sector) =>
    if d.accepts sector 1 then answer d fat n (fat.lookupResume { l with buffer := d.deliver sector 1 0 l.buffer } true) else none

/-- `vsffat_get_FATentry` of a cluster, `l` being what earlier calls left. -/
def lookup (d : Device) (fat : Fat) (n : ℕ) (l : Lookup) (c : ℕ) : Option ℕ := answer d fat n (fat.lookupStart { l with entry := c })

@[simp] theorem answer_done (n : ℕ) : answer d fat n (l, .done) = some l.entry := by
  cases n <;> rfl

/-! ### When it is the right one -/

/-- The sector where the entry starts, as it is computed. -/
def sectorAt (fat : Fat) (b : ℕ) : ℕ := fat.fatbase + b / (8 * fat.sectorsize)

/-- Where in the sector. -/
def offsetAt (fat : Fat) (b : ℕ) : ℕ := b % (8 * fat.sectorsize)

/-- The entry is in two sectors, this many bits of it in the first. -/
def roomAt (fat : Fat) (b : ℕ) : ℕ := 8 * fat.sectorsize - fat.offsetAt b

def Crosses (fat : Fat) (b : ℕ) : Prop := fat.roomAt b < fat.fatbit

instance (fat : Fat) (b : ℕ) : Decidable (fat.Crosses b) := inferInstanceAs (Decidable (_ < _))

/-- The second sector, as it is computed from the number of the first. -/
def behind (fat : Fat) (sector : ℕ) : ℕ := fat.fatbase + sector / (8 * fat.sectorsize) + 1

/-- The sector has to be read. -/
def UncachedRight (d : Device) (fat : Fat) (c : ℕ) : Prop :=
  let b := fat.startbit c
  d.accepts (fat.sectorAt b) 1 ∧ (fat.Crosses b → d.accepts (fat.sectorAt b + 1) 1) ∧ entryAt d fat b = entryOf d fat c

/-- The bits taken from the buffer and the second sector are those of the entry. -/
def CachedRight (d : Device) (fat : Fat) (m : Mem) (c : ℕ) : Prop :=
  let b := fat.startbit c
  let sector := fat.sectorAt b
  let taken := 8 * (fat.offsetAt b / 8) + sector % 8
  if fat.Crosses b then
    bits m taken (fat.roomAt b) = entryOf d fat c % 2 ^ fat.roomAt b ∧
      (fat.behind sector ≠ sector → d.accepts (fat.behind sector) 1) ∧
      bits (if fat.behind sector = sector then m else d.byte (fat.behind sector)) 0 (fat.fatbit - fat.roomAt b) =
        entryOf d fat c / 2 ^ fat.roomAt b
  else bits m taken fat.fatbit = entryOf d fat c

/-- What makes the entry of a cluster the right one. -/
def LookupRight (d : Device) (fat : Fat) (l : Lookup) (c : ℕ) : Prop :=
  if l.curFatsector = fat.sectorAt (fat.startbit c) then CachedRight d fat l.buffer c else UncachedRight d fat c

instance (d : Device) (fat : Fat) (c : ℕ) : Decidable (UncachedRight d fat c) := inferInstanceAs (Decidable (_ ∧ _ ∧ _))

instance (d : Device) (fat : Fat) (m : Mem) (c : ℕ) : Decidable (CachedRight d fat m c) :=
  inferInstanceAs (Decidable (@ite Prop _ _ (_ ∧ _ ∧ _) _))

instance (d : Device) (fat : Fat) (l : Lookup) (c : ℕ) : Decidable (LookupRight d fat l c) :=
  inferInstanceAs (Decidable (@ite Prop _ _ _ _))

/-! ### Mounted volumes -/

theorem table_of_mount {fsinfo : ℕ} (h : parseDbrFat d.disk d.blockSize fsinfo = some fat) : Table d fat := by
  obtain ⟨hblock, hsec, -, hbase⟩ := parseDbrFat_fields h
  unfold parseDbrFat at h
  dsimp only at h
  split at h
  · cases h
  · rename_i hok
    simp only [not_or, not_and_or, not_not] at hok
    obtain ⟨⟨-, hsize⟩, -, hrsvd, -⟩ := hok
    have hbits : fat.sectorsize = bytsPerSec d.disk := by
      unfold Fat.sectorsize
      rw [hsec]
      rcases hsize with hs | hs | hs | hs <;> rw [hs] <;> rfl
    refine ⟨?_, by rw [hbits]; omega, by rw [hbits, hblock], ?_, ?_⟩
    · split_ifs at h
      all_goals
        obtain rfl := Option.some.inj h
        first
          | exact .inr (.inr rfl)
          | exact .inl rfl
          | exact .inr (.inl rfl)
    · rw [hbase]
      exact pos_of_ne_zero hrsvd
    · rw [hbase]
      exact load16_lt _ _

namespace Table

variable (h : Table d fat)

include h

theorem fatbit_cases : fat.fatbit = 12 ∨ fat.fatbit = 16 ∨ fat.fatbit = 32 := by
  unfold Fat.fatbit
  rcases h.type with ht | ht | ht
  · exact .inl (by rw [ht]; rfl)
  · exact .inr (.inl (by rw [ht]; rfl))
  · exact .inr (.inr (by rw [ht]; rfl))

/-- An entry in two sectors has 12 bits, 4 or 8 of them in the first. -/
theorem crosses (hc : fat.Crosses (fat.startbit c)) : fat.fatbit = 12 ∧
    (fat.roomAt (fat.startbit c) = 4 ∧ fat.startbit c % 8 = 4 ∨ fat.roomAt (fat.startbit c) = 8 ∧ fat.startbit c % 8 = 0) := by
  have hsize := h.size
  have hpos : 0 < 8 * fat.sectorsize := by omega
  unfold Crosses roomAt offsetAt at hc
  unfold roomAt offsetAt
  rcases h.fatbit_cases with hb | hb | hb
  · have hfour : fat.startbit c % 4 = 0 := by
      rw [Fat.startbit, hb]
      omega
    have hroom := twelve_leaves hfour (Nat.mul_mod_right 8 _) hpos (by omega)
    exact ⟨hb, by omega⟩
  · have hdvd : 16 ∣ fat.startbit c := by
      rw [Fat.startbit, hb]
      omega
    have hin := word_inside hdvd (by omega) hpos
    omega
  · have hdvd : 32 ∣ fat.startbit c := by
      rw [Fat.startbit, hb]
      omega
    have hin := word_inside hdvd (by omega) hpos
    omega

omit h in
theorem startbit_lt (c : ℕ) : fat.startbit c < 2 ^ 32 := Nat.mod_lt _ (by decide)

theorem sector_lt (hb : b < 2 ^ 32) : fat.sectorAt b < 2 ^ 21 := by
  unfold sectorAt
  have hbase := h.base.2
  rcases h.size with hs | hs | hs | hs
  all_goals
    rw [hs]
    omega

theorem byte (hb : b < 2 ^ 32) {k : ℕ} (hk : k ≤ 1) (i : ℕ) :
    d.byte (fat.sectorAt b + k) i = d.disk ((fat.sectorAt b + k) * fat.sectorsize + i) := by
  have hmod : d.blockSize % 2 ^ 32 = fat.sectorsize := by
    rw [h.block]
    rcases h.size with hs | hs | hs | hs <;> rw [hs] <;> rfl
  unfold Device.byte
  rw [hmod, Nat.mod_eq_of_lt]
  unfold sectorAt
  have hbase := h.base.2
  rcases h.size with hs | hs | hs | hs
  all_goals
    rw [hs]
    omega

omit h in
theorem byte_at (b : ℕ) : b / 8 = b / (8 * fat.sectorsize) * fat.sectorsize + fat.offsetAt b / 8 := by
  unfold offsetAt
  conv_lhs => rw [← Nat.div_add_mod b (8 * fat.sectorsize), mul_assoc]
  rw [Nat.mul_add_div (by decide), mul_comm fat.sectorsize]

theorem bits_first {m : Mem} (hfill : ∀ i < fat.sectorsize, m i = d.byte (fat.sectorAt b) i) (hb : b < 2 ^ 32) {n : ℕ}
    (hn : n ≤ fat.roomAt b) : bits m (fat.offsetAt b) n = bits d.disk (8 * (fat.fatbase * fat.sectorsize) + b) n := by
  have hat := @byte_at fat b
  have hmod : fat.offsetAt b % 8 = b % 8 := Nat.mod_mul_right_mod _ 8 _
  have hoff : fat.offsetAt b < 8 * fat.sectorsize := Nat.mod_lt _ (by have := h.size; omega)
  refine bits_same (by omega) fun k _ hk => ?_
  have hin : fat.offsetAt b / 8 + k < fat.sectorsize := by
    unfold roomAt at hn
    omega
  rw [hfill _ hin]
  refine (h.byte hb (Nat.zero_le 1) _).trans (congrArg d.disk ?_)
  rw [Nat.mul_add_div (by decide), hat, Nat.add_zero, sectorAt, Nat.add_mul]
  omega

theorem bits_second {m : Mem} (hfill : ∀ i < fat.sectorsize, m i = d.byte (fat.sectorAt (fat.startbit c) + 1) i)
    (hc : fat.Crosses (fat.startbit c)) : bits m 0 (fat.fatbit - fat.roomAt (fat.startbit c)) =
      entryAt d fat (fat.startbit c) / 2 ^ fat.roomAt (fat.startbit c) := by
  obtain ⟨hbit, hroom⟩ := h.crosses hc
  have hb := @startbit_lt fat c
  generalize fat.startbit c = b at hroom hfill hb ⊢
  have hat := @byte_at fat b
  have hoff : fat.offsetAt b + fat.roomAt b = 8 * fat.sectorsize := by
    have : fat.offsetAt b < 8 * fat.sectorsize := Nat.mod_lt _ (by have := h.size; omega)
    unfold roomAt
    omega
  unfold entryAt
  rw [bits_div _ (by omega) (by omega) (by omega)]
  refine bits_same (by omega) fun k _ hk => ?_
  rw [hfill _ (by omega), h.byte hb le_rfl]
  refine congrArg d.disk ?_
  have hsum : (8 * (fat.fatbase * fat.sectorsize) + b + fat.roomAt b) / 8 =
      fat.fatbase * fat.sectorsize + (b / (8 * fat.sectorsize) * fat.sectorsize + fat.sectorsize) := by
    omega
  rw [hsum, sectorAt, add_mul, add_mul]
  omega

end Table

/-! ### The lookup -/

/-- An entry in two sectors, put together. -/
def joined (fat : Fat) (low readbit : ℕ) (m : Mem) : ℕ := (low ||| load32 m 0 * 2 ^ readbit % 2 ^ 32) % 2 ^ fat.fatbit

theorem joined_eq_iff (h : Table d fat) {r e low : ℕ} (m : Mem) (hr : r ≤ fat.fatbit) (he : e < 2 ^ fat.fatbit) (hlow : low < 2 ^ r) :
    fat.joined low r m = e ↔ low = e % 2 ^ r ∧ bits m 0 (fat.fatbit - r) = e / 2 ^ r := by
  have hzero : bits m 0 (fat.fatbit - r) = load32 m 0 % 2 ^ (fat.fatbit - r) := by
    unfold bits
    rw [Nat.zero_div, Nat.zero_mod, Nat.pow_zero, Nat.div_one]
  rw [hzero]
  exact join_eq_iff hr (by have := h.fatbit_cases; omega) he hlow

theorem bits_taken (m : Mem) (off st n : ℕ) : load32 m (off / 8) / 2 ^ (st % 8) % 2 ^ n = bits m (8 * (off / 8) + st % 8) n := by
  have hdiv : (8 * (off / 8) + st % 8) / 8 = off / 8 := by omega
  have hmod : (8 * (off / 8) + st % 8) % 8 = st % 8 := by omega
  unfold bits
  rw [hdiv, hmod]

theorem first_single (l : Lookup) {st : ℕ} (hc : ¬ fat.Crosses b) : l.first fat st (fat.offsetAt b) =
    ({ l with readbit := fat.fatbit, entry := bits l.buffer (8 * (fat.offsetAt b / 8) + st % 8) fat.fatbit }, .done) := by
  have hmin : min fat.fatbit (8 * fat.sectorsize - fat.offsetAt b) = fat.fatbit := min_eq_left (not_lt.mp hc)
  unfold Lookup.first
  rw [Placed.sectorbit, hmin, if_neg (lt_irrefl _), bits_taken]

theorem first_double (l : Lookup) {st : ℕ} (hc : fat.Crosses b) : l.first fat st (fat.offsetAt b) =
    { l with readbit := fat.roomAt b, entry := bits l.buffer (8 * (fat.offsetAt b / 8) + st % 8) (fat.roomAt b) }.again fat st := by
  have hmin : min fat.fatbit (8 * fat.sectorsize - fat.offsetAt b) = fat.roomAt b := min_eq_right (le_of_lt hc)
  unfold Lookup.first
  rw [Placed.sectorbit, hmin, if_pos (show fat.roomAt b < fat.fatbit from hc), bits_taken]

theorem answer_again (n : ℕ) (l : Lookup) {st : ℕ} (hr : l.readbit ≠ 0) (hst : fat.behind st < 2 ^ 32) :
    answer d fat (n + 1) (l.again fat st) =
      if l.curFatsector = fat.behind st then some (fat.joined l.entry l.readbit l.buffer)
      else if d.accepts (fat.behind st) 1 then
        some (fat.joined l.entry l.readbit (d.deliver (fat.behind st) 1 0 l.buffer))
      else none := by
  have hsec : fat.fatsector st l.readbit = fat.behind st := by
    rw [fatsector, Placed.sectorbit, if_pos hr]
    exact Nat.mod_eq_of_lt hst
  unfold Lookup.again
  rw [hsec]
  by_cases hcur : l.curFatsector = fat.behind st
  · rw [if_neg (not_not.mpr hcur), if_pos hcur]
    rfl
  · rw [if_pos hcur, if_neg hcur, answer]
    split_ifs with hacc
    · unfold lookupResume
      rw [if_neg (by decide), if_pos hr]
      exact answer_done n
    · rfl

theorem Table.start (h : Table d fat) (l : Lookup) (hc : 2 ≤ c) : fat.lookupStart { l with entry := c } =
    if l.curFatsector = fat.sectorAt (fat.startbit c) then
      { l with entry := c, readbit := 0 }.first fat (fat.sectorAt (fat.startbit c)) (fat.offsetAt (fat.startbit c))
    else ({ l with entry := c, readbit := 0, curFatsector := fat.sectorAt (fat.startbit c) },
      .wait (fat.sectorAt (fat.startbit c))) := by
  have hsec : fat.fatsector (fat.startbit c) 0 = fat.sectorAt (fat.startbit c) := by
    have hlt := h.sector_lt (@Table.startbit_lt fat c)
    rw [fatsector, Placed.sectorbit, if_neg (by decide), add_zero]
    exact Nat.mod_eq_of_lt (by unfold sectorAt at hlt; omega)
  have hoff : fat.startbitSec c = fat.offsetAt (fat.startbit c) := by
    rw [startbitSec, Placed.sectorbit, offsetAt]
  unfold lookupStart
  dsimp only
  rw [if_neg (by omega), hsec, hoff]
  by_cases hcur : l.curFatsector = fat.sectorAt (fat.startbit c)
  · rw [if_neg (not_not.mpr hcur), if_pos hcur]
  · rw [if_pos hcur, if_neg hcur]

theorem Table.delivered (h : Table d fat) (sector : ℕ) (m : Mem) : ∀ i < fat.sectorsize, d.deliver sector 1 0 m i = d.byte sector i := by
  intro i hi
  have hmod : 1 * (d.blockSize % 2 ^ 32) % 2 ^ 32 = fat.sectorsize := by
    rw [h.block]
    rcases h.size with hs | hs | hs | hs <;> rw [hs] <;> rfl
  unfold Device.deliver
  rw [hmod, if_pos ⟨Nat.zero_le i, by omega⟩, Nat.sub_zero]

/-- **Where the sector is not there**, the entry is at the computed bit. -/
theorem answer_uncached (h : Table d fat) (n : ℕ) (hc : 2 ≤ c) (hcur : l.curFatsector ≠ fat.sectorAt (fat.startbit c)) :
    lookup d fat (n + 2) l c =
      if d.accepts (fat.sectorAt (fat.startbit c)) 1 ∧
          (fat.Crosses (fat.startbit c) → d.accepts (fat.sectorAt (fat.startbit c) + 1) 1) then
        some (entryAt d fat (fat.startbit c))
      else none := by
  have hb := @Table.startbit_lt fat c
  have hlt := h.sector_lt hb
  have hoff : fat.startbitSec c = fat.offsetAt (fat.startbit c) := by
    rw [startbitSec, Placed.sectorbit, offsetAt]
  have hmod : 8 * (fat.offsetAt (fat.startbit c) / 8) + fat.startbit c % 8 = fat.offsetAt (fat.startbit c) := by
    have : fat.offsetAt (fat.startbit c) % 8 = fat.startbit c % 8 := Nat.mod_mul_right_mod _ 8 _
    omega
  unfold lookup
  rw [h.start l hc, if_neg hcur, answer]
  by_cases hacc : d.accepts (fat.sectorAt (fat.startbit c)) 1
  · have hres : ∀ l : Lookup, l.readbit = 0 → l.entry = c →
        fat.lookupResume l true = l.first fat (fat.startbit c) (fat.offsetAt (fat.startbit c)) := by
      intro l hr he
      rw [lookupResume, if_neg (by decide), if_neg (not_not.mpr hr), he, hoff]
    rw [if_pos hacc, hres]
    by_cases hcross : fat.Crosses (fat.startbit c)
    · obtain ⟨-, hroom⟩ := h.crosses hcross
      have hne : fat.sectorAt (fat.startbit c) ≠ fat.behind (fat.startbit c) := (Nat.lt_succ_self _).ne
      rw [first_double _ hcross, answer_again n _ (by show fat.roomAt _ ≠ 0; omega) (by show fat.sectorAt _ + 1 < _; omega),
        if_neg hne]
      by_cases hnext : d.accepts (fat.sectorAt (fat.startbit c) + 1) 1
      · rw [if_pos (show d.accepts (fat.behind (fat.startbit c)) 1 from hnext), if_pos ⟨hacc, fun _ => hnext⟩]
        refine congrArg some ((joined_eq_iff h _ (le_of_lt hcross) (bits_lt _ _ _) (bits_lt _ _ _)).mpr ⟨?_, ?_⟩)
        · rw [hmod, h.bits_first (h.delivered _ _) hb le_rfl]
          exact (bits_mod _ _ (le_of_lt hcross)).symm
        · exact h.bits_second (h.delivered _ _) hcross
      · rw [if_neg (show ¬ d.accepts (fat.behind (fat.startbit c)) 1 from hnext), if_neg (fun hand => hnext (hand.2 hcross))]
    · rw [first_single _ hcross, answer_done, if_pos ⟨hacc, fun hcon => absurd hcon hcross⟩]
      refine congrArg some ?_
      show bits (d.deliver (fat.sectorAt (fat.startbit c)) 1 0 l.buffer) _ _ = _
      rw [hmod]
      exact h.bits_first (h.delivered _ _) hb (not_lt.mp hcross)
    · rfl
    · rfl
  · rw [if_neg hacc, if_neg (fun hand => hacc hand.1)]

/-- **Where the sector is there.** -/
theorem answer_cached (h : Table d fat) (n : ℕ) (hc : 2 ≤ c) (hcur : l.curFatsector = fat.sectorAt (fat.startbit c)) :
    lookup d fat (n + 2) l c = some (entryOf d fat c) ↔ CachedRight d fat l.buffer c := by
  have hlt := h.sector_lt (@Table.startbit_lt fat c)
  have he : entryOf d fat c < 2 ^ fat.fatbit := bits_lt _ _ _
  have hbehind : fat.behind (fat.sectorAt (fat.startbit c)) < 2 ^ 32 := by
    have hbase := h.base.2
    have := Nat.div_le_self (fat.sectorAt (fat.startbit c)) (8 * fat.sectorsize)
    unfold behind
    omega
  unfold lookup CachedRight
  rw [h.start l hc, if_pos hcur]
  by_cases hcross : fat.Crosses (fat.startbit c)
  · obtain ⟨-, hroom⟩ := h.crosses hcross
    rw [first_double _ hcross, answer_again (n + 1) _ (by show fat.roomAt _ ≠ 0; omega) hbehind, if_pos hcross]
    rw [hcur]
    by_cases hsame : fat.sectorAt (fat.startbit c) = fat.behind (fat.sectorAt (fat.startbit c))
    · rw [if_pos hsame, if_pos hsame.symm, Option.some.injEq,
        joined_eq_iff h _ (le_of_lt hcross) he (bits_lt _ _ _)]
      exact ⟨fun hand => ⟨hand.1, fun hne => absurd hsame.symm hne, hand.2⟩, fun hand => ⟨hand.1, hand.2.2⟩⟩
    · have hsymm : ¬ fat.behind (fat.sectorAt (fat.startbit c)) = fat.sectorAt (fat.startbit c) := fun heq => hsame heq.symm
      rw [if_neg hsame, if_neg hsymm]
      have hbits : bits (d.deliver (fat.behind (fat.sectorAt (fat.startbit c))) 1 0 l.buffer) 0
            (fat.fatbit - fat.roomAt (fat.startbit c)) =
          bits (d.byte (fat.behind (fat.sectorAt (fat.startbit c)))) 0 (fat.fatbit - fat.roomAt (fat.startbit c)) := by
        refine bits_same rfl fun k hk _ => ?_
        exact h.delivered _ _ _ (by have := h.size; omega)
      by_cases hacc : d.accepts (fat.behind (fat.sectorAt (fat.startbit c))) 1
      · rw [if_pos hacc, Option.some.injEq, joined_eq_iff h _ (le_of_lt hcross) he (bits_lt _ _ _), hbits]
        exact ⟨fun hand => ⟨hand.1, fun _ => hacc, hand.2⟩, fun hand => ⟨hand.1, hand.2.2⟩⟩
      · rw [if_neg hacc]
        exact ⟨fun hno => (by cases hno), fun hand => absurd (hand.2.1 hsymm) hacc⟩
  · rw [first_single _ hcross, answer_done, if_neg hcross, Option.some.injEq]

/-- **`vsffat_get_FATentry` returns the entry of the cluster** just when the bits that it takes are its own. -/
theorem lookup_iff (h : Table d fat) (l : Lookup) (hc : 2 ≤ c) (n : ℕ) :
    lookup d fat (n + 2) l c = some (entryOf d fat c) ↔ LookupRight d fat l c := by
  unfold LookupRight
  by_cases hcur : l.curFatsector = fat.sectorAt (fat.startbit c)
  · rw [if_pos hcur]
    exact answer_cached h n hc hcur
  · rw [if_neg hcur, answer_uncached h n hc hcur]
    unfold UncachedRight
    split_ifs with hacc
    · rw [Option.some.injEq]
      exact ⟨fun he => ⟨hacc.1, hacc.2, he⟩, fun hand => hand.2.2⟩
    · exact ⟨fun hno => (by cases hno), fun hand => absurd ⟨hand.1, hand.2.1⟩ hacc⟩

/-- A volume of 100 sectors, whose table begins in the second one. -/
def small (type : FatType) : Fat :=
  { type, sectorsizeBits := 9, clustersizeBits := 1, fatnum := 1, reservedSize := 1, rootentry := 16, fsinfo := 0, fatsize := 2,
    rootCluster := 0, clusternum := 40, fatbase := 1, database := 4, rootbase := 3, rootsize := 1 }

def smallDevice (disk : Mem) : Device := { disk, blockSize := 512, blockNum := 100 }

theorem small_table (type : FatType) (disk : Mem) (h : type = .fat12 ∨ type = .fat16 ∨ type = .fat32) :
    Table (smallDevice disk) (small type) := ⟨h, .inl rfl, rfl, one_pos, by show 1 < _; decide⟩

/-- An entry of 12 bits in two sectors, neither of which is there. -/
theorem lookup_iff_straddling : lookup (smallDevice fun i => if i = 1023 then 0xA0 else if i = 1024 then 0xBC else 0) (small .fat12) 2
    { buffer := fun _ => 0, curFatsector := 0, readbit := 0, entry := 0 } 341 = some 0xBCA :=
  (lookup_iff (small_table .fat12 _ (.inl rfl)) _ (by decide) 0).mpr (by decide +kernel)

/-- The same sector once more: the entry of cluster 2 is 4, and 2 is returned. -/
theorem lookup_shifts : Filled (smallDevice fun i => if i = 516 then 4 else 0)
      { buffer := fun i => if i = 4 then 4 else 0, curFatsector := 1, readbit := 16, entry := 0 } ∧
    entryOf (smallDevice fun i => if i = 516 then 4 else 0) (small .fat16) 2 = 4 ∧
    lookup (smallDevice fun i => if i = 516 then 4 else 0) (small .fat16) 2
      { buffer := fun i => if i = 4 then 4 else 0, curFatsector := 1, readbit := 16, entry := 0 } 2 = some 2 := by
  refine ⟨?_, by decide +kernel, by decide +kernel⟩
  intro i hi
  unfold Device.byte smallDevice
  dsimp only
  by_cases h4 : i = 4
  · subst h4
    rfl
  · rw [if_neg h4, if_neg (by omega)]

end Fat
end Vsf
