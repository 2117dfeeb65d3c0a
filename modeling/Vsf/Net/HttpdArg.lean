/-
# The arguments of a request

`vsfip_httpd_getarg` looks a name up in items `key=value` and bare keys. It compares what is in
front of the next `=` with the name, over the length of the former: a prefix of the name is taken
for it, and behind a bare key the next `=` belongs to a later item. `getarg_iff` says when the
answer is the first item's value.
-/
import Mathlib
import Vsf.Lib.ByteMem
import Vsf.Lib.CStr

namespace Vsf
namespace Httpd

open ByteMem CStr List Option

/-! ### Queries -/

/-- A key or a value. -/
structure Word where
  bytes : List UInt8
  noAmp : 38 ∉ bytes
  noEq : 61 ∉ bytes
  noZero : 0 ∉ bytes

/-- `key=value`, or a key alone. -/
inductive Item
  | pair (key value : Word)
  | bare (key : Word)

def Item.text : Item → List UInt8
  | .pair k v => k.bytes ++ 61 :: v.bytes
  | .bare k => k.bytes

def query : List Item → List UInt8
  | [] => []
  | [i] => i.text
  | i :: is => i.text ++ 38 :: query is

/-! ### `vsfip_httpd_getarg` -/

/-- What is returned: the pointer, and what is put into `valuesize`. -/
structure Arg where
  value : ℕ
  size : UInt32
  deriving DecidableEq

/-- `valuesize`, with `end` behind the `=` at `e` of the string `src`. -/
def valueSize (src : List UInt8) (e : ℕ) : UInt32 :=
  match strchr 38 src with
  | none => UInt32.ofNat (src.drop (e + 1)).length
  | some a => UInt32.ofNat a - UInt32.ofNat (e + 1)

/-- The loop; `src` is the string that is left, at `p`. -/
def getargLoop (name : Mem) : ℕ → List UInt8 → ℕ → Option (Option Arg)
  | 0, _, _ => none
  | n + 1, src, p =>
    match strchr 61 src with
    | none => some none
    | some e =>
      if src.take e = text name e then some (some { value := p + (e + 1), size := valueSize src e })
      else
        match strchr 38 src with
        | none => some none
        | some a => getargLoop name n (src.drop (a + 1)) (p + (a + 1))

/-- `vsfip_httpd_getarg`, of the string `src` at 0. -/
def getarg (name : Mem) (src : List UInt8) : Option (Option Arg) := getargLoop name (src.length + 1) src 0

/-! ### What it is to find -/

/-- The value of the first item with this key, and its length, in a query at `p`. -/
def lookup (name : List UInt8) : List Item → ℕ → Option (ℕ × ℕ)
  | [], _ => none
  | .pair k v :: is, p =>
    if k.bytes = name then some (p + (k.bytes.length + 1), v.bytes.length)
    else lookup name is (p + ((Item.pair k v).text.length + 1))
  | .bare k :: is, p => lookup name is (p + ((Item.bare k).text.length + 1))

/-- What is in front of the next `=`. -/
def ahead : List Item → Option (List UInt8)
  | [] => none
  | .pair k _ :: _ => some k.bytes
  | .bare k :: is => (ahead is).map fun t => k.bytes ++ 38 :: t

/-- Nothing in front of the item that is looked for is taken for it. -/
def Distinct (name : List UInt8) : List Item → Prop
  | [] => True
  | .pair k v :: is => if k.bytes = name then v.bytes.length < 2 ^ 32 else ¬ k.bytes <+: name ∧ Distinct name is
  | .bare k :: is => (∀ t ∈ ahead (.bare k :: is), ¬ t <+: name) ∧ Distinct name is

instance decidableDistinct (name : List UInt8) : ∀ is : List Item, Decidable (Distinct name is)
  | [] => inferInstanceAs (Decidable True)
  | .pair k v :: is =>
    haveI := decidableDistinct name is
    inferInstanceAs (Decidable (if k.bytes = name then v.bytes.length < 2 ^ 32 else ¬ k.bytes <+: name ∧ Distinct name is))
  | .bare k :: is =>
    haveI := decidableDistinct name is
    inferInstanceAs (Decidable ((∀ t ∈ ahead (.bare k :: is), ¬ t <+: name) ∧ Distinct name is))

/-- The pointer and the length as they are looked for. -/
def Arg.found (a : Arg) : ℕ × ℕ := (a.value, a.size.toNat)

variable {name : List UInt8} {m : Mem} {is : List Item}

theorem Item.no_amp (i : Item) : 38 ∉ i.text := by
  cases i with
  | pair k v =>
    intro hm
    rcases mem_append.mp hm with hk | hv
    · exact k.noAmp hk
    · exact v.noAmp ((mem_cons.mp hv).resolve_left (by decide))
  | bare k => exact k.noAmp

theorem query_cons (i j : Item) (is : List Item) : query (i :: j :: is) = i.text ++ 38 :: query (j :: is) := rfl

theorem ahead_some : ∀ {is : List Item} {t : List UInt8}, ahead is = some t →
    (∃ rest, query is = t ++ 61 :: rest) ∧ 61 ∉ t ∧ 0 ∉ t
  | .pair k v :: is, t, h => by
    obtain rfl := some.inj h
    refine ⟨?_, k.noEq, k.noZero⟩
    cases is with
    | nil => exact ⟨v.bytes, rfl⟩
    | cons j is => exact ⟨v.bytes ++ 38 :: query (j :: is), by simp [query_cons, Item.text]⟩
  | [.bare k], t, h => by cases h
  | .bare k :: j :: is, t, h => by
    obtain ⟨u, hu, rfl⟩ := map_eq_some_iff.mp h
    obtain ⟨⟨rest, hrest⟩, heq, hzero⟩ := ahead_some hu
    refine ⟨⟨rest, by simp [query_cons, Item.text, hrest]⟩, fun hm => ?_, fun hm => ?_⟩
    · rcases mem_append.mp hm with hk | ht
      · exact k.noEq hk
      · exact heq ((mem_cons.mp ht).resolve_left (by decide))
    · rcases mem_append.mp hm with hk | ht
      · exact k.noZero hk
      · exact hzero ((mem_cons.mp ht).resolve_left (by decide))

theorem ahead_none : ∀ {is : List Item}, ahead is = none → 61 ∉ query is
  | [], _ => not_mem_nil
  | .pair k v :: is, h => by cases h
  | [.bare k], _ => k.noEq
  | .bare k :: j :: is, h => by
    have hno := ahead_none (map_eq_none_iff.mp h)
    intro hm
    rcases mem_append.mp hm with hk | ht
    · exact k.noEq hk
    · exact hno ((mem_cons.mp ht).resolve_left (by decide))

theorem lookup_none : ∀ {is : List Item} (p : ℕ), ahead is = none → lookup name is p = none
  | [], _, _ => rfl
  | .pair k v :: is, _, h => by cases h
  | .bare k :: is, p, h => by
    have hah : ahead is = none := map_eq_none_iff.mp h
    rw [lookup]
    exact lookup_none _ hah

theorem distinct_none : ∀ {is : List Item}, ahead is = none → Distinct name is
  | [], _ => trivial
  | .pair k v :: is, h => by cases h
  | .bare k :: is, h => by
    refine ⟨?_, distinct_none (map_eq_none_iff.mp h)⟩
    rw [h]
    simp

/-- It is behind the next `=`; right behind it only if the name ends there. -/
theorem lookup_behind : ∀ {is : List Item} {t : List UInt8} {p : ℕ} {r : ℕ × ℕ}, ahead is = some t → lookup name is p = some r →
    p + (t.length + 1) ≤ r.1 ∧ (r.1 = p + (t.length + 1) → name <:+ t)
  | .pair k v :: is, t, p, r, ht, hr => by
    obtain rfl := some.inj ht
    unfold lookup at hr
    split_ifs at hr with hk
    · obtain rfl := some.inj hr
      exact ⟨le_refl _, fun _ => hk ▸ suffix_refl _⟩
    · cases hah : ahead is with
      | none => rw [lookup_none _ hah] at hr; cases hr
      | some u =>
        obtain ⟨hle, -⟩ := lookup_behind hah hr
        simp only [Item.text, length_append, length_cons] at hle
        exact ⟨by omega, fun he => absurd he (by omega)⟩
  | .bare k :: is, t, p, r, ht, hr => by
    obtain ⟨u, hu, rfl⟩ := map_eq_some_iff.mp ht
    obtain ⟨hle, hat⟩ := lookup_behind hu hr
    simp only [Item.text, length_append, length_cons] at hle hat ⊢
    refine ⟨by omega, fun he => ?_⟩
    exact (hat (by omega)).trans ⟨k.bytes ++ [38], by simp⟩

/-! ### What it finds -/

theorem getargLoop_item (h : Str m name) {i : Item} {t : List UInt8} (ht : ahead (i :: is) = some t) (n p : ℕ) :
    getargLoop m (n + 1) (query (i :: is)) p =
      if t <+: name then some (some { value := p + (t.length + 1), size := valueSize (query (i :: is)) t.length })
      else if is = [] then some none
      else getargLoop m n (query is) (p + (i.text.length + 1)) := by
  obtain ⟨⟨rest, hrest⟩, heq, hzero⟩ := ahead_some ht
  have hchr : strchr 61 (query (i :: is)) = some t.length := by
    rw [hrest, strchr_first rest heq]
  have htake : (query (i :: is)).take t.length = t := by
    rw [hrest, take_left]
  have hcmp : t = text m t.length ↔ t <+: name := by
    rw [eq_comm]
    exact h.text_eq hzero
  rw [getargLoop]
  simp only [hchr, htake, hcmp]
  cases is with
  | nil =>
    have hamp : strchr 38 (query [i]) = none := strchr_none i.no_amp
    simp only [hamp, if_true]
  | cons j is =>
    have hamp : strchr 38 (query (i :: j :: is)) = some i.text.length := strchr_first _ i.no_amp
    have hdrop : (query (i :: j :: is)).drop (i.text.length + 1) = query (j :: is) := by
      rw [query_cons, drop_append, drop_of_length_le (Nat.le_succ _)]
      simp
    simp only [hamp, hdrop, cons_ne_nil, if_false]

theorem valueSize_pair (k v : Word) (is : List Item) :
    valueSize (query (.pair k v :: is)) k.bytes.length = UInt32.ofNat v.bytes.length := by
  unfold valueSize
  cases is with
  | nil =>
    have hamp : strchr 38 (query [Item.pair k v]) = none := strchr_none (Item.pair k v).no_amp
    have hdrop : (query [Item.pair k v]).drop (k.bytes.length + 1) = v.bytes := by simp [query, Item.text, drop_append]
    rw [hamp, hdrop]
  | cons j is =>
    have hamp : strchr 38 (query (.pair k v :: j :: is)) = some (Item.pair k v).text.length :=
      strchr_first _ (Item.pair k v).no_amp
    have hlen : (Item.pair k v).text.length = (k.bytes.length + 1) + v.bytes.length := by
      simp only [Item.text, length_append, length_cons]
      omega
    have hsub : UInt32.ofNat (k.bytes.length + 1 + v.bytes.length) - UInt32.ofNat (k.bytes.length + 1) =
        UInt32.ofNat v.bytes.length := by
      rw [UInt32.ofNat_add (k.bytes.length + 1), add_sub_cancel_left]
    rw [hamp, hlen]
    exact hsub

theorem lookup_pair {k v : Word} (hk : k.bytes ≠ name) (is : List Item) (p : ℕ) :
    lookup name (.pair k v :: is) p = lookup name is (p + ((Item.pair k v).text.length + 1)) := if_neg hk

theorem found_key {i : Item} {t : List UInt8} {p : ℕ} {sz : UInt32} (hah : ahead (i :: is) = some t) (ht : t <+: name)
    (hfound : some (p + (t.length + 1), sz.toNat) = lookup name (i :: is) p) : ∃ k v, i = .pair k v ∧ k.bytes = name := by
  obtain ⟨-, hat⟩ := lookup_behind hah hfound.symm
  have hname : name <:+ t := hat rfl
  have hlen : t.length = name.length := le_antisymm ht.length_le hname.length_le
  cases i with
  | pair k v =>
    obtain rfl := some.inj hah
    exact ⟨k, v, rfl, ht.eq_of_length hlen⟩
  | bare k =>
    obtain ⟨u, hu, rfl⟩ := map_eq_some_iff.mp hah
    obtain ⟨-, hat⟩ := lookup_behind hu hfound.symm
    simp only [Item.text, length_append, length_cons] at hat hlen
    have hle := (hat (by omega)).length_le
    omega

theorem getargLoop_taken (h : Str m name) {i : Item} {t : List UInt8} (hah : ahead (i :: is) = some t) (ht : t <+: name)
    (n p : ℕ) : (getargLoop m (n + 1) (query (i :: is)) p).map (Option.map Arg.found) = some (lookup name (i :: is) p) ↔
      Distinct name (i :: is) := by
  rw [getargLoop_item h hah, if_pos ht]
  simp only [map_some, Option.some.injEq, Arg.found]
  constructor
  · intro hfound
    obtain ⟨k, v, rfl, hk⟩ := found_key hah ht hfound
    obtain rfl := some.inj hah
    rw [valueSize_pair, lookup, if_pos hk, Option.some.injEq, Prod.mk.injEq] at hfound
    rw [Distinct, if_pos hk, ← hfound.2]
    exact UInt32.toNat_lt _
  · intro hd
    cases i with
    | bare k => exact absurd ht (hd.1 t hah)
    | pair k v =>
      obtain rfl := some.inj hah
      unfold Distinct at hd
      split_ifs at hd with hk
      · rw [valueSize_pair, lookup, if_pos hk, UInt32.toNat_ofNat_of_lt' hd]
      · exact absurd ht hd.1

theorem lookup_passed {i : Item} {t : List UInt8} (hah : ahead (i :: is) = some t) (ht : ¬ t <+: name) (p : ℕ) :
    lookup name (i :: is) p = lookup name is (p + (i.text.length + 1)) ∧ (Distinct name (i :: is) ↔ Distinct name is) := by
  cases i with
  | pair k v =>
    obtain rfl := some.inj hah
    have hk : k.bytes ≠ name := fun he => ht (he ▸ prefix_refl _)
    refine ⟨lookup_pair hk is p, ?_⟩
    rw [Distinct, if_neg hk]
    exact and_iff_right ht
  | bare k =>
    refine ⟨rfl, ?_⟩
    rw [Distinct, hah]
    simp only [mem_some_iff, forall_eq']
    exact and_iff_right ht

theorem getargLoop_iff (h : Str m name) : ∀ (is : List Item) (n p : ℕ), is.length ≤ n + 1 →
    ((getargLoop m (n + 1) (query is) p).map (Option.map Arg.found) = some (lookup name is p) ↔ Distinct name is)
  | [], n, p, _ => by simp [getargLoop, query, strchr, lookup, Distinct]
  | i :: is, n, p, hn => by
    cases hah : ahead (i :: is) with
    | none =>
      have hno : getargLoop m (n + 1) (query (i :: is)) p = some none := by
        rw [getargLoop, strchr_none (ahead_none hah)]
      rw [hno, lookup_none p hah]
      simp [distinct_none hah]
    | some t =>
      by_cases ht : t <+: name
      · exact getargLoop_taken h hah ht n p
      · obtain ⟨hlook, hdist⟩ := lookup_passed hah ht p
        rw [getargLoop_item h hah, if_neg ht, hlook, hdist]
        cases is with
        | nil => simp [lookup, Distinct]
        | cons j is =>
          obtain ⟨n, rfl⟩ : ∃ n', n = n' + 1 := Nat.exists_eq_add_of_le' (by simp only [length_cons] at hn; omega)
          exact getargLoop_iff h (j :: is) n _ (Nat.le_of_succ_le_succ hn)

theorem length_query : ∀ is : List Item, is.length ≤ (query is).length + 1
  | [] => Nat.zero_le _
  | [_] => Nat.le_add_left _ _
  | i :: j :: is => by
    have hle := length_query (j :: is)
    simp only [query_cons, length_append, length_cons] at hle ⊢
    omega

/-- **`vsfip_httpd_getarg` finds the first item with this key**, or nothing, just when nothing before is
taken for it and its length fits. -/
theorem getarg_iff (h : Str m name) (is : List Item) :
    (getarg m (query is)).map (Option.map Arg.found) = some (lookup name is 0) ↔ Distinct name is :=
  getargLoop_iff h is _ 0 (length_query is)

def wordOf (bs : List UInt8) (h : 38 ∉ bs ∧ 61 ∉ bs ∧ 0 ∉ bs) : Word := ⟨bs, h.1, h.2.1, h.2.2⟩

/-- `ab&b=1&c=23`, asked for `c`. -/
theorem getarg_iff_last : (getarg (write (fun _ => 0) 0 [99]) (query [.bare (wordOf [97, 98] (by decide)),
    .pair (wordOf [98] (by decide)) (wordOf [49] (by decide)), .pair (wordOf [99] (by decide)) (wordOf [50, 51] (by decide))])).map
      (Option.map Arg.found) = some (some (9, 2)) := by
  have hstr : Str (write (fun _ => 0) 0 [99]) [99] := ⟨⟨by decide, by decide⟩, by decide⟩
  exact (getarg_iff hstr _).mpr (by decide)

/-- `a=1&ab=2`, asked for `ab`: the first key, a prefix, answers. -/
theorem getarg_prefix : (getarg (write (fun _ => 0) 0 [97, 98]) (query [.pair (wordOf [97] (by decide)) (wordOf [49] (by decide)),
    .pair (wordOf [97, 98] (by decide)) (wordOf [50] (by decide))])).map (Option.map Arg.found) = some (some (2, 1)) ∧
    lookup [97, 98] [.pair (wordOf [97] (by decide)) (wordOf [49] (by decide)),
      .pair (wordOf [97, 98] (by decide)) (wordOf [50] (by decide))] 0 = some (7, 1) := by
  decide

end Httpd
end Vsf
