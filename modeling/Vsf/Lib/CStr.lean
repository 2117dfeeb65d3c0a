/-
# C strings

The functions of `string.h` on a memory that holds a buffer of `cap` bytes. A call that would touch
a byte behind it has no result; `Str m t` is what a buffer says. The other half reads text that ends
without a zero: `strncmp`, `atoi` and `strchr` have a result only if they stop in time.
-/
import Mathlib
import Vsf.Lib.ByteMem
import Vsf.Lib.Text

namespace CStr

open ByteMem Text List Option

variable {cap : ℕ} {m : Mem} {s t : List UInt8}

/-! ### Strings in a buffer -/

/-- The bytes `bs` are written at `a`. -/
def write (m : Mem) (a : ℕ) (bs : List UInt8) : Mem := fun i => if a ≤ i then (bs[i - a]?).getD (m i) else m i

/-- Where the first zero from `p` on is, among `n` bytes. -/
def strlenLoop (m : Mem) : ℕ → ℕ → Option ℕ
  | 0, _ => none
  | n + 1, p => if m p = 0 then some p else strlenLoop m n (p + 1)

def strlen (cap : ℕ) (m : Mem) : Option ℕ := strlenLoop m cap 0

def memcpy (cap : ℕ) (m : Mem) (a : ℕ) (bs : List UInt8) : Option Mem :=
  if a + bs.length ≤ cap then some (write m a bs) else none

def strcpy (cap : ℕ) (m : Mem) (s : List UInt8) : Option Mem := memcpy cap m 0 (s ++ [0])

def strcat (cap : ℕ) (m : Mem) (s : List UInt8) : Option Mem :=
  (strlen cap m).bind fun n => memcpy cap m n (s ++ [0])

/-- The first `n` bytes. -/
def text (m : Mem) (n : ℕ) : List UInt8 := (List.range n).map m

/-- The memory begins with the bytes `t`, none of which is zero. -/
structure Begins (m : Mem) (t : List UInt8) : Prop where
  bytes : ∀ i (h : i < t.length), m i = t[i]
  nonzero : 0 ∉ t

/-- The buffer is the string `t`. -/
structure Str (m : Mem) (t : List UInt8) : Prop extends Begins m t where
  zero : m t.length = 0

theorem write_lt {a i : ℕ} {bs : List UInt8} (h : i < a) : write m a bs i = m i := if_neg (not_le.mpr h)

theorem write_ge {a i : ℕ} {bs : List UInt8} (h : a + bs.length ≤ i) : write m a bs i = m i := by
  unfold write
  rw [if_pos (by omega), getElem?_eq_none (by omega)]
  rfl

theorem write_at {a i : ℕ} {bs : List UInt8} (h : i < bs.length) : write m a bs (a + i) = bs[i] := by
  unfold write
  rw [if_pos (Nat.le_add_right _ _), Nat.add_sub_cancel_left, getElem?_eq_getElem h]
  rfl

section

variable {a c : ℕ} {bs cs hs xs ys zs : List UInt8}

@[simp] theorem write_nil (m : Mem) (a : ℕ) : write m a [] = m := by
  funext i
  unfold write
  split_ifs <;> rfl

theorem write_append (m : Mem) (a : ℕ) (bs cs : List UInt8) : write m a (bs ++ cs) = write (write m a bs) (a + bs.length) cs := by
  funext i
  by_cases hlt : i < a + bs.length
  · rw [write_lt hlt]
    unfold write
    by_cases hle : a ≤ i
    · rw [if_pos hle, if_pos hle, getElem?_append_left (by omega)]
    · rw [if_neg hle, if_neg hle]
  · have hsame : write m a bs i = m i := write_ge (not_lt.mp hlt)
    have hle : a + bs.length ≤ i := not_lt.mp hlt
    rw [write, write, if_pos (by omega), if_pos hle, hsame, getElem?_append_right (by omega), Nat.sub_add_eq]

theorem holds_write (m : Mem) (a : ℕ) (bs : List UInt8) : Holds (write m a bs) a bs := fun _ hi => write_at hi

theorem write_cons (m : Mem) (a : ℕ) (b : UInt8) (bs : List UInt8) : write m a (b :: bs) = write (write m a [b]) (a + 1) bs :=
  write_append m a [b] bs

/-- Bytes that are written in two parts, the second one first. -/
theorem write_front (m : Mem) (a : ℕ) (bs cs : List UInt8) : write (write m (a + bs.length) cs) a bs = write m a (bs ++ cs) := by
  rw [write_append]
  funext i
  by_cases hi : a ≤ i ∧ i < a + bs.length
  · obtain ⟨j, rfl⟩ := Nat.exists_eq_add_of_le hi.1
    have hj : j < bs.length := by omega
    rw [write_at hj, write_lt hi.2, write_at hj]
  · have hout : ∀ m : Mem, write m a bs i = m i := by
      intro m
      rcases not_and_or.mp hi with hlt | hge
      · exact write_lt (not_le.mp hlt)
      · exact write_ge (not_lt.mp hge)
    rw [hout, write, write, hout]

theorem holds_write_apart (h : Holds m a bs) (hap : c + cs.length ≤ a ∨ a + bs.length ≤ c) : Holds (write m c cs) a bs := by
  intro i hi
  have hsame : write m c cs (a + i) = m (a + i) := by
    rcases hap with hle | hle
    · exact write_ge (by omega)
    · exact write_lt (by omega)
  rw [hsame, h i hi]

theorem holds_write_front (h : Holds m (a + hs.length) bs) : Holds (write m a hs) a (hs ++ bs) :=
  holds_append.mpr ⟨holds_write m a hs, holds_write_apart h (.inl (le_refl _))⟩

theorem holds_write_field (h : Holds m a (xs ++ (ys ++ zs))) (hc : c = a + xs.length) (hlen : cs.length = ys.length) :
    Holds (write m c cs) a (xs ++ (cs ++ zs)) := by
  subst hc
  obtain ⟨hx, hyz⟩ := holds_append.mp h
  obtain ⟨-, hz⟩ := holds_append.mp hyz
  rw [← hlen] at hz
  exact holds_append.mpr ⟨holds_write_apart hx (.inr (le_refl _)),
    holds_append.mpr ⟨holds_write _ _ _, holds_write_apart hz (.inl (le_refl _))⟩⟩

end

theorem strlenLoop_some (n : ℕ) : ∀ {p k : ℕ}, strlenLoop m n p = some k →
    p ≤ k ∧ k < p + n ∧ m k = 0 ∧ ∀ i, p ≤ i → i < k → m i ≠ 0 := by
  induction n with
  | zero => intro p k h; cases h
  | succ n ih =>
    intro p k h
    unfold strlenLoop at h
    split_ifs at h with h0
    · obtain rfl := some.inj h
      exact ⟨le_refl _, by omega, h0, fun i h1 h2 => absurd h1 (by omega)⟩
    · obtain ⟨h1, h2, h3, h4⟩ := ih h
      refine ⟨by omega, by omega, h3, fun i hi hik => ?_⟩
      rcases eq_or_lt_of_le hi with rfl | hlt
      · exact h0
      · exact h4 i hlt hik

theorem strlenLoop_of (n : ℕ) : ∀ {p k : ℕ}, p ≤ k → k < p + n → m k = 0 → (∀ i, p ≤ i → i < k → m i ≠ 0) →
    strlenLoop m n p = some k := by
  induction n with
  | zero => intro p k h1 h2; omega
  | succ n ih =>
    intro p k h1 h2 h3 h4
    unfold strlenLoop
    rcases eq_or_lt_of_le h1 with rfl | hlt
    · rw [if_pos h3]
    · rw [if_neg (h4 p (le_refl _) hlt)]
      exact ih hlt (by omega) h3 fun i hi => h4 i (by omega)

theorem Begins.ne_zero (h : Begins m t) {i : ℕ} (hi : i < t.length) : m i ≠ 0 := by
  rw [h.bytes i hi]
  exact fun h0 => h.nonzero (h0 ▸ getElem_mem hi)

theorem strlen_str (h : Str m t) (hcap : t.length < cap) : strlen cap m = some t.length :=
  strlenLoop_of cap (Nat.zero_le _) (by omega) h.zero fun _ _ hi => h.ne_zero hi

theorem Begins.le_strlen (h : Begins m t) {k : ℕ} (hk : strlen cap m = some k) : t.length ≤ k := by
  by_contra hlt
  exact h.ne_zero (not_le.mp hlt) (strlenLoop_some cap hk).2.2.1

theorem Begins.text (h : Begins m t) : text m t.length = t := by
  refine ext_getElem (by simp [CStr.text]) fun i _ hi => ?_
  simp only [CStr.text, getElem_map, getElem_range]
  exact h.bytes i hi

theorem Begins.write (h : Begins m t) (hs : 0 ∉ s) (rest : List UInt8) : Begins (write m t.length (s ++ rest)) (t ++ s) := by
  refine ⟨fun i hi => ?_, fun hm => (mem_append.mp hm).elim h.nonzero hs⟩
  by_cases hlt : i < t.length
  · rw [write_lt hlt, h.bytes i hlt, getElem_append_left hlt]
  · obtain ⟨j, rfl⟩ := Nat.exists_eq_add_of_le (not_lt.mp hlt)
    have hj : j < s.length := by
      rw [length_append] at hi
      omega
    rw [write_at (by rw [length_append]; omega), getElem_append_left hj, getElem_append_right (by omega)]
    congr 1
    omega

theorem Begins.write_str (h : Begins m t) (hs : 0 ∉ s) : Str (CStr.write m t.length (s ++ [0])) (t ++ s) := by
  refine ⟨h.write hs [0], ?_⟩
  rw [length_append, write_at (by simp)]
  simp

/-- **`memcpy`** behind what the buffer begins with. -/
theorem memcpy_bytes (h : Begins m t) (hs : 0 ∉ s) (hcap : t.length + s.length ≤ cap) :
    ∃ m', memcpy cap m t.length s = some m' ∧ Begins m' (t ++ s) ∧ ∀ i, t.length + s.length ≤ i → m' i = m i := by
  refine ⟨_, if_pos hcap, ?_, fun i => write_ge⟩
  have hw := h.write hs []
  rwa [append_nil] at hw

/-- **`strcpy`** leaves what is behind the zero. -/
theorem strcpy_str (m : Mem) (hs : 0 ∉ s) (hcap : s.length < cap) :
    ∃ m', strcpy cap m s = some m' ∧ Str m' s ∧ ∀ i, s.length < i → m' i = m i := by
  have hempty : Begins m [] := ⟨nofun, not_mem_nil⟩
  refine ⟨_, if_pos (by rw [length_append, length_singleton]; omega), hempty.write_str hs, fun i hi => ?_⟩
  exact write_ge (by rw [length_append, length_singleton]; omega)

/-- **`strcat`** puts a string behind a string, and leaves the rest. -/
theorem strcat_str (h : Str m t) (hs : 0 ∉ s) (hcap : t.length + s.length < cap) :
    ∃ m', strcat cap m s = some m' ∧ Str m' (t ++ s) ∧ ∀ i, t.length + s.length < i → m' i = m i := by
  refine ⟨_, ?_, h.write_str hs, fun i hi => write_ge (by rw [length_append, length_singleton]; omega)⟩
  unfold strcat
  rw [strlen_str h (by omega)]
  exact if_pos (by rw [length_append, length_singleton]; omega)

theorem strcat_length (h : Begins m t) {m' : Mem} (hcat : strcat cap m s = some m') {k : ℕ} (hk : strlen cap m' = some k)
    (hs : 0 ∉ s) : t.length + s.length ≤ k := by
  unfold strcat at hcat
  cases hn : strlen cap m with
  | none => rw [hn] at hcat; cases hcat
  | some n =>
    rw [hn, bind_some] at hcat
    unfold memcpy at hcat
    split_ifs at hcat with hfit
    obtain rfl := some.inj hcat
    have hle := h.le_strlen hn
    obtain ⟨-, -, -, hne⟩ := strlenLoop_some cap hn
    have hbeg : Begins m (text m n) := by
      refine ⟨fun i hi => by simp [text], fun hm => ?_⟩
      obtain ⟨i, hi, h0⟩ := List.mem_map.mp hm
      exact hne i (Nat.zero_le _) (List.mem_range.mp hi) h0
    have hlen : (text m n).length = n := by simp [text]
    have hk' : strlen cap (write m (text m n).length (s ++ [0])) = some k := by
      rw [hlen]
      exact hk
    have hbig := (hbeg.write hs [0]).le_strlen hk'
    rw [length_append, hlen] at hbig
    omega

/-! ### Text without a zero -/

/-- `!strncmp(cur, lit, sizeof(lit) - 1)`; it reads up to a difference. -/
def strncmp : List UInt8 → List UInt8 → Option Bool
  | [], _ => some true
  | _ :: _, [] => none
  | c :: cs, b :: bs => if b = c then strncmp cs bs else some false

/-- `isspace`. -/
def isSpace (b : UInt8) : Bool := b = 32 ∨ (9 ≤ b ∧ b ≤ 13)

def isDigit (b : UInt8) : Bool := 48 ≤ b ∧ b ≤ 57

/-- The digits of `atoi`, up to the first byte that is none. -/
def atoiDigits (acc : ℕ) : List UInt8 → Option ℕ
  | [] => none
  | b :: bs => if isDigit b then atoiDigits (10 * acc + (b.toNat - 48)) bs else some acc

/-- `atoi`; there is no result for a number an `int` cannot hold. -/
def atoi : List UInt8 → Option Int
  | [] => none
  | b :: bs =>
    if isSpace b then atoi bs
    else if b = 45 then (atoiDigits 0 bs).bind fun n => if n ≤ 2 ^ 31 then some (-n) else none
    else (atoiDigits 0 (if b = 43 then bs else b :: bs)).bind fun n => if n < 2 ^ 31 then some n else none

/-- `strchr(cur, '\n') + 1`, as what is left; behind no line this is address 1. -/
def strchrNext : List UInt8 → Option (List UInt8)
  | [] => none
  | b :: bs => if b = 10 then some bs else if b = 0 then none else strchrNext bs

/-- `strchr`, as how far on the first `c` is; the list is what the string says. -/
def strchr (c : UInt8) : List UInt8 → Option ℕ
  | [] => none
  | b :: bs => if b = c then some 0 else (strchr c bs).map (· + 1)

theorem strchr_none {c : UInt8} : ∀ {xs : List UInt8}, c ∉ xs → strchr c xs = none
  | [], _ => rfl
  | x :: xs, h => by
    have hx : x ≠ c := fun he => h (he ▸ mem_cons_self)
    rw [strchr, if_neg hx, strchr_none fun hm => h (mem_cons_of_mem _ hm)]
    rfl

theorem strchr_first {c : UInt8} (rest : List UInt8) : ∀ {xs : List UInt8}, c ∉ xs → strchr c (xs ++ c :: rest) = some xs.length
  | [], _ => if_pos rfl
  | x :: xs, h => by
    have hx : x ≠ c := fun he => h (he ▸ mem_cons_self)
    rw [cons_append, strchr, if_neg hx, strchr_first rest fun hm => h (mem_cons_of_mem _ hm)]
    rfl

/-- What a string with these bytes says: those in front of the first zero. -/
def said (bs : List UInt8) : List UInt8 := bs.takeWhile (· ≠ 0)

/-- What the string at `p` says; its zero is looked for among `n` bytes. -/
def strAt (m : Mem) : ℕ → ℕ → Option (List UInt8)
  | 0, _ => none
  | n + 1, p => if m p = 0 then some [] else (strAt m n (p + 1)).map (m p :: ·)

/-- `strstr`, as how far on `pat` is; the list is what the string says. -/
def strstr (pat : List UInt8) : List UInt8 → Option ℕ
  | [] => if pat = [] then some 0 else none
  | b :: bs => if pat <+: b :: bs then some 0 else (strstr pat bs).map (· + 1)

theorem said_append (xs ys : List UInt8) (h : 0 ∈ xs) : said (xs ++ ys) = said xs := by
  induction xs with
  | nil => exact absurd h not_mem_nil
  | cons x xs ih =>
    unfold said at ih ⊢
    rw [cons_append, takeWhile_cons, takeWhile_cons]
    split_ifs with hx
    · rw [ih ((mem_cons.mp h).resolve_left fun he => by simp [← he] at hx)]
    · rfl

theorem said_eq (h : 0 ∉ s) : said s = s :=
  takeWhile_eq_self_iff.mpr fun b hb => by
    rw [decide_eq_true_eq]
    exact fun he => h (he ▸ hb)

/-- Bytes behind a string do not show just when its zero is in front of them. -/
theorem said_append_iff {xs ys : List UInt8} (hy : 0 ∉ ys) : said (xs ++ ys) = said xs ↔ 0 ∈ xs ∨ ys = [] := by
  constructor
  · intro h
    by_contra hno
    obtain ⟨hx, hne⟩ := not_or.mp hno
    have hall : 0 ∉ xs ++ ys := fun hm => (mem_append.mp hm).elim hx hy
    rw [said_eq hall, said_eq hx] at h
    exact hne (append_right_eq_self.mp h)
  · rintro (hx | rfl)
    · exact said_append xs ys hx
    · rw [append_nil]

variable {p n : ℕ} {lit : List UInt8} {b : UInt8}

theorem strAt_of {bs : List UInt8} (h : Holds m p (bs ++ [0])) (hn : bs.length < n) : strAt m n p = some (said bs) := by
  induction bs generalizing n p with
  | nil =>
    obtain ⟨n, rfl⟩ := Nat.exists_eq_add_of_lt hn
    have h0 : m p = 0 := (holds_cons.mp h).1
    rw [length_nil, zero_add, strAt, if_pos h0]
    rfl
  | cons b bs ih =>
    obtain ⟨n, rfl⟩ := Nat.exists_eq_add_of_lt hn
    obtain ⟨hb, hbs⟩ := holds_cons.mp h
    rw [strAt, hb, ih hbs (by rw [length_cons]; omega)]
    unfold said
    rw [takeWhile_cons]
    by_cases h0 : b = 0
    · rw [if_pos h0, if_neg (by simp [h0])]
    · rw [if_neg h0, if_pos (by simp [h0])]
      rfl

theorem strAt_some {k : ℕ} (hp : p ≤ k) (hk : k < p + n) (h0 : m k = 0) :
    ∃ t, strAt m n p = some t ∧ p + t.length ≤ k ∧ m (p + t.length) = 0 := by
  induction n generalizing p with
  | zero => exact absurd hk (by omega)
  | succ n ih =>
    rw [strAt]
    by_cases hz : m p = 0
    · exact ⟨[], if_pos hz, hp, hz⟩
    · have hne : p ≠ k := fun he => hz (he ▸ h0)
      obtain ⟨t, ht, hle, htz⟩ := ih (by omega : p + 1 ≤ k) (by omega)
      refine ⟨m p :: t, ?_, ?_, ?_⟩
      · rw [if_neg hz, ht]
        rfl
      · rw [length_cons]
        omega
      · rw [length_cons, ← htz]
        congr 1
        omega

theorem strstr_le {pat : List UInt8} : ∀ {t : List UInt8} {i : ℕ}, strstr pat t = some i → i + pat.length ≤ t.length
  | [], i, h => by
    rw [strstr] at h
    split_ifs at h with hp
    obtain rfl := some.inj h
    rw [hp]
    exact le_refl _
  | b :: bs, i, h => by
    rw [strstr] at h
    split_ifs at h with hp
    · obtain rfl := some.inj h
      have := hp.length_le
      omega
    · obtain ⟨j, hj, rfl⟩ := map_eq_some_iff.mp h
      have := strstr_le hj
      rw [length_cons]
      omega

/-- The bytes in front of a string's zero are those of a prefix, and no zero. -/
theorem Str.text_eq (h : Str m s) (ht : 0 ∉ t) : text m t.length = t ↔ t <+: s := by
  constructor
  · intro heq
    have hlen : t.length ≤ s.length := by
      by_contra hlt
      refine ht (heq ▸ List.mem_map.mpr ⟨s.length, List.mem_range.mpr (by omega), h.zero⟩)
    refine prefix_iff_eq_take.mpr (ext_getElem (by simp [hlen]) fun i hi _ => ?_)
    have hi' : i < (text m t.length).length := by
      rw [heq]
      exact hi
    have hget : (text m t.length)[i] = m i := by simp [text]
    rw [getElem_take, ← h.bytes i (by omega), ← hget]
    congr 1
    exact heq.symm
  · intro hp
    have hpre : Begins m t := by
      refine ⟨fun i hi => ?_, ht⟩
      rw [h.bytes i (by have := hp.length_le; omega)]
      exact (hp.getElem hi).symm
    exact hpre.text

theorem strncmp_short : ∀ {lit xs : List UInt8}, xs <+: lit → xs.length < lit.length → strncmp lit xs = none
  | [], _, _, hlt => absurd hlt (Nat.not_lt_zero _)
  | _ :: _, [], _, _ => rfl
  | c :: cs, x :: xs, hp, hlt => by
    obtain ⟨rfl, hxs⟩ := cons_prefix_cons.mp hp
    rw [strncmp, if_pos rfl]
    exact strncmp_short hxs (Nat.lt_of_succ_lt_succ hlt)

theorem strncmp_self (lit rest : List UInt8) : strncmp lit (lit ++ rest) = some true := by
  induction lit with
  | nil => rfl
  | cons c cs ih =>
    rw [cons_append, strncmp, if_pos rfl]
    exact ih

/-- A text that does not begin with `lit`, and has a byte that is not in `lit`. -/
theorem strncmp_other : ∀ {xs : List UInt8} (rest : List UInt8), b ∉ lit →
    ¬ lit <+: xs → strncmp lit (xs ++ b :: rest) = some false := by
  induction lit with
  | nil => exact fun _ _ hp => absurd nil_prefix hp
  | cons c cs ih =>
    intro xs rest hb hp
    cases xs with
    | nil =>
      rw [nil_append, strncmp, if_neg]
      exact fun he => hb (he ▸ mem_cons_self)
    | cons x xs =>
      rw [cons_append, strncmp]
      split_ifs with he
      · refine ih rest (fun hm => hb (mem_cons_of_mem _ hm)) fun hcs => hp ?_
        rw [he, cons_prefix_cons]
        exact ⟨rfl, hcs⟩
      · rfl

theorem strncmp_true : ∀ {xs : List UInt8}, strncmp lit xs = some true → lit <+: xs := by
  induction lit with
  | nil => exact fun _ => nil_prefix
  | cons c cs ih =>
    intro xs h
    cases xs with
    | nil => cases h
    | cons x xs =>
      rw [strncmp] at h
      split_ifs at h with he
      · rw [he, cons_prefix_cons]
        exact ⟨rfl, ih h⟩
      · cases h

theorem strchrNext_line {xs : List UInt8} (rest : List UInt8) (hx : ∀ b ∈ xs, b ≠ 10 ∧ b ≠ 0) :
    strchrNext (xs ++ 10 :: rest) = some rest := by
  induction xs with
  | nil => rw [nil_append, strchrNext, if_pos rfl]
  | cons x xs ih =>
    obtain ⟨h1, h2⟩ := hx x mem_cons_self
    rw [cons_append, strchrNext, if_neg h1, if_neg h2]
    exact ih fun b hb => hx b (mem_cons_of_mem _ hb)

theorem strchrNext_none : ∀ {xs : List UInt8}, 10 ∉ xs → strchrNext xs = none
  | [], _ => rfl
  | x :: xs, h => by
    have hx : x ≠ 10 := fun he => h (he ▸ mem_cons_self)
    rw [strchrNext, if_neg hx]
    split_ifs
    · rfl
    · exact strchrNext_none fun hm => h (mem_cons_of_mem _ hm)

theorem atoiDigits_of (rest : List UInt8) (hb : isDigit b = false) : ∀ {ds : List UInt8} (acc : ℕ),
    (∀ d ∈ ds, isDigit d = true) →
    atoiDigits acc (ds ++ b :: rest) = some (ds.foldl (fun acc b => 10 * acc + (b.toNat - 48)) acc)
  | [], acc, _ => by
    rw [nil_append, atoiDigits, if_neg (by rw [hb]; exact Bool.false_ne_true)]
    rfl
  | d :: ds, acc, hd => by
    rw [cons_append, atoiDigits, if_pos (hd d mem_cons_self), foldl_cons]
    exact atoiDigits_of rest hb _ fun x hx => hd x (mem_cons_of_mem _ hx)

theorem atoiDigits_none : ∀ {ds : List UInt8} (acc : ℕ), (∀ d ∈ ds, isDigit d = true) → atoiDigits acc ds = none
  | [], _, _ => rfl
  | d :: ds, acc, hd => by
    rw [atoiDigits, if_pos (hd d mem_cons_self)]
    exact atoiDigits_none _ fun x hx => hd x (mem_cons_of_mem _ hx)

theorem isDigit_decimal {d : UInt8} (hd : d ∈ decimal n) : isDigit d = true := by
  obtain ⟨h1, h2⟩ := decimal_digit hd
  unfold isDigit
  rw [decide_eq_true_eq]
  exact ⟨UInt8.le_iff_toNat_le.mpr h1, UInt8.le_iff_toNat_le.mpr h2⟩

/-- What begins with a digit is neither skipped nor signed. -/
theorem atoi_digit {d : UInt8} (hd : isDigit d = true) (rest : List UInt8) :
    atoi (d :: rest) = (atoiDigits 0 (d :: rest)).bind fun n => if n < 2 ^ 31 then some (n : Int) else none := by
  unfold isDigit at hd
  rw [decide_eq_true_eq, UInt8.le_iff_toNat_le, UInt8.le_iff_toNat_le] at hd
  have hspace : isSpace d = false := by
    unfold isSpace
    rw [decide_eq_false_iff_not, UInt8.le_iff_toNat_le, UInt8.le_iff_toNat_le, ← UInt8.toNat_inj]
    simp only [UInt8.reduceToNat] at hd ⊢
    omega
  have h45 : d ≠ 45 := by
    rintro rfl
    revert hd
    decide
  have h43 : d ≠ 43 := by
    rintro rfl
    revert hd
    decide
  rw [atoi, if_neg (by rw [hspace]; exact Bool.false_ne_true), if_neg h45, if_neg h43]

/-- **`atoi` reads a number back**, if something follows and it fits. -/
theorem atoi_decimal (hb : isDigit b = false) (rest : List UInt8) (n : ℕ) :
    atoi (decimal n ++ b :: rest) = if n < 2 ^ 31 then some (n : Int) else none := by
  obtain ⟨d, ds, hds⟩ := exists_cons_of_ne_nil (decimal_ne_nil n)
  have hall : ∀ x ∈ decimal n, isDigit x = true := fun x hx => isDigit_decimal hx
  have hdig := atoiDigits_of rest hb 0 hall
  have hnum : (decimal n).foldl (fun acc b => 10 * acc + (b.toNat - 48)) 0 = n := number_decimal n
  rw [hnum] at hdig
  rw [hds] at hdig hall ⊢
  rw [cons_append, atoi_digit (hall d mem_cons_self), ← cons_append, hdig]
  rfl

theorem atoi_none {ds : List UInt8} (hall : ∀ x ∈ ds, isDigit x = true) : atoi ds = none := by
  cases ds with
  | nil => rfl
  | cons d ds =>
    rw [atoi_digit (hall d mem_cons_self), atoiDigits_none 0 hall]
    rfl

/-! ### Lines -/

/-- Where a text of lines is cut: behind some of them and inside one more. -/
theorem lines_cut {α : Type*} {nl : α} : ∀ {L : List (List α)}, (∀ l ∈ L, ∃ xs, l = xs ++ [nl] ∧ nl ∉ xs) →
    ∀ {d : List α}, d <+: L.flatten → ∃ k ≤ L.length, ∃ p, d = (L.take k).flatten ++ p ∧ nl ∉ p
  | [], _, d, hd => ⟨0, le_refl _, [], by simpa using hd, by simp⟩
  | l :: L, hL, d, hd => by
    obtain ⟨xs, hl, hxs⟩ := hL l mem_cons_self
    rw [flatten_cons] at hd
    rcases prefix_or_prefix_of_prefix hd (prefix_append _ _) with hdl | ⟨d', rfl⟩
    · rw [hl] at hdl
      rcases prefix_concat_iff.mp hdl with rfl | hp
      · exact ⟨1, by simp, [], by simp [hl], by simp⟩
      · exact ⟨0, Nat.zero_le _, d, rfl, fun hm => hxs (hp.subset hm)⟩
    · obtain ⟨k, hk, p, rfl, hp⟩ := lines_cut (fun m hm => hL m (mem_cons_of_mem _ hm))
        ((prefix_append_right_inj _).mp hd)
      exact ⟨k + 1, Nat.succ_le_succ hk, p, by simp, hp⟩

end CStr
