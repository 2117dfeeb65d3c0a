/-
# A bounded map that forgets its oldest key

Keys with their values, the oldest in front, and room for `cap` of them. A known key keeps its value
and place; a new one goes to the end, and the front one is forgotten when there is no room.
-/
import Mathlib

namespace FifoMap

open List

variable {κ ν : Type*} [DecidableEq κ]

/-- The list with the key `k`. -/
def insert (cap : ℕ) (m : List (κ × ν)) (k : κ) (v : ν) : List (κ × ν) :=
  if (m.lookup k).isSome then m
  else (if m.length < cap then m else m.tail) ++ [(k, v)]

variable {cap : ℕ} {m m' : List (κ × ν)} {k j : κ} {v : ν}

theorem isSome_lookup : (m.lookup k).isSome ↔ k ∈ m.map Prod.fst := by
  rw [lookup_isSome_iff, mem_map]
  exact ⟨fun ⟨p, hp, he⟩ => ⟨p, hp, (eq_of_beq he).symm⟩, fun ⟨p, hp, he⟩ => ⟨p, hp, by rw [he]; exact beq_self_eq_true k⟩⟩

theorem lookup_eq_none : m.lookup k = none ↔ k ∉ m.map Prod.fst := by
  rw [← isSome_lookup, Option.not_isSome_iff_eq_none]

theorem lookup_cons (p : κ × ν) (m : List (κ × ν)) (k : κ) :
    (p :: m).lookup k = if k = p.1 then some p.2 else m.lookup k := by
  rw [List.lookup_cons]
  by_cases h : k = p.1
  · simp [h]
  · rw [beq_false_of_ne h, if_neg h]

theorem insert_known (h : (m.lookup k).isSome) : insert cap m k v = m := if_pos h

theorem insert_new (h : m.lookup k = none) :
    insert cap m k v = (if m.length < cap then m else m.tail) ++ [(k, v)] :=
  if_neg (by rw [h]; exact Bool.false_ne_true)

theorem insert_keys (h : (m.map Prod.fst).Nodup) : ((insert cap m k v).map Prod.fst).Nodup := by
  cases hk : m.lookup k with
  | some w => rw [insert_known (by rw [hk]; rfl)]; exact h
  | none =>
    have hsub : ((if m.length < cap then m else m.tail).map Prod.fst).Sublist (m.map Prod.fst) := by
      split_ifs
      · exact List.Sublist.refl _
      · exact (tail_sublist m).map _
    rw [insert_new hk, map_append]
    refine nodup_append.mpr ⟨h.sublist hsub, nodup_singleton _, ?_⟩
    rintro a ha b hb rfl
    obtain rfl := mem_singleton.mp hb
    exact lookup_eq_none.mp hk (hsub.subset ha)

theorem lookup_insert_self (h : m.lookup k = none) : (insert cap m k v).lookup k = some v := by
  have htail : (if m.length < cap then m else m.tail).lookup k = none := by
    rw [lookup_eq_none] at h ⊢
    split_ifs
    · exact h
    · exact fun hm => h (((tail_sublist m).map _).subset hm)
  rw [insert_new h, lookup_append, htail]
  simp

/-- The other keys keep their values, but for the oldest where there is no room. -/
theorem lookup_insert_ne (hm : (m.map Prod.fst).Nodup) (h : m.lookup k = none) (hj : j ≠ k) :
    (insert cap m k v).lookup j = m.lookup j ∨
      ¬ m.length < cap ∧ (m.map Prod.fst).head? = some j ∧ (insert cap m k v).lookup j = none := by
  have hlast : ([(k, v)] : List (κ × ν)).lookup j = none := by
    rw [lookup_eq_none]
    simpa using hj
  rw [insert_new h, lookup_append, hlast]
  simp only [Option.or_none]
  split_ifs with hlen
  · exact .inl rfl
  · cases m with
    | nil => exact .inl rfl
    | cons p m =>
      by_cases hp : p.1 = j
      · refine .inr ⟨hlen, by simp [hp], ?_⟩
        rw [tail_cons, lookup_eq_none, ← hp]
        exact (nodup_cons.mp hm).1
      · left
        rw [tail_cons, lookup_cons, if_neg (Ne.symm hp)]

theorem lookup_perm (h : m.Perm m') (hm : (m.map Prod.fst).Nodup) : m.lookup k = m'.lookup k := by
  induction h with
  | nil => rfl
  | cons p h ih => rw [lookup_cons, lookup_cons, ih (nodup_cons.mp hm).2]
  | swap p q l =>
    have hne : q.1 ≠ p.1 := by
      have := (nodup_cons.mp hm).1
      simp only [map_cons, mem_cons, not_or] at this
      exact this.1
    simp only [lookup_cons]
    by_cases hp : k = p.1
    · rw [if_pos hp, if_pos hp, if_neg (hp ▸ Ne.symm hne)]
    · rw [if_neg hp, if_neg hp]
  | trans h h' ih ih' => exact (ih hm).trans (ih' ((h.map _).nodup_iff.mp hm))

end FifoMap
