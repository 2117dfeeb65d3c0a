/-
# Pools that are released when they are idle

With `DYNPOOL_CFG_GC_EN` a pool is released when its last item is given back, or by the timer when
it was idle long enough. `sllist_remove` is handed `&dynpool->head.next` and returns the node before
the removed one as the head; the timer's loop goes on from the pool it released. `gc_iff` says which
runs keep every pool.
-/
import Mathlib
import Vsf.Tool.Dynpool

namespace Vsf

open ByteMem Bittool Linked Malloc

namespace Dynpool

variable {c : Config} {A : Allocator} {s s' : Dynpool} {m : Mem} {n : PoolNode} {p q k : ℕ} {ps live : List ℕ}
  {next : ℕ → Option ℕ} {head : Option ℕ}

/-! ### Removal from a list -/

theorem sllistIsIn_eq {f : ℕ} (h : Chain next head ps) (hf : ps.length ≤ f) : sllistIsIn next p f head = some (decide (p ∈ ps)) := by
  induction ps generalizing f head with
  | nil =>
    obtain rfl : head = none := h
    cases f <;> rfl
  | cons x ps ih =>
    obtain ⟨rfl, hnext⟩ := chain_cons.mp h
    cases f with
    | zero => simp at hf
    | succ f =>
      rw [sllistIsIn]
      split_ifs with heq
      · simp [heq]
      · rw [ih hnext (Nat.le_of_succ_le_succ hf)]
        simp [Ne.symm heq]

theorem sllistIsIn_spec (hmem : p ∈ ps) {f : ℕ} (h : Chain next head ps) (hf : ps.length ≤ f) :
    sllistIsIn next p f head = some true := by
  rw [sllistIsIn_eq h hf, decide_eq_true hmem]

variable {as bs : List ℕ} {y : ℕ}

theorem head_ne (h : Chain next head (as ++ y :: p :: bs)) : head ≠ some p := by
  rintro rfl
  cases as with
  | nil =>
    obtain rfl := Option.some.inj h.1
    exact (List.nodup_cons.mp h.nodup).1 List.mem_cons_self
  | cons a as =>
    obtain rfl := Option.some.inj h.1
    exact (List.nodup_cons.mp h.nodup).1 (by simp)

/-- The walk of `sllist_remove` stops in front of the node. -/
theorem sllistRemoveLoop_spec {f : ℕ} (h : Chain next head (as ++ y :: p :: bs))
    (hf : (as ++ y :: p :: bs).length ≤ f) :
    sllistRemoveLoop next p f head = some (some y, Function.update next y (next p)) := by
  induction as generalizing f head with
  | nil =>
    obtain ⟨rfl, hnext, -⟩ := h
    cases f with
    | zero => simp at hf
    | succ f => rw [sllistRemoveLoop, if_pos hnext]
  | cons x as ih =>
    obtain ⟨rfl, hnext⟩ := chain_cons.mp h
    cases f with
    | zero => simp at hf
    | succ f =>
      rw [sllistRemoveLoop, if_neg (head_ne hnext)]
      exact ih hnext (Nat.le_of_succ_le_succ hf)

theorem sllistRemove_head (h : Chain next head (p :: bs)) (hf : (p :: bs).length ≤ walkFuel) :
    sllistRemove next head p = some (next p, next) := by
  rw [sllistRemove, sllistIsIn_spec List.mem_cons_self h hf, (chain_cons.mp h).1]
  simp

/-- **What `sllist_remove` does to the head**: it is the node before the removed one. -/
theorem sllistRemove_spec (h : Chain next head (as ++ y :: p :: bs))
    (hf : (as ++ y :: p :: bs).length ≤ walkFuel) :
    sllistRemove next head p = some (some y, Function.update next y (next p)) := by
  rw [sllistRemove, sllistIsIn_spec (by simp) h hf]
  simp only [Option.bind_some, if_true, if_neg (head_ne h)]
  exact sllistRemoveLoop_spec h hf

/-- What `sllist_remove` returns. -/
def sllistRemoveErr (next : ℕ → Option ℕ) (head : Option ℕ) (node : ℕ) : Option ℤ :=
  (sllistIsIn next node walkFuel head).map fun found => if found then 0 else -1

/-- The node is out of the list, and no other; or it was not in, and nothing changes. -/
def Removes (next : ℕ → Option ℕ) (head : Option ℕ) (ps : List ℕ) (p : ℕ) : Prop :=
  ∃ head' next', sllistRemove next head p = some (head', next') ∧
    (p ∈ ps → sllistRemoveErr next head p = some 0 ∧ Chain next' head' (ps.erase p)) ∧
    (p ∉ ps → sllistRemoveErr next head p = some (-1) ∧ head' = head ∧ next' = next)

/-- **A node is removed right** if it is not behind the second one. -/
theorem removes_iff (h : Chain next head ps) (hlt : ∀ x ∈ ps, x < 2 ^ 32) : Removes next head ps p ↔ p ∉ ps.drop 2 := by
  have hf : ps.length ≤ walkFuel := by
    have hsub : ps ⊆ List.range (2 ^ 32) := fun x hx => List.mem_range.mpr (hlt x hx)
    calc ps.length ≤ (List.range (2 ^ 32)).length := (h.nodup.subperm hsub).length_le
      _ = walkFuel := List.length_range
  have herr : sllistRemoveErr next head p = some (if p ∈ ps then 0 else -1) := by
    rw [sllistRemoveErr, sllistIsIn_eq h hf]
    simp
  by_cases hp : p ∈ ps
  · rw [if_pos hp] at herr
    obtain ⟨as, bs, rfl⟩ := List.append_of_mem hp
    have hout : p ∉ as ∧ p ∉ bs := by
      have hnodup := List.nodup_cons.mp (List.nodup_middle.mp h.nodup)
      simpa using hnodup.1
    have herase : (as ++ p :: bs).erase p = as ++ bs := by
      rw [List.erase_append_right _ hout.1, List.erase_cons_head]
    rcases List.eq_nil_or_concat as with rfl | ⟨as, y, rfl⟩
    · refine iff_of_true ⟨_, _, sllistRemove_head h hf, fun _ => ⟨herr, ?_⟩, fun hn => absurd hp hn⟩ fun hm => hout.2 ?_
      · rw [herase]
        exact (chain_cons.mp h).2
      · exact List.mem_of_mem_drop (i := 1) hm
    · rw [List.concat_eq_append, List.append_assoc] at *
      have hremove := sllistRemove_spec h hf
      have hunlink := Chain.unlink h
      cases as with
      | nil =>
        refine iff_of_true ⟨_, _, hremove, fun _ => ⟨herr, ?_⟩, fun hn => absurd hp hn⟩ hout.2
        rw [herase, ← show head = some y from h.1]
        exact hunlink
      | cons a as =>
        refine iff_of_false ?_ (not_not.mpr (by cases as <;> simp))
        rintro ⟨head', next', heq, hin, -⟩
        obtain ⟨rfl, rfl⟩ : some y = head' ∧ Function.update next y (next p) = next' := by simpa [hremove] using heq
        obtain ⟨r, -, hrest⟩ := chain_append.mp hunlink
        obtain rfl : r = some y := (chain_cons.mp hrest).1
        -- the list is found from its head, so that there is only one
        have hlen := congrArg List.length ((hin hp).2.unique hrest)
        rw [herase] at hlen
        simp at hlen
        omega
  · rw [if_neg hp] at herr
    refine iff_of_true ⟨head, next, ?_, fun hn => absurd hn hp, fun _ => ⟨herr, rfl, rfl⟩⟩ fun hm => hp (List.mem_of_mem_drop hm)
    rw [sllistRemove, sllistIsIn_eq h hf, decide_eq_false hp]
    rfl

theorem removes_iff_second : Removes (Function.update (Function.update (fun _ => none) 8 (some 16)) 4 (some 8)) (some 4) [4, 8, 16] 8 := by
  have hchain : Chain (Function.update (Function.update (fun _ => none) 8 (some 16)) 4 (some 8)) (some 4) [4, 8, 16] :=
    ⟨rfl, rfl, rfl, rfl⟩
  exact (removes_iff hchain (by decide)).mpr (by decide)

/-- Three nodes, the third one removed: the head becomes the second. -/
theorem removes_third : ¬∀ (next : ℕ → Option ℕ) (head : Option ℕ) (ps : List ℕ) (p : ℕ), Chain next head ps → (∀ x ∈ ps, x < 2 ^ 32) →
    Removes next head ps p := by
  intro hall
  have hchain : Chain (Function.update (Function.update (fun _ => none) 8 (some 16)) 4 (some 8)) (some 4) [4, 8, 16] :=
    ⟨rfl, rfl, rfl, rfl⟩
  have hlt : ∀ x ∈ [4, 8, 16], x < 2 ^ 32 := by decide
  have hremove := sllistRemove_spec (show Chain _ _ ([4] ++ 8 :: 16 :: []) from hchain) (by simp [walkFuel])
  obtain ⟨head', next', heq, hin, -⟩ := hall _ _ _ 16 hchain hlt
  obtain ⟨rfl, -⟩ : some 8 = head' ∧ _ = next' := by simpa [hremove] using heq
  obtain ⟨hhead, -⟩ : some 8 = some 4 ∧ _ := (hin (by decide)).2
  cases hhead

/-! ### A pool is released -/

theorem touch_at (h : s.heap.At p) : s.touch p = s := by
  have hany : (s.heap.live.any fun b => b.addr = p) = true := by
    obtain ⟨b, hb, hp⟩ := h
    exact List.any_eq_true.mpr ⟨b, hb, by simpa using hp⟩
  rw [touch, hany]
  simp

namespace Inv

theorem heap_at (h : Inv c s live ps) (hp : p ∈ ps) : s.heap.At p := ⟨_, h.block hp, rfl⟩

theorem used_empty (h : Inv c s live ps) (hp : p ∈ ps) (hidle : (s.node p).allocatedNum = 0) : c.used s.mem p = ∅ := by
  have hcount := h.count p hp
  rw [hidle] at hcount
  exact Finset.card_eq_zero.mp hcount.symm

/-- **A pool without items is released**, and the list is without it. -/
theorem drop (h : Inv c s live (as ++ p :: bs)) (hidle : (s.node p).allocatedNum = 0)
    (hchain : Chain next head (as ++ bs)) :
    Inv c { s with head, next, heap := s.heap.free p, curPoolNum := s.curPoolNum - 1 } live (as ++ bs) := by
  have hp : p ∈ as ++ p :: bs := by simp
  have hempty := h.used_empty hp hidle
  have hnodup : p ∉ as ++ bs ∧ (as ++ bs).Nodup := List.nodup_cons.mp (List.nodup_middle.mp h.chain.nodup)
  have hmem : ∀ x, x ∈ as ++ p :: bs ↔ x = p ∨ x ∈ as ++ bs := by
    intro x
    simp only [List.mem_append, List.mem_cons]
    tauto
  have hsub : ∀ x ∈ as ++ bs, x ∈ as ++ p :: bs := fun x hx => (hmem x).mpr (.inr hx)
  refine ⟨hchain, h.ok.free p, ?_, fun x hx => h.made x (hsub x hx), fun x hx => h.count x (hsub x hx),
    fun x hx => h.rest x (hsub x hx), h.nodup, ?_, ?_⟩
  · intro b
    show b ∈ (s.heap.free p).live ↔ _
    rw [Heap.mem_free (h.heap_at hp), h.blocks]
    constructor
    · rintro ⟨⟨x, hx, rfl⟩, hne⟩
      exact ⟨x, ((hmem x).mp hx).resolve_left hne, rfl⟩
    · rintro ⟨x, hx, rfl⟩
      refine ⟨⟨x, hsub x hx, rfl⟩, ?_⟩
      rintro rfl
      exact hnodup.1 hx
  · intro q
    rw [h.live]
    constructor
    · rintro ⟨x, hx, k, hk, rfl⟩
      rcases (hmem x).mp hx with rfl | hx
      · rw [hempty] at hk
        exact absurd hk (Finset.notMem_empty k)
      · exact ⟨x, hx, k, hk, rfl⟩
    · rintro ⟨x, hx, k, hk, rfl⟩
      exact ⟨x, hsub x hx, k, hk, rfl⟩
  · show s.curPoolNum - 1 = _
    have hlen : (as ++ p :: bs).length = (as ++ bs).length + 1 := by
      simp
      omega
    rw [h.num, hlen, UInt16.ofNat_add]
    exact UInt16.add_sub_cancel ..

theorem release (h : Inv c s live (as ++ p :: bs)) (hidle : (s.node p).allocatedNum = 0) (hlen : as.length ≤ 1) :
    ∃ s', s.gcFree p = some s' ∧ (s'.stale = s.stale ∧ s'.heap.strays = s.heap.strays) ∧ Inv c s' live (as ++ bs) := by
  have hstrays : (s.heap.free p).strays = s.heap.strays := by rw [Heap.free_at (h.heap_at (by simp))]
  cases as with
  | nil =>
    obtain ⟨-, hnext⟩ := chain_cons.mp h.chain
    rw [gcFree, sllistRemove_head h.chain h.length_le]
    exact ⟨_, rfl, ⟨rfl, hstrays⟩, h.drop hidle hnext⟩
  | cons y as =>
    obtain rfl : as = [] := List.length_eq_zero_iff.mp (by simpa using hlen)
    have hremove : sllistRemove s.next s.head p = some (some y, Function.update s.next y (s.next p)) :=
      sllistRemove_spec (show Chain s.next s.head ([] ++ y :: p :: bs) from h.chain) h.length_le
    have hchain : Chain (Function.update s.next y (s.next p)) s.head ([] ++ y :: bs) := Chain.unlink h.chain
    rw [show s.head = some y from hchain.1] at hchain
    rw [gcFree, hremove]
    exact ⟨_, rfl, ⟨rfl, hstrays⟩, h.drop hidle hchain⟩

theorem hit (h : Inv c s live ps) (hfits : c.Fits) (hp : p ∈ ps) (now : UInt32) :
    Inv c { s with node := Function.update s.node p { s.node p with gcTick := now } } live ps := by
  obtain ⟨h1, h2, h3, h4⟩ := h.made p hp
  exact h.change hp (fun _ _ => rfl) hfits ⟨h1, h2, h3, h4⟩ (h.count p hp) (h.rest p hp) h.nodup (h.live_split hp)

/-! ### Runs with garbage collection -/

theorem tickLoop_pass (now : UInt32) (h : ∀ x ∈ ps, s.heap.At x ∧ ¬s.Expired c now x) {f : ℕ} {head q : Option ℕ} (hseg : Seg s.next head ps q)
    (hf : ps.length ≤ f) : tickLoop c now f s head = tickLoop c now (f - ps.length) s q := by
  induction ps generalizing f head with
  | nil => rw [show head = q from hseg, List.length_nil, Nat.sub_zero]
  | cons x ps ih =>
    obtain ⟨rfl, hnext⟩ := seg_cons.mp hseg
    obtain ⟨⟨hat, hquiet⟩, hrest⟩ := List.forall_mem_cons.mp h
    cases f with
    | zero => simp at hf
    | succ f =>
      rw [tickLoop, if_neg hquiet, Option.bind_some, touch_at hat, ih hrest hnext (Nat.le_of_succ_le_succ hf),
        List.length_cons, Nat.add_sub_add_right]

theorem tick_quiet (h : Inv c s live ps) (now : UInt32) (hquiet : ∀ p ∈ ps, ¬s.Expired c now p) : s.tick c now = some s := by
  rw [tick, tickLoop_pass now (fun p hp => ⟨h.heap_at hp, hquiet p hp⟩) h.chain h.length_le]
  cases walkFuel - ps.length <;> rfl

end Inv

/-- The timer finds a pool to release, or one from the third on is released on the spot. -/
def Quiet (c : Config) (u : DynpoolUse) : DynpoolUse.Op → Prop
  | .tick now => ∀ ps, Chain u.pool.next u.pool.head ps → ∀ p ∈ ps, ¬u.pool.Expired c now p
  | .free _ q => c.pollMs = 0 → ∀ as p bs, Chain u.pool.next u.pool.head (as ++ p :: bs) → p < q ∧ q < p + c.blockSize.toNat →
      (u.pool.node p).allocatedNum = 1 → as.length ≤ 1
  | _ => True

/-- Just `ps` are linked and not released; live items are theirs and can be given back; nothing was released
twice, or read after. -/
structure Kept (c : Config) (u : DynpoolUse) (ps : List ℕ) : Prop where
  linked : Chain u.pool.next u.pool.head ps
  blocks : ∀ b, b ∈ u.pool.heap.live ↔ ∃ p ∈ ps, b = ⟨p, c.blockSize.toNat⟩
  once : u.pool.heap.strays = 0
  fresh : u.pool.stale = false
  inside : ∀ q ∈ u.live, ∃ p ∈ ps, p < q ∧ q + c.stride.toNat ≤ p + c.blockSize.toNat
  free : ∀ now, ∀ q ∈ u.live, ∃ s', u.pool.free c now q = some (true, s')

namespace Inv

/-- What becomes of a pool whose number is 0, wherever it is. -/
theorem gcHit_ends (h : Inv c s live ps) (hp : p ∈ ps) (now : UInt32) : ∃ s', s.gcHit c now p = some s' := by
  unfold gcHit
  split_ifs with hpoll
  · exact ⟨_, rfl⟩
  obtain ⟨as, bs, rfl⟩ := List.append_of_mem hp
  rcases List.eq_nil_or_concat as with rfl | ⟨as, y, rfl⟩
  · rw [gcFree, sllistRemove_head h.chain h.length_le]
    exact ⟨_, rfl⟩
  · rw [List.concat_eq_append, List.append_assoc] at h
    rw [gcFree, sllistRemove_spec h.chain h.length_le]
    exact ⟨_, rfl⟩

variable {u u' : DynpoolUse} {op : DynpoolUse.Op}

theorem kept (h : Inv c u.pool u.live ps) (hfits : c.Fits) (honce : u.pool.heap.strays = 0) (hfresh : u.pool.stale = false) :
    Kept c u ps := by
  refine ⟨h.chain, h.blocks, honce, hfresh, ?_, ?_⟩
  · intro q hq
    obtain ⟨p, hp, -, -, -, hin⟩ := h.live_inside hfits hq
    exact ⟨p, hp, hin⟩
  · intro now q hq
    obtain ⟨p, hp, k, hk, rfl, -⟩ := h.live_inside hfits hq
    obtain ⟨hinv, hfree⟩ := h.free_spec hfits now hp hk
    obtain ⟨s', hhit⟩ := hinv.gcHit_ends hp now
    rw [hfree]
    split_ifs
    · rw [hhit]
      exact ⟨s', rfl⟩
    · exact ⟨_, rfl⟩

/-- **A quiet step** keeps the pools. -/
theorem quiet (h : Inv c u.pool u.live ps) (hfits : c.Fits) (hgc : c.gcEn = true)
    (hl : u.Legal c op) (hq : Quiet c u op) (he : u.exec c A op = some u') :
    (u'.pool.stale = u.pool.stale ∧ u'.pool.heap.strays = u.pool.heap.strays) ∧ ∃ ps', Inv c u'.pool u'.live ps' := by
  cases op with
  | alloc =>
    obtain ⟨r, s', halloc, hsame, hcases⟩ := h.alloc_spec hfits (A := A)
    rw [DynpoolUse.exec, halloc] at he
    obtain rfl := Option.some.inj he
    rcases hcases with ⟨-, q, rfl, -, hinv⟩ | ⟨-, a, q, -, rfl, -, hinv⟩ | ⟨-, rfl, hinv, -⟩
    · exact ⟨hsame, ps, hinv⟩
    · exact ⟨hsame, a :: ps, hinv⟩
    · exact ⟨hsame, ps, hinv⟩
  | free now q =>
    obtain ⟨p, hp, k, hk, rfl, hin⟩ := h.live_inside hfits hl
    obtain ⟨hinv, hfree⟩ := h.free_spec hfits now hp hk
    rw [DynpoolUse.exec, hfree] at he
    by_cases hlast : ((c.giveBack u.pool p k).node p).allocatedNum = 0
    · rw [if_pos ⟨hgc, hlast⟩] at he
      by_cases hpoll : 0 < c.pollMs
      · rw [gcHit, if_pos hpoll] at he
        obtain rfl := Option.some.inj he
        exact ⟨⟨rfl, rfl⟩, ps, hinv.hit hfits hp now⟩
      · have hzero : c.pollMs = 0 := by
          apply UInt32.toNat_inj.mp
          rw [UInt32.lt_iff_toNat_lt] at hpoll
          exact Nat.eq_zero_of_not_pos hpoll
        have hone : (u.pool.node p).allocatedNum = 1 := by
          have hnum : (u.pool.node p).allocatedNum - 1 = 0 := by simpa [Config.giveBack] using hlast
          rwa [UInt32.sub_eq_iff_eq_add, UInt32.zero_add] at hnum
        obtain ⟨as, bs, rfl⟩ := List.append_of_mem hp
        have hpos := hfits.stride
        have hlen := hq hzero as p bs h.chain ⟨hin.1, by omega⟩ hone
        obtain ⟨s', hrelease, hsame, hinv'⟩ := hinv.release hlast hlen
        rw [gcHit, if_neg hpoll, hrelease] at he
        obtain rfl := Option.some.inj he
        exact ⟨hsame, as ++ bs, hinv'⟩
    · rw [if_neg (fun hand => hlast hand.2)] at he
      obtain rfl := Option.some.inj he
      exact ⟨⟨rfl, rfl⟩, ps, hinv⟩
  | use q a v =>
    obtain rfl := Option.some.inj he
    exact ⟨⟨rfl, rfl⟩, ps, h.use hfits hl.1 hl.2 v⟩
  | tick now =>
    rw [DynpoolUse.exec, h.tick_quiet now (hq ps h.chain)] at he
    obtain rfl := Option.some.inj he
    exact ⟨⟨rfl, rfl⟩, ps, h⟩

theorem tickLoop_stale (now : UInt32) {f : ℕ} {head : Option ℕ} (h : tickLoop c now f s head = some s') (hs : s.stale = true) :
    s'.stale = true := by
  induction f generalizing s head with
  | zero =>
    cases head with
    | none =>
      obtain rfl := Option.some.inj h
      exact hs
    | some p => cases h
  | succ f ih =>
    cases head with
    | none =>
      obtain rfl := Option.some.inj h
      exact hs
    | some p =>
      rw [tickLoop, Option.bind_eq_some_iff] at h
      obtain ⟨s1, h1, h2⟩ := h
      have hs1 : s1.stale = true := by
        split_ifs at h1
        · obtain ⟨r, -, rfl⟩ := Option.map_eq_some_iff.mp h1
          exact hs
        · obtain rfl := Option.some.inj h1
          exact hs
      apply ih h2
      rw [touch, hs1]
      rfl

/-- **The timer goes on from the pool it released.** -/
theorem tick_loud (h : Inv c s live ps) (now : UInt32) (hp : p ∈ ps) (hexp : s.Expired c now p) (ht : s.tick c now = some s') :
    s'.stale = true := by
  obtain ⟨p, hfind⟩ : ∃ p, ps.find? (fun p => s.Expired c now p) = some p :=
    Option.isSome_iff_exists.mp (List.find?_isSome.mpr ⟨p, hp, by simpa using hexp⟩)
  obtain ⟨hexp, as, bs, rfl, hfirst⟩ := List.find?_eq_some_iff_append.mp hfind
  obtain ⟨r, hseg, hchain⟩ := chain_append.mp h.chain
  obtain ⟨rfl, -⟩ := chain_cons.mp hchain
  have hlen := h.length_le
  rw [List.length_append, List.length_cons] at hlen
  rw [tick, tickLoop_pass now (fun x hx => ⟨h.heap_at (List.mem_append_left _ hx), by simpa using hfirst x hx⟩) hseg (by omega)] at ht
  obtain ⟨f, hf⟩ : ∃ f, walkFuel - as.length = f + 1 := ⟨walkFuel - as.length - 1, by omega⟩
  rw [hf, tickLoop, if_pos (by simpa using hexp), Option.bind_eq_some_iff] at ht
  obtain ⟨s1, h1, h2⟩ := ht
  obtain ⟨r, -, rfl⟩ := Option.map_eq_some_iff.mp h1
  refine tickLoop_stale now h2 ?_
  have hgone : ((s.heap.free p).live.any fun b => b.addr = p) = false := by
    rw [Heap.free_at (h.heap_at (by simp))]
    simp
  rw [touch]
  show (s.stale || !((s.heap.free p).live.any fun b => b.addr = p)) = true
  rw [hgone]
  simp

/-- **A pool from the third on that is released** takes out those in front of the one before it. -/
theorem free_loud {a : ℕ} (h : Inv c u.pool u.live (a :: as ++ y :: p :: bs))
    (hidle : (u.pool.node p).allocatedNum = 0) (hfree : u.pool.gcFree p = some u'.pool) : ¬∃ ps', Kept c u' ps' := by
  rintro ⟨ps', hkept⟩
  have hnodup := h.chain.nodup
  rw [gcFree, sllistRemove_spec h.chain h.length_le] at hfree
  have hpool := Option.some.inj hfree
  obtain ⟨r, -, hchain⟩ := chain_append.mp (Chain.unlink h.chain)
  obtain ⟨rfl, -⟩ := chain_cons.mp hchain
  have hps : ps' = y :: bs := by
    have hlinked := hkept.linked
    rw [← hpool] at hlinked
    exact hlinked.unique hchain
  have hblock : (⟨a, c.blockSize.toNat⟩ : Block) ∈ u'.pool.heap.live := by
    rw [← hpool]
    refine (Heap.mem_free (h.heap_at (by simp))).mpr ⟨h.block (by simp), ?_⟩
    rintro rfl
    exact (List.nodup_cons.mp hnodup).1 (by simp)
  obtain ⟨x, hx, heq⟩ := (hkept.blocks _).mp hblock
  obtain rfl : a = x := congrArg Block.addr heq
  rw [hps] at hx
  refine (List.nodup_cons.mp hnodup).1 ?_
  rcases List.mem_cons.mp hx with rfl | hx
  · simp
  · simp [hx]

/-- **Any other step** loses a pool, or reads one that was released. -/
theorem loud (h : Inv c u.pool u.live ps) (hfits : c.Fits) (hgc : c.gcEn = true)
    (hl : u.Legal c op) (hq : ¬Quiet c u op) (he : u.exec c A op = some u') : ¬∃ ps', Kept c u' ps' := by
  cases op with
  | alloc => exact absurd trivial hq
  | use q a v => exact absurd trivial hq
  | tick now =>
    rw [Quiet] at hq
    push Not at hq
    obtain ⟨ps', hchain, p, hp, hexp⟩ := hq
    obtain rfl := h.chain.unique hchain
    obtain ⟨s', ht, rfl⟩ := Option.map_eq_some_iff.mp he
    rintro ⟨ps', hkept⟩
    have hfresh := hkept.fresh
    rw [h.tick_loud now hp hexp ht] at hfresh
    cases hfresh
  | free now q =>
    rw [Quiet] at hq
    push Not at hq
    obtain ⟨hpoll, as, p, bs, hchain, hin, hone, hlen⟩ := hq
    obtain rfl := h.chain.unique hchain
    obtain ⟨p', hp', k, hk, rfl, hin'⟩ := h.live_inside hfits hl
    obtain rfl : p' = p := by
      by_contra hne
      have hpos := hfits.stride
      rcases h.apart hp' (by simp) hne with hle | hle <;> omega
    obtain ⟨hinv, hfree⟩ := h.free_spec hfits now hp' hk
    have hidle : ((c.giveBack u.pool p' k).node p').allocatedNum = 0 := by
      simp [Config.giveBack, hone]
    rw [DynpoolUse.exec, hfree, if_pos ⟨hgc, hidle⟩, gcHit, if_neg (by rw [hpoll]; decide)] at he
    obtain ⟨r, hr, rfl⟩ := Option.map_eq_some_iff.mp he
    obtain ⟨s1, hs1, rfl⟩ := Option.map_eq_some_iff.mp hr
    rcases as with - | ⟨a, as⟩
    · simp at hlen
    rcases List.eq_nil_or_concat as with rfl | ⟨as, y, rfl⟩
    · simp at hlen
    rw [List.concat_eq_append, List.cons_append, List.append_assoc] at hinv
    exact hinv.free_loud (u := ⟨_, _⟩) hidle hs1

end Inv

/-- **Garbage collection**: a run keeps the pools up to a step that is not quiet, which does not. -/
theorem gc_iff (hgc : c.gcEn = true) (hfits : c.Fits) {u : DynpoolUse} (hr : ((DynpoolUse.system c A).restrict (Quiet c)).Reach u) :
    (∃ ps, Kept c u ps) ∧ ∀ op u', u.Legal c op → u.exec c A op = some u' → ((∃ ps, Kept c u' ps) ↔ Quiet c u op) := by
  have hinv : (∃ ps, Inv c u.pool u.live ps) ∧ u.pool.stale = false ∧ u.pool.heap.strays = 0 := by
    refine hr.invariant (P := fun u => (∃ ps, Inv c u.pool u.live ps) ∧ u.pool.stale = false ∧ u.pool.heap.strays = 0) ?_ ?_
    · rintro _ ⟨m, node, next, rfl⟩
      exact ⟨⟨[], Inv.init m node next⟩, rfl, rfl⟩
    · rintro u op u' - ⟨⟨ps, h⟩, hfresh, honce⟩ ⟨hquiet, hl, he⟩
      obtain ⟨⟨h1, h2⟩, hinv⟩ := h.quiet hfits hgc hl hquiet he
      exact ⟨hinv, h1.trans hfresh, h2.trans honce⟩
  obtain ⟨⟨ps, h⟩, hfresh, honce⟩ := hinv
  refine ⟨⟨ps, h.kept hfits honce hfresh⟩, fun op u' hl he => ⟨fun hkept => ?_, fun hquiet => ?_⟩⟩
  · by_contra hquiet
    exact h.loud hfits hgc hl hquiet he hkept
  · obtain ⟨⟨h1, h2⟩, ps', hinv⟩ := h.quiet hfits hgc hl hquiet he
    exact ⟨ps', hinv.kept hfits (h2.trans honce) (h1.trans hfresh)⟩

/-- Two pools; an item is given back at 5, and the timer of 12 finds nothing to release. -/
theorem gc_iff_one : ∃ u ps, [.alloc, .alloc, .free 5 0x1020, .tick 12].foldlM
      (fun u op => DynpoolUse.exec ⟨true, 4, 1, 0, 10⟩ (.placed fun n => 0x1000 * (n + 1)) u op) fresh = some u ∧
    u.live = [0x2020] ∧ Kept ⟨true, 4, 1, 0, 10⟩ u ps := by
  let c : Config := ⟨true, 4, 1, 0, 10⟩
  let A : Allocator := .placed fun n => 0x1000 * (n + 1)
  have h : ((fresh.exec c A .alloc).bind fun u1 => (u1.exec c A .alloc).bind fun u2 => (u2.exec c A (.free 5 0x1020)).bind fun u3 =>
      (u3.exec c A (.tick 12)).map fun u4 => (u2.live, u4.live, [u3.pool.head, u3.pool.next 0x2000, u3.pool.next 0x1000],
        [0x2000, 0x1000].all fun p => ¬u3.pool.Expired c 12 p)) =
          some ([0x2020, 0x1020], [0x2020], [some 0x2000, some 0x1000, none], true) := by
    decide +kernel
  obtain ⟨u1, h1, h⟩ := Option.bind_eq_some_iff.mp h
  obtain ⟨u2, h2, h⟩ := Option.bind_eq_some_iff.mp h
  obtain ⟨u3, h3, h⟩ := Option.bind_eq_some_iff.mp h
  obtain ⟨u4, h4, h⟩ := Option.map_eq_some_iff.mp h
  simp only [Prod.mk.injEq, List.cons.injEq, and_true] at h
  obtain ⟨hlive2, hlive4, ⟨hhead, hnext, hlast⟩, hidle⟩ := h
  have hlegal : u2.Legal c (.free 5 0x1020) := by
    show 0x1020 ∈ u2.live
    rw [hlive2]
    decide
  have hquiet : Quiet c u3 (.tick 12) := by
    intro ps hchain p hp
    rw [hchain.unique (show Chain _ _ [0x2000, 0x1000] from ⟨hhead, hnext, hlast⟩)] at hp
    exact of_decide_eq_true (List.all_eq_true.mp hidle p hp)
  have hreach1 : ((DynpoolUse.system c A).restrict (Quiet c)).Reach u1 :=
    .step (i := .alloc) (.start ⟨_, _, _, rfl⟩) ⟨trivial, trivial, h1⟩
  have hreach2 := hreach1.step (i := DynpoolUse.Op.alloc) ⟨trivial, trivial, h2⟩
  have hreach3 := hreach2.step (i := DynpoolUse.Op.free 5 0x1020) ⟨nofun, hlegal, h3⟩
  have hreach4 := hreach3.step (i := DynpoolUse.Op.tick 12) ⟨hquiet, ⟨rfl, by decide⟩, h4⟩
  obtain ⟨⟨ps, hkept⟩, -⟩ := gc_iff rfl ⟨by decide, by decide, by decide⟩ hreach4
  have hrun : [.alloc, .alloc, .free 5 0x1020, .tick 12].foldlM (fun u op => DynpoolUse.exec c A u op) fresh = some u4 := by
    simp [h1, h2, h3, h4]
  exact ⟨u4, ps, hrun, hlive4, hkept⟩

/-- Three pools of one item: when the first one's is given back, the last one's can not be. -/
theorem pool_lost : ¬∀ (c : Config) (A : Allocator) (u : DynpoolUse), c.gcEn = true → c.Fits → (DynpoolUse.system c A).Reach u →
    ∃ ps, Kept c u ps := by
  intro hall
  let c : Config := ⟨true, 4, 1, 0, 0⟩
  let A : Allocator := .placed fun n => 0x1000 * (n + 1)
  have h : ((fresh.exec c A .alloc).bind fun u1 => (u1.exec c A .alloc).bind fun u2 => (u2.exec c A .alloc).bind fun u3 =>
      (u3.exec c A (.free 0 0x1020)).map fun u4 => (u3.live, u4.live, (u4.pool.free c 0 0x3020).map Prod.fst)) =
        some ([0x3020, 0x2020, 0x1020], [0x3020, 0x2020], some false) := by
    decide +kernel
  obtain ⟨u1, h1, h⟩ := Option.bind_eq_some_iff.mp h
  obtain ⟨u2, h2, h⟩ := Option.bind_eq_some_iff.mp h
  obtain ⟨u3, h3, h⟩ := Option.bind_eq_some_iff.mp h
  obtain ⟨u4, h4, h⟩ := Option.map_eq_some_iff.mp h
  rw [Prod.mk.injEq, Prod.mk.injEq] at h
  obtain ⟨hlive3, hlive4, hfree⟩ := h
  have hlegal : u3.Legal c (.free 0 0x1020) := by
    show 0x1020 ∈ u3.live
    rw [hlive3]
    decide
  have hstart : (DynpoolUse.system c A).Reach fresh := .start ⟨_, _, _, rfl⟩
  have hreach1 : (DynpoolUse.system c A).Reach u1 := hstart.step (i := .alloc) ⟨trivial, h1⟩
  have hreach2 : (DynpoolUse.system c A).Reach u2 := hreach1.step (i := .alloc) ⟨trivial, h2⟩
  have hreach3 : (DynpoolUse.system c A).Reach u3 := hreach2.step (i := .alloc) ⟨trivial, h3⟩
  have hreach : (DynpoolUse.system c A).Reach u4 := hreach3.step ⟨hlegal, h4⟩
  obtain ⟨ps, hkept⟩ := hall c A u4 rfl ⟨by decide, by decide, by decide⟩ hreach
  obtain ⟨s', htrue⟩ := hkept.free 0 0x3020 (by rw [hlive4]; decide)
  rw [htrue] at hfree
  cases hfree

end Dynpool
end Vsf
