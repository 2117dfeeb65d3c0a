/-
# A window of a memory abstraction layer

`vsfmal_erase`, `vsfmal_read` and `vsfmal_write` take a request to the driver block by block, in a
protothread that it may suspend. A `vsfmim_t` is a window of another layer, which it puts into
`user_data`. A resumed operation takes that real layer for a `vsfmim_t` (`mimDrv` is `none` there),
and nothing looks at the window's size; `right_iff` says what is left.
-/
import Mathlib
import Vsf.Mal.Embflash

namespace Vsf
namespace Mim

open List Option

/-! ### Objects and protothreads -/

/-- The two layers. -/
inductive Obj where
  | mim
  | real
  deriving DecidableEq, Repr

/-- `struct vsfsm_pt_t`: its `user_data`, and if `state` is behind `vsfsm_pt_entry`. -/
structure Pt where
  userData : Obj
  entered : Bool
  deriving DecidableEq

/-- `struct vsfmal_t`. -/
structure Mal where
  pt : Pt
  opBlockSize : UInt32
  offset : UInt32

/-- A block a driver is called for: address, position in the buffer, length. -/
structure Block where
  addr : UInt64
  pos : ℕ
  len : UInt32
  deriving DecidableEq

/-- The caller's protothread, the two layers, and the driver's calls with results. -/
structure World where
  caller : Pt
  mal : Obj → Mal
  calls : List (Block × Int32)

/-- The window, the driver's block sizes, and what its calls return, by number. -/
structure Env where
  op : MalOp
  addr : UInt32
  size : UInt32
  blockSize : MalOp → UInt64 → UInt32 → UInt32
  script : ℕ → Int32

/-- Which protothread an operation runs on. -/
inductive Thread where
  | caller
  | of (m : Obj)
  deriving DecidableEq

namespace World

def pt (w : World) : Thread → Pt
  | .caller => w.caller
  | .of m => (w.mal m).pt

def setPt (w : World) (t : Thread) (p : Pt) : World :=
  match t with
  | .caller => { w with caller := p }
  | .of m => { w with mal := Function.update w.mal m { w.mal m with pt := p } }

def setOffset (w : World) (m : Obj) (offset : UInt32) : World :=
  { w with mal := Function.update w.mal m { w.mal m with offset := offset } }

def setOp (w : World) (m : Obj) (opBlockSize : UInt32) : World :=
  { w with mal := Function.update w.mal m { w.mal m with opBlockSize := opBlockSize, offset := 0 } }

@[simp] theorem setPt_calls (w : World) (t : Thread) (p : Pt) : (w.setPt t p).calls = w.calls := by
  cases t <;> rfl

@[simp] theorem setPt_offset (w : World) (t : Thread) (p : Pt) (m : Obj) :
    ((w.setPt t p).mal m).offset = (w.mal m).offset := by
  cases t with
  | caller => rfl
  | of m' => by_cases h : m = m' <;> simp [setPt, h]

@[simp] theorem setPt_opBlockSize (w : World) (t : Thread) (p : Pt) (m : Obj) :
    ((w.setPt t p).mal m).opBlockSize = (w.mal m).opBlockSize := by
  cases t with
  | caller => rfl
  | of m' => by_cases h : m = m' <;> simp [setPt, h]

@[simp] theorem pt_setPt_self (w : World) (t : Thread) (p : Pt) : (w.setPt t p).pt t = p := by
  cases t <;> simp [setPt, pt]

theorem pt_setPt_ne (w : World) {t t' : Thread} (p : Pt) (h : t' ≠ t) : (w.setPt t p).pt t' = w.pt t' := by
  cases t with
  | caller =>
    cases t' with
    | caller => exact absurd rfl h
    | of m' => rfl
  | of m =>
    cases t' with
    | caller => rfl
    | of m' => simp [setPt, pt, show m' ≠ m from fun he => h (by rw [he])]

@[simp] theorem setOffset_calls (w : World) (m : Obj) (o : UInt32) : (w.setOffset m o).calls = w.calls := rfl

@[simp] theorem setOffset_pt (w : World) (m : Obj) (o : UInt32) (t : Thread) : (w.setOffset m o).pt t = w.pt t := by
  cases t with
  | caller => rfl
  | of m' => by_cases h : m' = m <;> simp [setOffset, pt, h]

@[simp] theorem setOffset_offset (w : World) (m : Obj) (o : UInt32) : ((w.setOffset m o).mal m).offset = o := by
  simp [setOffset]

@[simp] theorem setOffset_opBlockSize (w : World) (m m' : Obj) (o : UInt32) :
    ((w.setOffset m o).mal m').opBlockSize = (w.mal m').opBlockSize := by
  by_cases h : m' = m <;> simp [setOffset, h]

@[simp] theorem setOp_calls (w : World) (m : Obj) (b : UInt32) : (w.setOp m b).calls = w.calls := rfl

@[simp] theorem setOp_pt (w : World) (m : Obj) (b : UInt32) (t : Thread) : (w.setOp m b).pt t = w.pt t := by
  cases t with
  | caller => rfl
  | of m' => by_cases h : m' = m <;> simp [setOp, pt, h]

@[simp] theorem setOp_self (w : World) (m : Obj) (b : UInt32) :
    ((w.setOp m b).mal m).offset = 0 ∧ ((w.setOp m b).mal m).opBlockSize = b := by
  simp [setOp]

/-- An iteration before the driver: `mal->pt` is set up, and `vsfsm_pt_entry`. -/
def enter (w : World) (m : Obj) (t : Thread) : World :=
  let w := w.setPt (.of m) ⟨m, false⟩
  w.setPt t { w.pt t with entered := true }

@[simp] theorem enter_calls (w : World) (m : Obj) (t : Thread) : (w.enter m t).calls = w.calls := by
  simp [enter]

@[simp] theorem enter_offset (w : World) (m m' : Obj) (t : Thread) : ((w.enter m t).mal m').offset = (w.mal m').offset := by
  simp [enter]

@[simp] theorem enter_opBlockSize (w : World) (m m' : Obj) (t : Thread) :
    ((w.enter m t).mal m').opBlockSize = (w.mal m').opBlockSize := by
  simp [enter]

end World

/-! ### The operations -/

/-- A driver's operation; `none` is no defined result. -/
abbrev Drv := World → UInt64 → ℕ → UInt32 → Option (Int32 × World)

/-- `vsfsm_pt_entry` and what follows it in the loop; `next` is the loop. -/
def malEntry (drv : Drv) (m : Obj) (addr : UInt64) (pos : ℕ) (next : World → Option (Int32 × World)) (w : World) :
    Option (Int32 × World) :=
  let offset := (w.mal m).offset
  match drv w (addr + offset.toUInt64) (pos + offset.toNat) (w.mal m).opBlockSize with
  | none => none
  | some (err, w) => if err ≠ 0 then some (err, w) else next (w.setOffset m (offset + (w.mal m).opBlockSize))

/-- The loop of `vsfmal_erase`, `vsfmal_read`, `vsfmal_write`, so many times at most. -/
def malLoop (drv : Drv) (m : Obj) (t : Thread) (addr : UInt64) (pos : ℕ) (size : UInt32) :
    ℕ → World → Option (Int32 × World)
  | 0, _ => none
  | fuel + 1, w =>
    if (w.mal m).offset < size then
      malEntry drv m addr pos (malLoop drv m t addr pos size fuel) (w.enter m t)
    else some (0, w)

/-- `mal->drv->block_size`. -/
def blockSizeOf (env : Env) (m : Obj) (addr : UInt64) (size : UInt32) : UInt32 :=
  match m with
  | .real => env.blockSize env.op addr size
  | .mim => env.blockSize env.op (env.addr.toUInt64 + addr) size

/-- `vsfmal_erase`, `vsfmal_read` and `vsfmal_write` on a protothread. -/
def vsfmal (env : Env) (drv : Obj → Drv) (t : Thread) (addr : UInt64) (pos : ℕ) (size : UInt32) (w : World) :
    Option (Int32 × World) :=
  let m := (w.pt t).userData
  let loop := malLoop (drv m) m t addr pos size (size.toNat + 1)
  if (w.pt t).entered then malEntry (drv m) m addr pos loop w
  else loop (w.setOp m (blockSizeOf env m addr size))

/-- The real driver. -/
def realDrv (env : Env) : Drv := fun w addr pos len =>
  let err := env.script w.calls.length
  some (err, { w with calls := w.calls ++ [(⟨addr, pos, len⟩, err)] })

/-- `vsfmim_erase`, `vsfmim_read`, `vsfmim_write`, on the window's own protothread. -/
def mimDrv (env : Env) : Drv := fun w addr pos len =>
  match (w.pt (.of .mim)).userData with
  | .mim =>
    let w := w.setPt (.of .mim) { w.pt (.of .mim) with userData := .real }
    vsfmal env (fun _ => realDrv env) (.of .mim) (env.addr.toUInt64 + addr) pos len w
  | .real => none

/-- `mal->drv` of the two layers. -/
def drvOf (env : Env) : Obj → Drv
  | .mim => mimDrv env
  | .real => realDrv env

/-- The caller's operation on the window. -/
def call (env : Env) (addr : UInt64) (size : UInt32) (w : World) : Option (Int32 × World) :=
  vsfmal env (drvOf env) .caller addr 0 size w

/-- Called again while it returns `VSFERR_NOT_READY`, so many times at most. -/
def finish (env : Env) (addr : UInt64) (size : UInt32) : ℕ → World → Option (Int32 × World)
  | 0, _ => none
  | fuel + 1, w =>
    match call env addr size w with
    | none => none
    | some (err, w) => if err = 1 then finish env addr size fuel w else some (err, w)

/-! ### What an operation owes -/

/-- Blocks that make up `[a + o, a + size)`, in order, each in its place in the buffer. -/
def Tiles (a size : ℕ) : ℕ → List Block → Prop
  | o, [] => o = size
  | o, b :: bs => b.addr.toNat = a + o ∧ b.pos = o ∧ 0 < b.len.toNat ∧ Tiles a size (o + b.len.toNat) bs

/-- The calls that were not suspended. -/
def completed (w : World) : List (Block × Int32) := w.calls.filter fun c => c.2 ≠ 1

/-- The request is served: its blocks in order, all, or those up to the one that failed. -/
def Served (env : Env) (addr : UInt64) (size : UInt32) (err : Int32) (w : World) : Prop :=
  ∃ full, Tiles (env.addr.toNat + addr.toNat) size.toNat 0 full ∧ (completed w).map Prod.fst <+: full ∧
    (∀ c ∈ (completed w).dropLast, c.2 = 0) ∧ ((completed w).getLast?.elim 0 Prod.snd) = err ∧
    (err = 0 → (completed w).map Prod.fst = full)

/-- The request is inside the window. -/
def Inside (env : Env) (addr : UInt64) (size : UInt32) : Prop := addr.toNat + size.toNat ≤ env.size.toNat

/-- What an operation on a window owes its caller. -/
def Right (env : Env) (addr : UInt64) (size : UInt32) (w : World) : Prop :=
  if addr.toNat + size.toNat ≤ env.size.toNat then
    ∃ fuel err w', finish env addr size fuel w = some (err, w') ∧ Served env addr size err w'
  else ∃ fuel err w', finish env addr size fuel w = some (err, w') ∧ err < 0 ∧ w'.calls = []

/-- Before the operation. -/
structure Fresh (w : World) : Prop where
  caller_eq : w.caller = ⟨.mim, false⟩
  calls_nil : w.calls = []

/-! ### The calls of an operation -/

/-- What a loop returns, and the driver's calls. -/
abbrev Trace := Int32 × List (Block × Int32)

/-- The loop of an operation seen from its calls: `body` is an iteration, `k` the number of the next call. -/
def walk (size b : UInt32) (body : UInt32 → ℕ → Option Trace) : ℕ → UInt32 → ℕ → Option Trace
  | 0, _, _ => none
  | fuel + 1, o, k =>
    if o < size then
      match body o k with
      | none => none
      | some (err, l) =>
        if err ≠ 0 then some (err, l)
        else (walk size b body fuel (o + b) (k + l.length)).map fun r => (r.1, l ++ r.2)
    else some (0, [])

section
variable {size b o : UInt32} {k fuel : ℕ} {body : UInt32 → ℕ → Option Trace} {err : Int32} {l : List (Block × Int32)}

theorem walk_end (h : ¬ o < size) : walk size b body (fuel + 1) o k = some (0, []) := by
  rw [walk, if_neg h]

theorem walk_failed (h : o < size) (hb : body o k = some (err, l)) (h0 : err ≠ 0) :
    walk size b body (fuel + 1) o k = some (err, l) := by
  rw [walk, if_pos h, hb]
  exact if_pos h0

theorem walk_goes (body : UInt32 → ℕ → Option Trace) {n : ℕ} (h : o < size) (hb : body o k = some (0, l)) : walk size b body (n + 1) o k =
    (walk size b body n (o + b) (k + l.length)).map fun r => (r.1, l ++ r.2) := by
  rw [walk, if_pos h, hb]
  rfl

/-- A loop that ends is at its end, or its iteration fails, or goes on to a loop that ends. -/
theorem walk_inv {r : Trace} (h : walk size b body (fuel + 1) o k = some r) : (¬ o < size ∧ r = (0, [])) ∨
    ∃ err l, o < size ∧ body o k = some (err, l) ∧ ((err ≠ 0 ∧ r = (err, l)) ∨
      (err = 0 ∧ ∃ r', walk size b body fuel (o + b) (k + l.length) = some r' ∧ r = (r'.1, l ++ r'.2))) := by
  by_cases hlt : o < size
  · right
    cases hb : body o k with
    | none =>
      rw [walk, if_pos hlt, hb] at h
      cases h
    | some r₁ =>
      obtain ⟨err, l⟩ := r₁
      refine ⟨err, l, hlt, rfl, ?_⟩
      by_cases h0 : err = 0
      · subst h0
        rw [walk_goes body hlt hb] at h
        obtain ⟨r', hr', heq⟩ := map_eq_some_iff.mp h
        exact .inr ⟨rfl, r', hr', heq.symm⟩
      · rw [walk_failed hlt hb h0] at h
        exact .inl ⟨h0, (some.inj h).symm⟩
  · rw [walk_end hlt] at h
    exact .inl ⟨hlt, (some.inj h).symm⟩

end

/-- A call of the real driver. -/
def realBody (env : Env) (a : UInt64) (pos : ℕ) (c : UInt32) (i : UInt32) (k : ℕ) : Option Trace :=
  some (env.script k, [(⟨a + i.toUInt64, pos + i.toNat, c⟩, env.script k)])

/-- An operation of the real layer. -/
def realTrace (env : Env) (a : UInt64) (pos : ℕ) (len : UInt32) (k : ℕ) : Option Trace :=
  let c := env.blockSize env.op a len
  walk len c (realBody env a pos c) (len.toNat + 1) 0 k

/-- The window's block size for the request. -/
def mimBlock (env : Env) (addr : UInt64) (size : UInt32) : UInt32 := env.blockSize env.op (env.addr.toUInt64 + addr) size

/-- Where the window block at `o` begins in the real layer. -/
def realAddr (env : Env) (addr : UInt64) (o : ℕ) : UInt64 := env.addr.toUInt64 + (addr + UInt64.ofNat o)

/-- An operation on the window. -/
def mimTrace (env : Env) (addr : UInt64) (size : UInt32) : Option Trace :=
  let b := mimBlock env addr size
  walk size b (fun o k => realTrace env (realAddr env addr o.toNat) o.toNat b k) (size.toNat + 1) 0 0

variable {addr : UInt64} {pos a o s n : ℕ} {size b : UInt32} {env : Env} {w : World}

/-- A call in `w` with this trace, which leaves a world with `P`. -/
def Does (res : Option (Int32 × World)) (w : World) (r : Option Trace) (P : Int32 → World → Prop) : Prop :=
  match r with
  | none => res = none
  | some (err, l) => ∃ w', res = some (err, w') ∧ w'.calls = w.calls ++ l ∧ P err w'

/-- **The loop has the trace of its iterations**; `K` holds all along, `Q` is what the driver leaves. -/
theorem malLoop_does (size : UInt32) (body : UInt32 → ℕ → Option Trace) {drv : Drv} {m : Obj} {t : Thread} {K Q : World → Prop}
    (hoff : ∀ w o, K w → K (w.setOffset m o))
    (hdrv : ∀ w, K w → (w.mal m).opBlockSize = b →
      Does (drv (w.enter m t) (addr + (w.mal m).offset.toUInt64) (pos + (w.mal m).offset.toNat) b) w
        (body (w.mal m).offset w.calls.length)
        (fun _ w' => K w' ∧ Q w' ∧ (w'.mal m).offset = (w.mal m).offset ∧ (w'.mal m).opBlockSize = b)) :
    ∀ (fuel : ℕ) (w : World), K w → (w.mal m).opBlockSize = b →
      Does (malLoop drv m t addr pos size fuel w) w (walk size b body fuel (w.mal m).offset w.calls.length)
        (fun err w' => K w' ∧ (err ≠ 0 → Q w'))
  | 0, _, _, _ => rfl
  | fuel + 1, w, hK, hop => by
    unfold malLoop malEntry walk
    by_cases hmore : (w.mal m).offset < size
    · have hbody := hdrv w hK hop
      simp only [hmore, if_true, World.enter_offset, World.enter_opBlockSize, hop]
      cases hr : body (w.mal m).offset w.calls.length with
      | none =>
        rw [hr] at hbody
        have hbody : drv _ _ _ _ = none := hbody
        simp only [hbody]
        rfl
      | some r =>
        obtain ⟨err, l⟩ := r
        rw [hr] at hbody
        obtain ⟨w', hres, hcalls, hK', hQ', hoffset, hop'⟩ := hbody
        simp only [hres]
        by_cases herr : err = 0
        · -- the block is done, the loop goes on
          subst herr
          have hrest := malLoop_does size body hoff hdrv fuel (w'.setOffset m ((w.mal m).offset + b)) (hoff _ _ hK')
            (by simpa using hop')
          rw [World.setOffset_offset, World.setOffset_calls, hcalls, length_append] at hrest
          simp only [ne_eq, not_true_eq_false, if_false, hop']
          generalize walk size b body fuel ((w.mal m).offset + b) (w.calls.length + l.length) = r at hrest ⊢
          cases r with
          | none => exact hrest
          | some r =>
            obtain ⟨w'', hres', hcalls', hP⟩ := hrest
            refine ⟨w'', hres', ?_, hP⟩
            rw [hcalls', World.setOffset_calls, hcalls, append_assoc]
        · simp only [ne_eq, herr, not_false_eq_true, if_true]
          exact ⟨w', rfl, hcalls, hK', fun _ => hQ'⟩
    · simp only [hmore, if_false]
      exact ⟨w, rfl, (append_nil _).symm, hK, fun h => absurd rfl h⟩

theorem toUInt64_eq (x : UInt32) : x.toUInt64 = UInt64.ofNat x.toNat := by
  apply UInt64.toNat_inj.mp
  have := x.toNat_lt
  rw [UInt32.toNat_toUInt64, UInt64.toNat_ofNat_of_lt' (by rw [UInt64.size]; omega)]

/-- The window's driver, called on a protothread that begins. -/
theorem mimDrv_does (env : Env) (addr : UInt64) (pos : ℕ) (len : UInt32) (hpt : w.pt (.of .mim) = ⟨.mim, false⟩) :
    Does (mimDrv env w addr pos len) w (realTrace env (env.addr.toUInt64 + addr) pos len w.calls.length)
      (fun _ w' => w'.caller = w.caller ∧ (w'.pt (.of .mim)).userData = .real ∧
        (w'.mal .mim).offset = (w.mal .mim).offset ∧ (w'.mal .mim).opBlockSize = (w.mal .mim).opBlockSize) := by
  unfold mimDrv
  simp only [hpt]
  unfold vsfmal
  simp only [World.pt_setPt_self, Bool.false_eq_true, if_false, blockSizeOf, realTrace]
  set c := env.blockSize env.op (env.addr.toUInt64 + addr) len
  set w₁ := (w.setPt (.of .mim) ⟨.real, false⟩).setOp .real c with hw₁
  let K : World → Prop := fun w' => w'.caller = w.caller ∧ (w'.pt (.of .mim)).userData = .real ∧
    (w'.mal .mim).offset = (w.mal .mim).offset ∧ (w'.mal .mim).opBlockSize = (w.mal .mim).opBlockSize
  have hzero : (w₁.mal .real).offset = 0 := (World.setOp_self _ _ _).1
  have hcalls : w₁.calls = w.calls := by simp [hw₁]
  have hK₁ : K w₁ := by
    refine ⟨rfl, by simp [hw₁], ?_, ?_⟩ <;> simp [hw₁, World.setOp, World.setPt]
  have hdrv : ∀ v, K v → (v.mal .real).opBlockSize = c →
      Does (realDrv env (v.enter .real (.of .mim)) (env.addr.toUInt64 + addr + (v.mal .real).offset.toUInt64)
          (pos + (v.mal .real).offset.toNat) c) v
        (realBody env (env.addr.toUInt64 + addr) pos c (v.mal .real).offset v.calls.length)
        (fun _ w' => K w' ∧ True ∧ (w'.mal .real).offset = (v.mal .real).offset ∧ (w'.mal .real).opBlockSize = c) := by
    intro v hv hop
    have hne : (v.setPt (.of .real) ⟨.real, false⟩).pt (.of .mim) = v.pt (.of .mim) :=
      World.pt_setPt_ne v _ (by simp)
    have hkeep : ((v.enter .real (.of .mim)).pt (.of .mim)).userData = (v.pt (.of .mim)).userData := by
      simp only [World.enter, World.pt_setPt_self, hne]
    have hcalls := World.enter_calls v .real (.of .mim)
    refine ⟨{ v.enter .real (.of .mim) with calls := v.calls ++
      [(⟨_, pos + (v.mal .real).offset.toNat, c⟩, env.script v.calls.length)] }, ?_, rfl, ⟨hv.1, ?_, ?_, ?_⟩, trivial, ?_, ?_⟩
    · rw [realDrv, hcalls]
    · exact hkeep.trans hv.2.1
    · exact (World.enter_offset v .real .mim (.of .mim)).trans hv.2.2.1
    · exact (World.enter_opBlockSize v .real .mim (.of .mim)).trans hv.2.2.2
    · exact World.enter_offset v .real .real (.of .mim)
    · exact (World.enter_opBlockSize v .real .real (.of .mim)).trans hop
  have hoff : ∀ v o, K v → K (v.setOffset .real o) := by
    intro v o hv
    refine ⟨hv.1, by simpa using hv.2.1, ?_, ?_⟩
    · simpa [World.setOffset] using hv.2.2.1
    · simpa [World.setOffset] using hv.2.2.2
  have hloop := malLoop_does len (realBody env (env.addr.toUInt64 + addr) pos c) (t := .of .mim) (K := K) (Q := fun _ => True) hoff hdrv
    (len.toNat + 1) w₁ hK₁
    (World.setOp_self _ _ _).2
  rw [hzero, hcalls] at hloop
  generalize walk len c _ (len.toNat + 1) 0 w.calls.length = r at hloop ⊢
  cases r with
  | none => exact hloop
  | some r =>
    obtain ⟨w', hres, hcalls', hK', -⟩ := hloop
    exact ⟨w', hres, by rw [hcalls', hcalls], hK'⟩

/-- **The first call has the trace of the operation**; stopped before the end, it leaves the real layer in the
window's protothread. -/
theorem call_does (env : Env) (addr : UInt64) (size : UInt32) (hw : Fresh w) : Does (call env addr size w) w (mimTrace env addr size)
      (fun err w' => err ≠ 0 → w'.caller = ⟨.mim, true⟩ ∧ (w'.pt (.of .mim)).userData = .real) := by
  have hcaller : w.pt .caller = ⟨.mim, false⟩ := hw.caller_eq
  unfold call vsfmal
  simp only [hcaller, Bool.false_eq_true, if_false, blockSizeOf, drvOf, mimTrace]
  set b := mimBlock env addr size with hb
  rw [show env.blockSize env.op (env.addr.toUInt64 + addr) size = b from rfl]
  set w₁ := w.setOp .mim b
  have hzero : (w₁.mal .mim).offset = 0 := (World.setOp_self _ _ _).1
  have hcalls : w₁.calls = [] := hw.calls_nil
  let K : World → Prop := fun v => v.caller.userData = .mim
  let Q : World → Prop := fun v => v.caller = ⟨.mim, true⟩ ∧ (v.pt (.of .mim)).userData = .real
  have hdrv : ∀ v, K v → (v.mal .mim).opBlockSize = b →
      Does (mimDrv env (v.enter .mim .caller) (addr + (v.mal .mim).offset.toUInt64) (0 + (v.mal .mim).offset.toNat) b) v
        (realTrace env (realAddr env addr (v.mal .mim).offset.toNat) (v.mal .mim).offset.toNat b v.calls.length)
        (fun _ w' => K w' ∧ Q w' ∧ (w'.mal .mim).offset = (v.mal .mim).offset ∧ (w'.mal .mim).opBlockSize = b) := by
    intro v hv hop
    have hpt : (v.enter .mim .caller).pt (.of .mim) = ⟨.mim, false⟩ := by
      unfold World.enter
      rw [World.pt_setPt_ne _ _ (by simp), World.pt_setPt_self]
    have hcaller' : (v.enter .mim .caller).caller = ⟨.mim, true⟩ := by
      show (⟨v.caller.userData, true⟩ : Pt) = _
      rw [hv]
    have hdo := mimDrv_does env (addr + UInt64.ofNat (v.mal .mim).offset.toNat) (v.mal .mim).offset.toNat b hpt
    rw [World.enter_calls] at hdo
    rw [toUInt64_eq (v.mal .mim).offset, zero_add, realAddr]
    generalize realTrace env _ (v.mal .mim).offset.toNat b v.calls.length = r at hdo ⊢
    cases r with
    | none => exact hdo
    | some r =>
      obtain ⟨w', hres, hcalls', h1, h2, h3, h4⟩ := hdo
      refine ⟨w', hres, ?_, ?_, ⟨h1.trans hcaller', h2⟩, h3.trans (World.enter_offset _ _ _ _),
        (h4.trans (World.enter_opBlockSize _ _ _ _)).trans hop⟩
      · rw [hcalls', World.enter_calls]
      · show w'.caller.userData = .mim
        rw [h1, hcaller']
  have hK₁ : K w₁ := congrArg Pt.userData hw.caller_eq
  have hloop := malLoop_does size (fun o k => realTrace env (realAddr env addr o.toNat) o.toNat b k) (t := .caller) (K := K) (Q := Q)
    (fun _ _ hv => hv) hdrv (size.toNat + 1) w₁ hK₁
    (World.setOp_self _ _ _).2
  rw [hzero, hcalls] at hloop
  generalize walk size b _ (size.toNat + 1) 0 0 = r at hloop ⊢
  cases r with
  | none => exact hloop
  | some r =>
    obtain ⟨w', hres, hcalls', -, hQ'⟩ := hloop
    refine ⟨w', hres, ?_, hQ'⟩
    rw [hcalls', hcalls, hw.calls_nil]

/-- **A resumed operation** finds the real layer where the window was. -/
theorem resume_undefined (hcaller : w.caller = ⟨.mim, true⟩)
    (hpt : (w.pt (.of .mim)).userData = .real) : call env addr size w = none := by
  have hc : w.pt .caller = ⟨.mim, true⟩ := hcaller
  unfold call vsfmal
  simp only [hc, if_true, drvOf]
  unfold malEntry mimDrv
  simp only [hpt]

/-! ### The bytes of an operation -/

variable {e : ℕ} {xs ys : List Block}

theorem Tiles.append {e' : ℕ} (h : Tiles a e o xs) (h' : Tiles a e' e ys) : Tiles a e' o (xs ++ ys) := by
  induction xs generalizing o with
  | nil =>
    obtain rfl : o = e := h
    exact h'
  | cons b xs ih => exact ⟨h.1, h.2.1, h.2.2.1, ih h.2.2.2⟩

theorem Tiles.split (h : Tiles a e o (xs ++ ys)) : ∃ m, Tiles a m o xs ∧ Tiles a e m ys := by
  induction xs generalizing o with
  | nil => exact ⟨o, rfl, h⟩
  | cons b xs ih =>
    obtain ⟨m, h1, h2⟩ := ih h.2.2.2
    exact ⟨m, ⟨h.1, h.2.1, h.2.2.1, h1⟩, h2⟩

theorem Tiles.le (h : Tiles a e o xs) : o ≤ e := by
  induction xs generalizing o with
  | nil => exact le_of_eq h
  | cons b xs ih => exact le_trans (Nat.le_add_right _ _) (ih h.2.2.2)

/-- All calls succeed but the last, and its result is the operation's. -/
def Results (r : Trace) : Prop :=
  ∃ done, (∀ c ∈ done, c.2 = 0) ∧ ((r.1 = 0 ∧ r.2 = done) ∨ (r.1 ≠ 0 ∧ ∃ c, r.2 = done ++ [(c, r.1)]))

theorem walk_results {body : UInt32 → ℕ → Option Trace} (hbody : ∀ o k r, body o k = some r → Results r) :
    ∀ (fuel : ℕ) (o : UInt32) (k : ℕ) (r : Trace), walk size b body fuel o k = some r → Results r
  | 0, _, _, _, h => by cases h
  | fuel + 1, o, k, r, h => by
    rcases walk_inv h with ⟨-, rfl⟩ | ⟨err, l, -, hr, ⟨-, rfl⟩ | ⟨h0, r', hr', rfl⟩⟩
    · exact ⟨[], by simp, .inl ⟨rfl, rfl⟩⟩
    · exact hbody o k _ hr
    · obtain ⟨done, hdone, ⟨-, hl⟩ | ⟨hne, -⟩⟩ := hbody o k _ hr
      · obtain ⟨done', hdone', hor⟩ := walk_results hbody fuel _ _ _ hr'
        have hl : l = done := hl
        refine ⟨done ++ done', fun c hc => (mem_append.mp hc).elim (hdone c) (hdone' c), ?_⟩
        rcases hor with ⟨h1, h2⟩ | ⟨h1, c, h2⟩
        · exact .inl ⟨h1, by rw [hl, h2]⟩
        · exact .inr ⟨h1, c, by rw [hl, h2, append_assoc]⟩
      · exact absurd h0 hne

theorem realTrace_results {c : UInt64} {len : UInt32} {k : ℕ} {r : Trace} (h : realTrace env c pos len k = some r) :
    Results r := by
  refine walk_results (fun i k r hr => ?_) _ _ _ r h
  cases hr
  by_cases h0 : env.script k = 0
  · exact ⟨[_], by simp [h0], .inl ⟨h0, rfl⟩⟩
  · exact ⟨[], by simp, .inr ⟨h0, _, rfl⟩⟩

/-- **What a call owes**, of the first call's trace. -/
theorem served_tiles {r : Trace} (hin : Inside env addr size) (hr : Results r) (h1 : r.1 ≠ 1) (hcalls : w.calls = r.2) :
    Served env addr size r.1 w ↔ ∃ e ≤ size.toNat, Tiles (env.addr.toNat + addr.toNat) e 0 (r.2.map Prod.fst) ∧
      (r.1 = 0 → e = size.toNat) := by
  obtain ⟨done, hdone, hor⟩ := hr
  have hall : completed w = r.2 := by
    rw [completed, hcalls, filter_eq_self]
    intro c hc
    have hc : c.2 = 0 ∨ c.2 = r.1 := by
      rcases hor with ⟨-, h2⟩ | ⟨-, d, h2⟩ <;> rw [h2] at hc
      · exact .inl (hdone c hc)
      · rcases mem_append.mp hc with hc | hc
        · exact .inl (hdone c hc)
        · exact .inr (by rw [mem_singleton.mp hc])
    apply decide_eq_true
    rcases hc with hc | hc <;> rw [hc]
    · decide
    · exact h1
  have hlast : (∀ c ∈ r.2.dropLast, c.2 = 0) ∧ r.2.getLast?.elim 0 Prod.snd = r.1 := by
    rcases hor with ⟨h0, h2⟩ | ⟨-, d, h2⟩ <;> rw [h2]
    · refine ⟨fun c hc => hdone c (dropLast_subset _ hc), ?_⟩
      cases hd : done.getLast? with
      | none => exact h0.symm
      | some c => exact (hdone c (mem_of_getLast? hd)).trans h0.symm
    · rw [dropLast_concat, getLast?_concat]
      exact ⟨hdone, rfl⟩
  constructor
  · rintro ⟨full, htiles, hpre, -, -, hwhole⟩
    rw [hall] at hpre hwhole
    obtain ⟨rest, rfl⟩ := hpre
    obtain ⟨e, he, hrest⟩ := htiles.split
    refine ⟨e, hrest.le, he, fun h0 => ?_⟩
    obtain rfl : rest = [] := append_right_eq_self.mp (hwhole h0).symm
    exact hrest
  · rintro ⟨e, hle, htiles, hend⟩
    have hlen : (UInt32.ofNat (size.toNat - e)).toNat = size.toNat - e :=
      UInt32.toNat_ofNat_of_lt' (lt_of_le_of_lt (Nat.sub_le _ _) size.toNat_lt)
    -- what is left when a block fails could be one more block
    have hfull : ∃ rest, Tiles (env.addr.toNat + addr.toNat) size.toNat e rest ∧ (e = size.toNat → rest = []) := by
      rcases Nat.eq_or_lt_of_le hle with he | he
      · exact ⟨[], he, fun _ => rfl⟩
      · refine ⟨[⟨UInt64.ofNat (env.addr.toNat + addr.toNat + e), e, UInt32.ofNat (size.toNat - e)⟩],
          ⟨UInt64.toNat_ofNat_of_lt' ?_, rfl, ?_, ?_⟩, fun h => absurd h (ne_of_lt he)⟩
        · have hwin := env.size.toNat_lt
          have hbase := env.addr.toNat_lt
          unfold Inside at hin
          rw [UInt64.size]
          omega
        · rw [hlen]
          omega
        · show e + (UInt32.ofNat (size.toNat - e)).toNat = size.toNat
          rw [hlen]
          omega
    obtain ⟨rest, hrest, hnil⟩ := hfull
    refine ⟨r.2.map Prod.fst ++ rest, htiles.append hrest, ?_, ?_, ?_, ?_⟩ <;> rw [hall]
    · exact prefix_append _ _
    · exact hlast.1
    · exact hlast.2
    · intro h0
      rw [hnil (hend h0), append_nil]

/-! ### When the blocks fit -/

/-- The real layer's block size in the window block at `o`. -/
def realBlock (env : Env) (addr : UInt64) (size : UInt32) (o : ℕ) : UInt32 :=
  env.blockSize env.op (realAddr env addr o) (mimBlock env addr size)

/-- With window blocks of `B` bytes and the real layer's of `C o`, the real driver is called at `i` of the window block
at `o`, for a block inside the request. -/
structure Asked (B : UInt32) (C : ℕ → UInt32) (size : UInt32) (o i : ℕ) : Prop where
  inside : i < B.toNat
  some : 0 < (C o).toNat
  fits : o + i + (C o).toNat ≤ size.toNat

/-- From call `k` on, at `i` of the window block at `o`: every block asked for fits, and is not suspended, until
one fails or the request is at its end. -/
inductive Walks (script : ℕ → Int32) (B : UInt32) (C : ℕ → UInt32) (size : UInt32) : ℕ → ℕ → ℕ → Prop
  | failed {o i k : ℕ} (h : Asked B C size o i) (h0 : script k ≠ 0) (h1 : script k ≠ 1) : Walks script B C size o i k
  | block {o i k : ℕ} (h : Asked B C size o i) (h0 : script k = 0) (rest : Walks script B C size o (i + (C o).toNat) (k + 1)) :
      Walks script B C size o i k
  | next {o i k : ℕ} (h : i = B.toNat) (hmore : o + i < size.toNat) (rest : Walks script B C size (o + i) 0 k) :
      Walks script B C size o i k
  | done {o i k : ℕ} (h : i = B.toNat) (hend : o + i = size.toNat) : Walks script B C size o i k

/-- The request is empty, or its blocks fit from the first on. -/
def Steady (env : Env) (addr : UInt64) (size : UInt32) : Prop :=
  size = 0 ∨ (0 < (mimBlock env addr size).toNat ∧
    Walks env.script (mimBlock env addr size) (realBlock env addr size) size 0 0 0)

/-- The loop in a window block, from `i` on. -/
abbrev inner (env : Env) (addr : UInt64) (B c : UInt32) (o : ℕ) : ℕ → UInt32 → ℕ → Option Trace :=
  walk B c (realBody env (realAddr env addr o) o c)

/-- An iteration on the window. -/
abbrev mimBody (env : Env) (addr : UInt64) (B : UInt32) (C : ℕ → UInt32) (o : UInt32) (k : ℕ) : Option Trace :=
  inner env addr B (C o.toNat) o.toNat (B.toNat + 1) 0 k

variable {B : UInt32} {C : ℕ → UInt32}

theorem realAddr_toNat (hin : Inside env addr size) (ho : o + n ≤ size.toNat) {i : UInt32} (hi : i.toNat ≤ n) :
    (realAddr env addr o + i.toUInt64).toNat = env.addr.toNat + addr.toNat + (o + i.toNat) := by
  have hwin := env.size.toNat_lt
  have hbase := env.addr.toNat_lt
  unfold Inside at hin
  have hofs : (UInt64.ofNat o).toNat = o := UInt64.toNat_ofNat_of_lt' (by rw [UInt64.size]; omega)
  rw [realAddr, UInt64.toNat_add, UInt64.toNat_add, UInt64.toNat_add, hofs, UInt32.toNat_toUInt64, UInt32.toNat_toUInt64,
    Nat.mod_eq_of_lt (a := addr.toNat + o) (by omega), Nat.mod_eq_of_lt (a := env.addr.toNat + _) (by omega),
    Nat.mod_eq_of_lt (by omega)]
  omega

theorem add_toNat (size : UInt32) {x y : UInt32} (h : x.toNat + y.toNat ≤ size.toNat) : (x + y).toNat = x.toNat + y.toNat := by
  have := size.toNat_lt
  rw [UInt32.toNat_add, Nat.mod_eq_of_lt (by omega)]

section
variable {c i : UInt32} {k fuel : ℕ}

theorem inner_goes (h : i < B) (h0 : env.script k = 0) : inner env addr B c o (fuel + 1) i k =
    (inner env addr B c o fuel (i + c) (k + 1)).map fun r =>
      (r.1, (⟨realAddr env addr o + i.toUInt64, o + i.toNat, c⟩, env.script k) :: r.2) :=
  walk_goes _ (l := [_]) h (congrArg (fun err => some (err, _)) h0)

theorem inner_failed (h : i < B) (h0 : env.script k ≠ 0) : inner env addr B c o (fuel + 1) i k =
    some (env.script k, [(⟨realAddr env addr o + i.toUInt64, o + i.toNat, c⟩, env.script k)]) :=
  walk_failed h rfl h0

theorem inner_end (h : i.toNat = B.toNat) (hfuel : 0 < fuel) : inner env addr B c o fuel i k = some (0, []) := by
  obtain ⟨fuel, rfl⟩ := Nat.exists_eq_succ_of_ne_zero hfuel.ne'
  refine walk_end ?_
  rw [UInt32.lt_iff_toNat_lt]
  omega

theorem Asked.starts (h : Asked B C size o n) (hin : Inside env addr size) (hi : i.toNat = n) :
    i < B ∧ (realAddr env addr o + i.toUInt64).toNat = env.addr.toNat + addr.toNat + (o + n) := by
  have hfits := h.fits
  rw [UInt32.lt_iff_toNat_lt, hi, realAddr_toNat hin (n := n) (by omega) (le_of_eq hi), hi]
  exact ⟨h.inside, rfl⟩

end

/-- **A window block whose blocks fit**: it fails on the way, or ends where it should. -/
theorem Walks.real (hin : Inside env addr size) {o i k : ℕ} (h : Walks env.script B C size o i k) :
    ∀ {fuel : ℕ} {i' : UInt32}, i'.toNat = i → B.toNat < i + fuel →
    ∃ r : Trace, inner env addr B (C o) o fuel i' k = some r ∧ r.1 ≠ 1 ∧
      ((r.1 ≠ 0 ∧ ∃ e ≤ size.toNat, Tiles (env.addr.toNat + addr.toNat) e (o + i) (r.2.map Prod.fst)) ∨
        (r.1 = 0 ∧ Tiles (env.addr.toNat + addr.toNat) (o + B.toNat) (o + i) (r.2.map Prod.fst) ∧
          (o + B.toNat = size.toNat ∨ (o + B.toNat < size.toNat ∧
            Walks env.script B C size (o + B.toNat) 0 (k + r.2.length))))) := by
  induction h with
  | @failed o i k h h0 h1 =>
    intro fuel i' hi hfuel
    obtain ⟨fuel, rfl⟩ := Nat.exists_eq_succ_of_ne_zero (show fuel ≠ 0 by have := h.inside; omega)
    obtain ⟨hlt, hfirst⟩ := h.starts hin hi
    exact ⟨_, inner_failed hlt h0, h1, .inl ⟨h0, _, h.fits, hfirst, by rw [hi], h.some, rfl⟩⟩
  | @block o i k h h0 rest ih =>
    intro fuel i' hi hfuel
    obtain ⟨fuel, rfl⟩ := Nat.exists_eq_succ_of_ne_zero (show fuel ≠ 0 by have := h.inside; omega)
    obtain ⟨hlt, hfirst⟩ := h.starts hin hi
    have hfits := h.fits
    have hsome := h.some
    have hadd : (i' + C o).toNat = i + (C o).toNat := by
      rw [add_toNat size (by omega), hi]
    obtain ⟨r, hr, hne, hor⟩ := ih hadd (show B.toNat < i + (C o).toNat + fuel by omega)
    refine ⟨_, (inner_goes hlt h0).trans (congrArg (Option.map _) hr), hne, ?_⟩
    rcases hor with ⟨he, e, hle, ht⟩ | ⟨he, ht, hend⟩
    · rw [← add_assoc] at ht
      exact .inl ⟨he, e, hle, hfirst, congrArg (o + ·) hi, hsome, ht⟩
    · rw [← add_assoc] at ht
      refine .inr ⟨he, ⟨hfirst, congrArg (o + ·) hi, hsome, ht⟩, ?_⟩
      rw [length_cons, add_comm r.2.length, ← add_assoc]
      exact hend
  | @next o i k h hmore rest =>
    intro fuel i' hi hfuel
    refine ⟨_, inner_end (hi.trans h) (by omega), by decide, .inr ⟨rfl, ?_, .inr ⟨h ▸ hmore, ?_⟩⟩⟩
    · rw [← h]
      rfl
    · rw [← h]
      exact rest
  | @done o i k h hend =>
    intro fuel i' hi hfuel
    refine ⟨_, inner_end (hi.trans h) (by omega), by decide, .inr ⟨rfl, ?_, .inl (h ▸ hend)⟩⟩
    rw [← h]
    rfl

/-- **A request whose blocks fit.** -/
theorem Walks.mim (hin : Inside env addr size) (hpos : 0 < B.toNat) :
    ∀ (fuel : ℕ) {o : UInt32} {k : ℕ}, Walks env.script B C size o.toNat 0 k → o < size → size.toNat < o.toNat + fuel →
    ∃ r : Trace, walk size B (mimBody env addr B C) fuel o k = some r ∧ r.1 ≠ 1 ∧
      ∃ e ≤ size.toNat, Tiles (env.addr.toNat + addr.toNat) e o.toNat (r.2.map Prod.fst) ∧ (r.1 = 0 → e = size.toNat)
  | 0, o, k, _, hlt, hfuel => by
    rw [UInt32.lt_iff_toNat_lt] at hlt
    omega
  | fuel + 1, o, k, h, hlt, hfuel => by
    obtain ⟨⟨err, l⟩, hr, hne, hor⟩ := h.real hin UInt32.toNat_zero (show B.toNat < 0 + (B.toNat + 1) by omega)
    rcases hor with ⟨h0, e, hle, ht⟩ | ⟨h0, ht, hend⟩
    · exact ⟨_, walk_failed hlt hr h0, hne, e, hle, ht, fun h => absurd h h0⟩
    · obtain rfl : err = 0 := h0
      have hadd : (o + B).toNat = o.toNat + B.toNat := add_toNat size (by omega)
      rcases hend with hend | ⟨hmore, hrest⟩
      · have hlast : walk size B (mimBody env addr B C) fuel (o + B) (k + l.length) = some (0, []) := by
          obtain ⟨fuel, rfl⟩ := Nat.exists_eq_succ_of_ne_zero (show fuel ≠ 0 by
            rw [UInt32.lt_iff_toNat_lt] at hlt
            omega)
          refine walk_end ?_
          rw [UInt32.lt_iff_toNat_lt]
          omega
        have hwalk := walk_goes (mimBody env addr B C) (n := fuel) (b := B) hlt hr
        rw [hlast] at hwalk
        refine ⟨_, hwalk, hne, size.toNat, le_refl _, ?_, fun _ => rfl⟩
        show Tiles _ _ _ ((l ++ []).map Prod.fst)
        rw [append_nil, ← hend]
        exact ht
      · rw [← hadd] at hrest ht
        obtain ⟨r, hr', hne', e, hle, ht', hfin⟩ := Walks.mim hin hpos fuel hrest
          (by rw [UInt32.lt_iff_toNat_lt]; omega) (by omega)
        have hwalk := walk_goes (mimBody env addr B C) (n := fuel) (b := B) hlt hr
        rw [hr'] at hwalk
        refine ⟨_, hwalk, hne', e, hle, ?_, hfin⟩
        rw [map_append]
        exact ht.append ht'

/-- **A window block that was right**: its blocks fit, if what follows it fits. -/
theorem walks_of_real (size : UInt32) {o : ℕ} : ∀ (fuel : ℕ) {i : UInt32} {k e : ℕ} {err : Int32} {l : List (Block × Int32)},
    inner env addr B (C o) o fuel i k = some (err, l) → err ≠ 1 →
    Tiles a e (o + i.toNat) (l.map Prod.fst) → e ≤ size.toNat →
    (err ≠ 0 → Walks env.script B C size o i.toNat k) ∧ (err = 0 → o + B.toNat ≤ e ∧
      (e = o + B.toNat →
        e = size.toNat ∨ (e < size.toNat ∧ Walks env.script B C size e 0 (k + l.length)) → Walks env.script B C size o i.toNat k))
  | 0, _, _, _, _, _, h, _, _, _ => by cases h
  | fuel + 1, i, k, e, err, l, h, hne, ht, hle => by
    rcases walk_inv h with ⟨hlt, heq⟩ | ⟨_, _, hlt, hb, hor⟩
    · obtain ⟨rfl, rfl⟩ := Prod.mk.inj heq
      rw [UInt32.lt_iff_toNat_lt] at hlt
      obtain rfl : o + i.toNat = e := ht
      refine ⟨fun h => absurd rfl h, fun _ => ⟨by omega, fun hend hrest => ?_⟩⟩
      have hi : i.toNat = B.toNat := by omega
      rcases hrest with hrest | ⟨hmore, hrest⟩
      · exact .done hi hrest
      · exact .next hi hmore hrest
    · have hlt := UInt32.lt_iff_toNat_lt.mp hlt
      cases hb
      rcases hor with ⟨h0, heq⟩ | ⟨h0, ⟨err', l'⟩, hr, heq⟩ <;> obtain ⟨rfl, rfl⟩ := Prod.mk.inj heq
      · obtain ⟨-, -, hsome, hend⟩ := ht
        have hend : o + i.toNat + (C o).toNat = e := hend
        exact ⟨fun _ => .failed ⟨hlt, hsome, by omega⟩ h0 hne, fun h => absurd h h0⟩
      · obtain ⟨-, -, hsome, ht'⟩ := ht
        have hsome : 0 < (C o).toNat := hsome
        have ht' : Tiles a e (o + i.toNat + (C o).toNat) (l'.map Prod.fst) := ht'
        have hfits := ht'.le
        have hadd : (i + C o).toNat = i.toNat + (C o).toNat := add_toNat size (by omega)
        rw [add_assoc, ← hadd] at ht'
        have hasked : Asked B C size o i.toNat := ⟨hlt, hsome, by omega⟩
        obtain ⟨h1, h2⟩ := walks_of_real size fuel hr hne ht' hle
        rw [hadd] at h1 h2
        refine ⟨fun he => .block hasked h0 (h1 he), fun he => ⟨(h2 he).1, fun hend hrest => ?_⟩⟩
        refine .block hasked h0 ((h2 he).2 hend ?_)
        rwa [length_append, length_singleton, ← add_assoc] at hrest

/-- An iteration on a window whose blocks are not empty begins with its own first block. -/
theorem mim_first (hpos : 0 < B.toNat) {fuel : ℕ} {o : UInt32} {k : ℕ} {r : Trace}
    (hlt : o < size) (h : walk size B (mimBody env addr B C) (fuel + 1) o k = some r) :
    ∃ c l, r.2 = c :: l ∧ c.1.pos = o.toNat := by
  obtain ⟨err, l', -, hb, hor⟩ := (walk_inv h).resolve_left fun hn => hn.1 hlt
  obtain ⟨_, _, -, hb', hor'⟩ := (walk_inv hb).resolve_left fun hn => hn.1 (UInt32.lt_iff_toNat_lt.mpr hpos)
  have hfirst : ∃ c l, l' = c :: l ∧ c.1.pos = o.toNat := by
    cases hb'
    rcases hor' with ⟨-, heq⟩ | ⟨-, r', -, heq⟩ <;> obtain ⟨-, rfl⟩ := Prod.mk.inj heq
    · exact ⟨_, _, rfl, add_zero _⟩
    · exact ⟨_, _, rfl, add_zero _⟩
  obtain ⟨c, l, rfl, hc⟩ := hfirst
  rcases hor with ⟨-, rfl⟩ | ⟨-, r₂, -, rfl⟩
  · exact ⟨c, l, rfl, hc⟩
  · exact ⟨c, l ++ r₂.2, rfl, hc⟩

/-- **A request that was right**: its blocks fit. -/
theorem walks_of_mim (hpos : 0 < B.toNat) : ∀ (fuel : ℕ) {o : UInt32} {k e : ℕ} {r : Trace},
    walk size B (mimBody env addr B C) fuel o k = some r → r.1 ≠ 1 → o < size →
    Tiles a e o.toNat (r.2.map Prod.fst) → e ≤ size.toNat → (r.1 = 0 → e = size.toNat) → Walks env.script B C size o.toNat 0 k
  | 0, _, _, _, _, h, _, _, _, _, _ => by cases h
  | fuel + 1, o, k, e, r, h, hne, hlt, ht, hle, hfin => by
    obtain ⟨err, l, -, hb, ⟨h0, rfl⟩ | ⟨rfl, r₂, h₂, rfl⟩⟩ := (walk_inv h).resolve_left fun hn => hn.1 hlt
    · exact (walks_of_real size (i := 0) _ hb hne ht hle).1 h0
    · rw [map_append] at ht
      obtain ⟨m, ht₁, ht₂⟩ := ht.split
      have hm := ht₂.le
      obtain ⟨hmin, hgo⟩ := (walks_of_real size (i := 0) _ hb (by decide) ht₁ (by omega)).2 rfl
      have hadd : (o + B).toNat = o.toNat + B.toNat := add_toNat size (by omega)
      cases fuel with
      | zero => cases h₂
      | succ fuel =>
        by_cases hmore : o + B < size
        · -- the next window block begins where this one ended
          obtain ⟨c, l', hl', hc⟩ := mim_first hpos hmore h₂
          rw [hl'] at ht₂
          have hm' : m = o.toNat + B.toNat := by
            rw [← hadd, ← hc]
            exact ht₂.2.1.symm
          rw [← hl', hm', ← hadd] at ht₂
          have hrest := walks_of_mim hpos (fuel + 1) h₂ hne hmore ht₂ hle hfin
          rw [UInt32.lt_iff_toNat_lt, hadd] at hmore
          rw [hadd] at hrest
          exact hgo hm' (.inr ⟨hm'.symm ▸ hmore, hm'.symm ▸ hrest⟩)
        · rw [walk_end hmore] at h₂
          obtain rfl := some.inj h₂
          obtain rfl : m = e := ht₂
          rw [UInt32.lt_iff_toNat_lt, hadd] at hmore
          have he : m = size.toNat := hfin rfl
          exact hgo (by omega) (.inl he)

theorem mim_stuck (hzero : B.toNat = 0) : ∀ (fuel : ℕ) {o : UInt32} {k : ℕ}, o < size →
    walk size B (mimBody env addr B C) fuel o k = none
  | 0, _, _, _ => rfl
  | fuel + 1, o, k, hlt => by
    have hnot : ¬ (0 : UInt32) < B := by
      rw [UInt32.lt_iff_toNat_lt, hzero]
      exact Nat.lt_irrefl 0
    have hadd : o + B = o := by
      rw [show B = 0 from UInt32.toNat_inj.mp hzero, add_zero]
    have hbody : mimBody env addr B C o k = some (0, []) := walk_end hnot
    rw [walk_goes _ hlt hbody, hadd, mim_stuck hzero fuel hlt]
    rfl

/-- **What the first call owes, it gives exactly when** the blocks fit. -/
theorem mimTrace_iff (hin : Inside env addr size) :
    (∃ r : Trace, mimTrace env addr size = some r ∧ r.1 ≠ 1 ∧ ∃ e ≤ size.toNat,
      Tiles (env.addr.toNat + addr.toNat) e 0 (r.2.map Prod.fst) ∧ (r.1 = 0 → e = size.toNat)) ↔ Steady env addr size := by
  have htrace : mimTrace env addr size =
      walk size (mimBlock env addr size) (mimBody env addr (mimBlock env addr size) (realBlock env addr size)) (size.toNat + 1) 0 0 := rfl
  rw [htrace]
  by_cases hlt : (0 : UInt32) < size
  · have hne : size ≠ 0 := fun h => by
      rw [h] at hlt
      exact absurd hlt (by decide)
    constructor
    · rintro ⟨r, hr, h1, e, hle, ht, hend⟩
      have hpos : 0 < (mimBlock env addr size).toNat := by
        by_contra h0
        rw [mim_stuck (by omega) _ hlt] at hr
        cases hr
      exact .inr ⟨hpos, walks_of_mim hpos _ hr h1 hlt ht hle hend⟩
    · rintro (h0 | ⟨hpos, hwalks⟩)
      · exact absurd h0 hne
      · obtain ⟨r, hr, h⟩ := Walks.mim hin hpos (size.toNat + 1) (o := 0) hwalks hlt (by simp)
        exact ⟨r, hr, h⟩
  · have h0 : size = 0 := by
      rw [UInt32.lt_iff_toNat_lt] at hlt
      exact UInt32.toNat_inj.mp (by simpa using hlt)
    refine iff_of_true ⟨(0, []), walk_end hlt, by decide, 0, Nat.zero_le _, rfl, fun _ => ?_⟩ (.inl h0)
    rw [h0]
    rfl

/-- **What a window owes, it gives exactly when** the request is inside and its blocks fit. -/
theorem right_iff {env : Env} {addr : UInt64} {size : UInt32} {w : World} (hw : Fresh w) :
    Right env addr size w ↔ Inside env addr size ∧ Steady env addr size := by
  have hdo := call_does env addr size hw
  -- the first call decides: it ends the operation, or there is no second one
  have hfinish : ∀ fuel err v, finish env addr size fuel w = some (err, v) →
      ∃ r : Trace, mimTrace env addr size = some r ∧ r.1 ≠ 1 ∧ err = r.1 ∧ v.calls = r.2 := by
    intro fuel err v hv
    cases fuel with
    | zero => cases hv
    | succ fuel =>
      cases hr : mimTrace env addr size with
      | none =>
        rw [hr] at hdo
        have hdo : call env addr size w = none := hdo
        simp [finish, hdo] at hv
      | some r =>
        rw [hr] at hdo
        obtain ⟨w', hres, hcalls, hstop⟩ := hdo
        rw [hw.calls_nil, nil_append] at hcalls
        rw [finish, hres] at hv
        by_cases hone : r.1 = 1
        · obtain ⟨h1, h2⟩ := hstop (by rw [hone]; decide)
          cases fuel with
          | zero => simp [hone, finish] at hv
          | succ fuel => simp [hone, finish, resume_undefined h1 h2] at hv
        · simp only [hone, if_false, Option.some.injEq, Prod.mk.injEq] at hv
          exact ⟨r, rfl, hone, hv.1.symm, hv.2 ▸ hcalls⟩
  have hresults : ∀ r, mimTrace env addr size = some r → Results r := fun r hr =>
    walk_results (fun _ _ _ h => realTrace_results h) _ _ _ r hr
  by_cases hin : Inside env addr size
  · have hif : addr.toNat + size.toNat ≤ env.size.toNat := hin
    rw [Right, if_pos hif, ← mimTrace_iff hin, and_iff_right hin]
    constructor
    · rintro ⟨fuel, err, v, hv, hserved⟩
      obtain ⟨r, hr, hne, rfl, hcalls⟩ := hfinish _ _ _ hv
      exact ⟨r, hr, hne, (served_tiles hin (hresults r hr) hne hcalls).mp hserved⟩
    · rintro ⟨r, hr, hne, htiles⟩
      rw [hr] at hdo
      obtain ⟨w', hres, hcalls, -⟩ := hdo
      rw [hw.calls_nil, nil_append] at hcalls
      exact ⟨1, r.1, w', by simp [finish, hres, hne], (served_tiles hin (hresults r hr) hne hcalls).mpr htiles⟩
  · have hif : ¬ addr.toNat + size.toNat ≤ env.size.toNat := hin
    rw [Right, if_neg hif]
    refine iff_of_false ?_ fun h => hin h.1
    rintro ⟨fuel, err, v, hv, hneg, hnone⟩
    obtain ⟨r, hr, -, rfl, hcalls⟩ := hfinish _ _ _ hv
    obtain ⟨done, -, ⟨h0, -⟩ | ⟨-, c, hc⟩⟩ := hresults r hr
    · rw [h0] at hneg
      exact absurd hneg (by decide)
    · rw [hnone, hc] at hcalls
      simp at hcalls

/-- A window of eight bytes at address 16, on a layer with blocks of four bytes. -/
def window (script : ℕ → Int32) : Env where
  op := .read
  addr := 16
  size := 8
  blockSize _ _ _ := 4
  script := script

/-- A caller that begins. -/
def beginning : World where
  caller := ⟨.mim, false⟩
  mal _ := ⟨⟨.real, false⟩, 0, 0⟩
  calls := []

theorem right_iff_window : Right (window fun _ => 0) 0 8 beginning := by
  have hasked : ∀ o, o + 4 ≤ 8 → Asked 4 (fun _ => 4) 8 o 0 := fun o ho =>
    ⟨by decide, show 0 < (4 : UInt32).toNat by decide, ho⟩
  have hsecond : Walks (fun _ => 0) 4 (fun _ => 4) 8 4 0 1 :=
    .block (hasked 4 (by decide)) rfl (.done rfl rfl)
  have hfirst : Walks (fun _ => 0) 4 (fun _ => 4) 8 0 0 0 :=
    .block (hasked 0 (by decide)) rfl (.next rfl (by decide) hsecond)
  exact (right_iff ⟨rfl, rfl⟩).mpr ⟨by unfold Inside; decide, .inr ⟨by decide, hfirst⟩⟩

/-- The driver suspends once, in the first block; the operation is lost. -/
theorem window_breaks : ¬ ∀ env addr size w, Inside env addr size → Fresh w → Right env addr size w := by
  intro h
  have hin : Inside (window fun c => if c = 0 then 1 else 0) 0 4 := by
    unfold Inside
    decide
  have hright := h _ 0 4 beginning hin ⟨rfl, rfl⟩
  obtain ⟨w', hfirst, hnext⟩ : ∃ w', call (window fun c => if c = 0 then 1 else 0) 0 4 beginning = some (1, w') ∧
      call (window fun c => if c = 0 then 1 else 0) 0 4 w' = none := ⟨_, rfl, rfl⟩
  rw [Right, if_pos (by decide)] at hright
  obtain ⟨fuel, err, v, hv, -⟩ := hright
  cases fuel with
  | zero => simp [finish] at hv
  | succ fuel =>
    cases fuel with
    | zero => simp [finish, hfirst] at hv
    | succ fuel => simp [finish, hfirst, hnext] at hv

end Mim
end Vsf
