/-
# The timers of the DHCP client

`vsfip_dhcpc_evt_handler` remembers one single-shot timer in `to`. `vsftimer_init_handler` releases
it when it fires, and the handler when a request goes out and when the address is there. Once there
was an offer, the next exchange starts with the request, and releases the timer that has fired
already. A timer is the number of its `vsftimer_create`.
-/
import Mathlib
import Vsf.Lib.System

namespace Vsf

open List

/-! ### Single-shot timers -/

/-- The timers created, from 0; those that run, those released, and other calls of `vsftimer_free`. -/
structure Shots where
  created : ℕ
  running : List ℕ
  released : List ℕ
  strays : List (Option ℕ)

namespace Shots

variable (w : Shots)

/-- `vsftimer_create`, for a single shot; whether there was memory for it. -/
def create (mem : Bool) : Option ℕ × Shots :=
  if mem then (some w.created, { w with created := w.created + 1, running := w.created :: w.running }) else (none, w)

/-- `vsftimer_free`. -/
def free (t : Option ℕ) : Shots :=
  match t with
  | none => { w with strays := w.strays ++ [none] }
  | some k =>
    if k ∈ w.running then { w with running := w.running.erase k, released := w.released ++ [k] }
    else { w with released := w.released ++ [k], strays := w.strays ++ [some k] }

/-- The shot of a timer: `vsftimer_init_handler` releases it. -/
def fire (k : ℕ) : Shots := { w with running := w.running.erase k, released := w.released ++ [k] }

/-- Every timer runs or was released, once, and nothing else was. -/
structure Sound : Prop where
  once : ∀ k, w.running.count k + w.released.count k = if k < w.created then 1 else 0
  strays : w.strays = []

variable {w}

theorem Sound.create (h : w.Sound) (mem : Bool) : (w.create mem).2.Sound := by
  cases mem with
  | false => exact h
  | true =>
    refine ⟨fun k => ?_, h.strays⟩
    have hk := h.once k
    show (w.created :: w.running).count k + w.released.count k = if k < w.created + 1 then 1 else 0
    rw [List.count_cons]
    by_cases he : w.created = k
    · subst he
      simp only [lt_irrefl, if_false, beq_self_eq_true, if_true] at hk ⊢
      rw [if_pos (Nat.lt_succ_self _)]
      omega
    · rw [if_neg (by simpa using he)]
      split_ifs at hk ⊢ <;> omega

/-- A timer that runs is released once more: by its shot, or by `vsftimer_free`. -/
theorem Sound.fire (h : w.Sound) {k : ℕ} (hk : k ∈ w.running) : (w.fire k).Sound := by
  refine ⟨fun j => ?_, h.strays⟩
  have hj := h.once j
  have hpos := count_pos_iff.mpr hk
  show (w.running.erase k).count j + (w.released ++ [k]).count j = if j < w.created then 1 else 0
  rw [← hj]
  rw [count_append, count_singleton, count_erase]
  by_cases he : k = j
  · subst he
    simp only [beq_self_eq_true, if_true]
    omega
  · have hne : (k == j) = false := beq_false_of_ne he
    simp only [hne, Bool.false_eq_true, if_false]
    omega

theorem free_running {k : ℕ} (hk : k ∈ w.running) : w.free (some k) = w.fire k := if_pos hk

theorem free_strays {t : Option ℕ} (h : ∀ k, t = some k → k ∉ w.running) : (w.free t).strays = w.strays ++ [t] := by
  cases t with
  | none => rfl
  | some k =>
    unfold free
    dsimp only
    rw [if_neg (h k rfl)]

end Shots

/-! ### The client -/

/-- `struct vsfip_dhcpc_t` as far as the handler decides by it; `timer` is `to`. -/
structure Dhcpc where
  started : Bool
  so : Bool
  ipaddrSize : ℕ
  ready : Bool
  retry : UInt32
  timer : Option ℕ
  shots : Shots

/-- What a passage gets: a socket, port 68, a buffer, a timer's memory, or not. -/
structure Res where
  socket : Bool
  bind : Bool
  buf : Bool
  timer : Bool

namespace Dhcpc

variable (c : Dhcpc)

/-- `dhcpc->to = vsftimer_create(..)`. -/
def arm (r : Res) : Dhcpc := { c with timer := (c.shots.create r.timer).1, shots := (c.shots.create r.timer).2 }

/-- `vsftimer_free(dhcpc->to)`. -/
def disarm : Dhcpc := { c with shots := c.shots.free c.timer }

/-- From `dhcp_request` on; `false` goes to `cleanup`. -/
def request (r : Res) : Dhcpc × Bool :=
  let c := c.disarm
  if r.buf then (c.arm r, true) else (c, false)

/-- From `retry` on; `false` goes to `cleanup`. -/
def attempt (r : Res) : Dhcpc × Bool :=
  let c := { c with so := r.socket }
  if ¬ r.socket ∨ ¬ r.bind then (c, false)
  else if c.ipaddrSize ≠ 0 then c.request r
  else if r.buf then (c.arm r, true)
  else (c, false)

theorem attempt_retry (r : Res) : (c.attempt r).1.retry = c.retry := by
  unfold attempt request
  dsimp only
  split_ifs <;> rfl

theorem measure_lt {retry : UInt32} (h : retry + 1 < 10) : 10 - (retry + 1 + 1).toNat < 10 - (retry + 1).toNat := by
  rw [UInt32.lt_iff_toNat_lt] at h
  have hadd := UInt32.toNat_add (retry + 1) 1
  simp only [UInt32.reduceToNat] at h hadd
  omega

/-- From `cleanup` on; `rs` is what the passages get, from number `n`. -/
def cleanup (c : Dhcpc) (rs : ℕ → Res) (n : ℕ) : Dhcpc :=
  let c' := { c with so := false }
  if c.ready then c'
  else if _ : c.retry + 1 < 10 then
    match h : attempt { c' with retry := c.retry + 1 } (rs n) with
    | (d, true) => d
    | (d, false) => cleanup d rs (n + 1)
  else { c' with retry := c.retry + 1 }
termination_by 10 - (c.retry + 1).toNat
decreasing_by
  have hretry : d.retry = c.retry + 1 := by
    have := attempt_retry { c' with retry := c.retry + 1 } (rs n)
    rw [h] at this
    exact this
  rw [hretry]
  exact measure_lt (by assumption)

/-- An event of the handler, with what its passages get: the first, a message taken, or a timer's shot. -/
inductive Act
  | init (rs : ℕ → Res)
  | offer (rs : ℕ → Res)
  | ack (rs : ℕ → Res)
  | expire (k : ℕ) (rs : ℕ → Res)

/-- Goes on at `cleanup`, if it has to. -/
def settle (r : Dhcpc × Bool) (rs : ℕ → Res) : Dhcpc := if r.2 then r.1 else r.1.cleanup rs 1

/-- `vsfip_dhcpc_evt_handler`, with what leads to its event. -/
def exec (c : Dhcpc) : Act → Dhcpc
  | .init rs =>
    let c := { c with started := true, ready := true, retry := 0 }
    settle (c.attempt (rs 0)) rs
  | .offer rs =>
    let c := { c with ipaddrSize := 4 }
    settle (c.request (rs 0)) rs
  | .ack rs =>
    let c := { c.disarm with ready := true }
    c.cleanup rs 1
  | .expire k rs =>
    let c := { c with shots := c.shots.fire k, ready := false }
    c.cleanup rs 1

/-- The handler starts once, messages come with a socket, a running timer may fire. -/
def Legal (c : Dhcpc) : Act → Prop
  | .init _ => c.started = false
  | .offer _ | .ack _ => c.so
  | .expire k _ => k ∈ c.shots.running

/-- After `vsfip_dhcpc_start`; the client may have an address already. -/
structure Start (c : Dhcpc) : Prop where
  started : c.started = false
  so : c.so = false
  timer : c.timer = none
  created : c.shots.created = 0
  running : c.shots.running = []
  released : c.shots.released = []
  strays : c.shots.strays = []

/-- Events, in any order. -/
def events : System Dhcpc Act where
  start := Start
  step c a c' := c.Legal a ∧ c' = c.exec a

/-- The remembered timer runs. -/
def Armed (c : Dhcpc) : Prop := ∃ k, c.timer = some k ∧ k ∈ c.shots.running

/-- None of the passages from `n` on gets a socket and the port. -/
def Barred (retry : UInt32) (rs : ℕ → Res) (n : ℕ) : Prop :=
  ∀ j, (retry + 1).toNat + j < 10 → ¬ ((rs (n + j)).socket ∧ (rs (n + j)).bind)

/-- Where the handler releases the remembered timer, it runs. -/
def Owns (c : Dhcpc) : Act → Prop
  | .init rs => c.ipaddrSize = 0 ∨ ¬ ((rs 0).socket ∧ (rs 0).bind)
  | .offer rs => c.Armed ∧ ((rs 0).buf ∨ c.ready ∨ Barred c.retry rs 1)
  | .ack _ => c.Armed
  | .expire _ rs => c.ipaddrSize = 0 ∨ Barred c.retry rs 1

/-! ### One event -/

variable {c c' : Dhcpc} {r : Res} {rs : ℕ → Res} {n : ℕ}

/-- The timers are sound, and only the remembered one may run. -/
structure Inv (c : Dhcpc) : Prop where
  sound : c.shots.Sound
  only : ∀ k ∈ c.shots.running, c.timer = some k

theorem Inv.disarm (h : Inv c) (ha : c.Armed) : Inv c.disarm ∧ c.disarm.shots.running = [] := by
  obtain ⟨k, hk, hmem⟩ := ha
  have hrun : c.shots.running = [k] := by
    have hrep := eq_replicate_of_mem fun x hx => Option.some.inj ((h.only x hx).symm.trans hk)
    have honce := h.sound.once k
    have hpos := count_pos_iff.mpr hmem
    rw [hrep, count_replicate_self] at honce hpos
    have hle : (if k < c.shots.created then 1 else 0) ≤ 1 := by split_ifs <;> omega
    rw [hrep, show c.shots.running.length = 1 by omega]
    rfl
  have hdis : c.disarm.shots = c.shots.fire k := by
    show c.shots.free c.timer = _
    rw [hk, Shots.free_running hmem]
  have hnil : c.disarm.shots.running = [] := by
    rw [hdis]
    show c.shots.running.erase k = []
    rw [hrun, erase_cons_head]
  exact ⟨⟨hdis ▸ h.sound.fire hmem, by rw [hnil]; simp⟩, hnil⟩

theorem Inv.arm (h : Inv c) (hidle : c.shots.running = []) (r : Res) : Inv (c.arm r) := by
  refine ⟨h.sound.create r.timer, fun k hk => ?_⟩
  unfold Dhcpc.arm Shots.create at hk ⊢
  split_ifs at hk ⊢
  · have hk : k ∈ c.shots.created :: c.shots.running := hk
    rw [hidle] at hk
    rw [mem_singleton.mp hk]
  · have hk : k ∈ c.shots.running := hk
    rw [hidle] at hk
    exact absurd hk not_mem_nil

theorem Inv.of_eq (h : Inv c) (hs : c'.shots = c.shots) (ht : c'.timer = c.timer) : Inv c' :=
  ⟨hs ▸ h.sound, fun k hk => ht ▸ h.only k (hs ▸ hk)⟩

theorem not_armed (hidle : c.shots.running = []) : ¬ c.Armed := by
  rintro ⟨k, -, hk⟩
  rw [hidle] at hk
  exact absurd hk not_mem_nil

/-- A timer that does not run is released once too often. -/
theorem disarm_strays (h : ¬ c.Armed) : c.disarm.shots.strays ≠ [] := by
  have hs := Shots.free_strays (w := c.shots) (t := c.timer) fun k hk hm => h ⟨k, hk, hm⟩
  show (c.shots.free c.timer).strays ≠ []
  rw [hs]
  exact append_ne_nil_of_right_ne_nil _ (cons_ne_nil _ _)

/-! ### What was released stays released -/

theorem disarm_keeps (h : c.shots.strays ≠ []) : c.disarm.shots.strays ≠ [] := by
  by_cases ha : c.Armed
  · obtain ⟨k, hk, hm⟩ := ha
    show (c.shots.free c.timer).strays ≠ []
    rw [hk, Shots.free_running hm]
    exact h
  · exact disarm_strays ha

theorem arm_strays (c : Dhcpc) (r : Res) : (c.arm r).shots.strays = c.shots.strays := by
  unfold arm Shots.create
  split_ifs <;> rfl

theorem request_strays (c : Dhcpc) (r : Res) : (c.request r).1.shots.strays = c.disarm.shots.strays := by
  unfold request
  split_ifs
  · exact arm_strays _ _
  · rfl

theorem attempt_keeps (h : c.shots.strays ≠ []) : (c.attempt r).1.shots.strays ≠ [] := by
  unfold attempt
  dsimp only
  split_ifs
  · exact h
  · rw [request_strays]
    exact disarm_keeps h
  · rw [arm_strays]
    exact h
  · exact h

theorem cleanup_eq (c : Dhcpc) (rs : ℕ → Res) (n : ℕ) : c.cleanup rs n =
    if c.ready then { c with so := false }
    else if c.retry + 1 < 10 then
      (if (attempt { c with so := false, retry := c.retry + 1 } (rs n)).2 then
        (attempt { c with so := false, retry := c.retry + 1 } (rs n)).1
      else (attempt { c with so := false, retry := c.retry + 1 } (rs n)).1.cleanup rs (n + 1))
    else { c with so := false, retry := c.retry + 1 } := by
  rw [cleanup]
  split_ifs
  · rfl
  · split <;> simp_all
  · split <;> simp_all
  · rfl

theorem cleanup_keeps (rs : ℕ → Res) (n : ℕ) (h : c.shots.strays ≠ []) : (c.cleanup rs n).shots.strays ≠ [] := by
  induction hm : 10 - (c.retry + 1).toNat using Nat.strong_induction_on generalizing c n with
  | _ m ih =>
    rw [cleanup_eq]
    split_ifs with h1 h2 h3
    · exact h
    · exact attempt_keeps h
    · refine ih _ ?_ (n + 1) (attempt_keeps h) rfl
      rw [attempt_retry, ← hm]
      exact measure_lt h2
    · exact h

/-- How a passage from `retry` on ends with no timer running: unchanged, a stopped timer released, or a
discover with one. -/
theorem attempt_cases (hi : Inv c) (hidle : c.shots.running = []) (r : Res) :
    (attempt c r = ({ c with so := r.socket }, false) ∧ (¬ (r.socket ∧ r.bind) ∨ c.ipaddrSize = 0)) ∨
    ((r.socket ∧ r.bind) ∧ c.ipaddrSize ≠ 0 ∧ (attempt c r).1.shots.strays ≠ []) ∨
    ((attempt c r).2 = true ∧ Inv (attempt c r).1 ∧ c.ipaddrSize = 0) := by
  unfold attempt
  dsimp only
  have hso : Inv { c with so := r.socket } := hi.of_eq rfl rfl
  split_ifs with h1 h2 h3
  · refine .inl ⟨rfl, .inl fun h => ?_⟩
    exact h1.elim (fun hn => hn h.1) fun hn => hn h.2
  · refine .inr (.inl ⟨not_not.mp fun hn => h1 (not_and_or.mp hn), h2, ?_⟩)
    rw [request_strays]
    exact disarm_strays (not_armed hidle)
  · exact .inr (.inr ⟨rfl, hso.arm hidle r, not_not.mp h2⟩)
  · exact .inl ⟨rfl, .inr (not_not.mp h2)⟩

theorem barred_succ {retry : UInt32} (h : retry + 1 < 10) :
    Barred retry rs n ↔ ¬ ((rs n).socket ∧ (rs n).bind) ∧ Barred (retry + 1) rs (n + 1) := by
  rw [UInt32.lt_iff_toNat_lt] at h
  have hadd := UInt32.toNat_add (retry + 1) 1
  simp only [UInt32.reduceToNat] at h hadd
  unfold Barred
  constructor
  · intro hb
    refine ⟨hb 0 (by omega), fun j hj => ?_⟩
    rw [add_assoc, add_comm 1 j]
    exact hb (j + 1) (by omega)
  · rintro ⟨h0, hb⟩ j hj
    cases j with
    | zero => exact h0
    | succ j =>
      rw [add_comm j 1, ← add_assoc]
      exact hb j (by omega)

/-- **From `cleanup` on, with no timer running**: they stay sound exactly if the client is ready, or has no
address, or gets no socket. -/
theorem cleanup_settles (rs : ℕ → Res) (n : ℕ) (h : Inv c) (hidle : c.shots.running = []) :
    (c.ready ∨ c.ipaddrSize = 0 ∨ Barred c.retry rs n → Inv (c.cleanup rs n)) ∧
      ((c.cleanup rs n).shots.strays = [] → c.ready ∨ c.ipaddrSize = 0 ∨ Barred c.retry rs n) := by
  induction hm : 10 - (c.retry + 1).toNat using Nat.strong_induction_on generalizing c n with
  | _ m ih =>
    rw [cleanup_eq]
    by_cases h1 : c.ready
    · rw [if_pos h1]
      exact ⟨fun _ => h.of_eq rfl rfl, fun _ => .inl h1⟩
    rw [if_neg h1]
    by_cases h2 : c.retry + 1 < 10
    swap
    · rw [if_neg h2]
      refine ⟨fun _ => h.of_eq rfl rfl, fun _ => .inr (.inr fun j hj => ?_)⟩
      rw [UInt32.lt_iff_toNat_lt] at h2
      simp only [UInt32.reduceToNat] at h2
      omega
    rw [if_pos h2, barred_succ h2]
    set d : Dhcpc := { c with so := false, retry := c.retry + 1 } with hd
    have hdi : Inv d := h.of_eq rfl rfl
    rcases attempt_cases hdi hidle (rs n) with ⟨heq, hcase⟩ | ⟨hgot, hip, hstray⟩ | ⟨htrue, hinv, hip⟩
    · rw [heq, if_neg Bool.false_ne_true]
      obtain ⟨ih1, ih2⟩ := ih _ (hm ▸ measure_lt h2) (n + 1) (c := { d with so := (rs n).socket }) (hdi.of_eq rfl rfl) hidle rfl
      constructor
      · rintro (hr | hz | ⟨-, hb⟩)
        · exact absurd hr h1
        · exact ih1 (.inr (.inl hz))
        · exact ih1 (.inr (.inr hb))
      · intro hs
        rcases ih2 hs with hr | hz | hb
        · exact absurd hr h1
        · exact .inr (.inl hz)
        · exact hcase.elim (fun hn => .inr (.inr ⟨hn, hb⟩)) fun hz => .inr (.inl hz)
    · have hout : (if (attempt d (rs n)).2 then (attempt d (rs n)).1
          else (attempt d (rs n)).1.cleanup rs (n + 1)).shots.strays ≠ [] := by
        split_ifs
        · exact hstray
        · exact cleanup_keeps _ _ hstray
      refine ⟨?_, fun hs => absurd hs hout⟩
      rintro (hr | hz | ⟨hb, -⟩)
      · exact absurd hr h1
      · exact absurd hz hip
      · exact absurd hgot hb
    · rw [if_pos htrue]
      exact ⟨fun _ => hinv, fun _ => .inr (.inl hip)⟩

theorem cleanup_ready (rs : ℕ → Res) (n : ℕ) (h : c.ready) : c.cleanup rs n = { c with so := false } := by
  rw [cleanup_eq, if_pos h]

theorem Inv.fire (h : Inv c) {k : ℕ} (hk : k ∈ c.shots.running) :
    Inv { c with shots := c.shots.fire k } ∧ (c.shots.fire k).running = [] := by
  obtain ⟨hi, hidle⟩ := h.disarm ⟨k, h.only k hk, hk⟩
  have hdis : c.disarm = { c with shots := c.shots.fire k } := by
    unfold Dhcpc.disarm
    rw [h.only k hk, Shots.free_running hk]
  rw [hdis] at hi hidle
  exact ⟨hi, hidle⟩

/-- **One event** leaves the timers sound exactly if what it releases runs. -/
theorem exec_settles (h : Inv c) {a : Act} (hl : c.Legal a) (hs : c.started = false → c.shots.running = []) :
    (c.Owns a → Inv (c.exec a)) ∧ ((c.exec a).shots.strays = [] → c.Owns a) := by
  cases a with
  | init rs =>
    set d : Dhcpc := { c with started := true, ready := true, retry := 0 } with hd
    have hdi : Inv d := h.of_eq rfl rfl
    show (_ → Inv (settle (d.attempt (rs 0)) rs)) ∧ ((settle (d.attempt (rs 0)) rs).shots.strays = [] → _)
    unfold settle
    rcases attempt_cases hdi (hs hl) (rs 0) with ⟨heq, hcase⟩ | ⟨hgot, hip, hstray⟩ | ⟨htrue, hinv, hip⟩
    · rw [heq, if_neg Bool.false_ne_true, cleanup_ready _ _ rfl]
      exact ⟨fun _ => hdi.of_eq rfl rfl, fun _ => hcase.symm⟩
    · have hout : (if (d.attempt (rs 0)).2 then (d.attempt (rs 0)).1
          else (d.attempt (rs 0)).1.cleanup rs 1).shots.strays ≠ [] := by
        split_ifs
        · exact hstray
        · exact cleanup_keeps _ _ hstray
      exact ⟨fun ho => ho.elim (fun hz => absurd hz hip) fun hn => absurd hgot hn, fun hz => absurd hz hout⟩
    · rw [if_pos htrue]
      exact ⟨fun _ => hinv, fun _ => .inl hip⟩
  | offer rs =>
    set d : Dhcpc := { c with ipaddrSize := 4 } with hd
    have hdi : Inv d := h.of_eq rfl rfl
    show (_ → Inv (settle (d.request (rs 0)) rs)) ∧ ((settle (d.request (rs 0)) rs).shots.strays = [] → _)
    by_cases ha : c.Armed
    swap
    · have hout : (settle (d.request (rs 0)) rs).shots.strays ≠ [] := by
        have hstray : (d.request (rs 0)).1.shots.strays ≠ [] := by
          rw [request_strays]
          exact disarm_strays (c := d) ha
        unfold settle
        split_ifs
        · exact hstray
        · exact cleanup_keeps _ _ hstray
      exact ⟨fun ho => absurd ho.1 ha, fun hz => absurd hz hout⟩
    obtain ⟨hi, hidle⟩ := hdi.disarm ha
    unfold settle request
    by_cases hb : (rs 0).buf
    · rw [if_pos hb]
      exact ⟨fun _ => hi.arm hidle _, fun _ => ⟨ha, .inl hb⟩⟩
    · rw [if_neg hb]
      obtain ⟨h1, h2⟩ := cleanup_settles rs 1 hi hidle
      constructor
      · rintro ⟨-, hb' | hr | hbar⟩
        · exact absurd hb' hb
        · exact h1 (.inl hr)
        · exact h1 (.inr (.inr hbar))
      · intro hz
        rcases h2 hz with hr | hz | hbar
        · exact ⟨ha, .inr (.inl hr)⟩
        · exact absurd hz (Nat.succ_ne_zero 3)
        · exact ⟨ha, .inr (.inr hbar)⟩
  | ack rs =>
    show (_ → Inv (cleanup { c.disarm with ready := true } rs 1)) ∧
      ((cleanup { c.disarm with ready := true } rs 1).shots.strays = [] → _)
    rw [cleanup_ready _ _ rfl]
    by_cases ha : c.Armed
    · exact ⟨fun _ => (h.disarm ha).1.of_eq rfl rfl, fun _ => ha⟩
    · exact ⟨fun ho => absurd ho ha, fun hz => absurd hz (disarm_strays ha)⟩
  | expire k rs =>
    obtain ⟨hi, hidle⟩ := h.fire hl
    set d : Dhcpc := { c with shots := c.shots.fire k, ready := false } with hd
    have hdi : Inv d := hi.of_eq rfl rfl
    obtain ⟨h1, h2⟩ := cleanup_settles rs 1 hdi hidle
    exact ⟨fun ho => h1 (.inr ho), fun hz => (h2 hz).resolve_left Bool.false_ne_true⟩

/-! ### Runs -/

theorem attempt_started (c : Dhcpc) (r : Res) : (c.attempt r).1.started = c.started := by
  unfold attempt request
  dsimp only
  split_ifs <;> rfl

theorem cleanup_started (c : Dhcpc) (rs : ℕ → Res) (n : ℕ) : (c.cleanup rs n).started = c.started := by
  induction hm : 10 - (c.retry + 1).toNat using Nat.strong_induction_on generalizing c n with
  | _ m ih =>
    rw [cleanup_eq]
    split_ifs with h1 h2 h3
    · rfl
    · exact attempt_started _ _
    · rw [ih _ ?_ _ (n + 1) rfl]
      · exact attempt_started _ _
      · rw [attempt_retry, ← hm]
        exact measure_lt h2
    · rfl

theorem settle_started (r : Dhcpc × Bool) (rs : ℕ → Res) : (settle r rs).started = r.1.started := by
  unfold settle
  split_ifs
  · rfl
  · exact cleanup_started _ _ _

theorem exec_started (a : Act) (hl : c.Legal a) (hs : c.started = false → c.so = false ∧ c.shots.running = []) :
    (c.exec a).started = true := by
  have hstarted : ∀ p : Prop, p → (c.started = false → ¬ p) → c.started = true := fun p hp hn => by
    by_contra hne
    exact hn (by simpa using hne) hp
  cases a with
  | init rs => exact (settle_started _ _).trans (attempt_started _ _)
  | offer rs =>
    have hreq : ∀ (d : Dhcpc) (r : Res), (d.request r).1.started = d.started := fun d r => by
      unfold request
      split_ifs <;> rfl
    refine ((settle_started _ _).trans (hreq _ _)).trans (hstarted _ hl fun hf hso => ?_)
    have hso : c.so = true := hso
    rw [(hs hf).1] at hso
    cases hso
  | ack rs =>
    refine (cleanup_started _ _ _).trans (hstarted _ hl fun hf hso => ?_)
    have hso : c.so = true := hso
    rw [(hs hf).1] at hso
    cases hso
  | expire k rs =>
    refine (cleanup_started _ _ _).trans (hstarted _ hl fun hf hk => ?_)
    have hk : k ∈ c.shots.running := hk
    rw [(hs hf).2] at hk
    exact absurd hk not_mem_nil

theorem reach_inv (h : (events.restrict Owns).Reach c) :
    Inv c ∧ (c.started = false → c.so = false ∧ c.shots.running = []) := by
  refine h.invariant (P := fun c => Inv c ∧ (c.started = false → c.so = false ∧ c.shots.running = []))
    (fun c hs => ?_) fun c a c' _ hi hs => ?_
  · refine ⟨⟨⟨fun k => ?_, hs.strays⟩, ?_⟩, fun _ => ⟨hs.so, hs.running⟩⟩
    · rw [hs.running, hs.released, hs.created]
      rfl
    · rw [hs.running]
      simp
  · obtain ⟨ho, hl, rfl⟩ := hs
    refine ⟨(exec_settles hi.1 hl fun hf => (hi.2 hf).2).1 ho, fun hf => ?_⟩
    rw [exec_started a hl hi.2] at hf
    cases hf

/-- **The timers are sound in every run in which the handler releases only the running one**; each next
event leaves them sound exactly if so. -/
theorem timers_owned (h : (events.restrict Owns).Reach c) :
    c.shots.Sound ∧ ∀ a, c.Legal a → ((c.exec a).shots.Sound ↔ c.Owns a) := by
  obtain ⟨hi, hs⟩ := reach_inv h
  refine ⟨hi.sound, fun a hl => ?_⟩
  obtain ⟨h1, h2⟩ := exec_settles hi hl fun hf => (hs hf).2
  exact ⟨fun hw => h2 hw.strays, fun ho => (h1 ho).sound⟩

/-- A client without an address, before its first event. -/
def idle : Dhcpc := ⟨false, false, 0, false, 0, none, ⟨0, [], [], []⟩⟩

theorem idle_start : Start idle := ⟨rfl, rfl, rfl, rfl, rfl, rfl, rfl⟩

/-- All a passage needs. -/
def plenty : ℕ → Res := fun _ => ⟨true, true, true, true⟩

/-- The discover's timer is released when the offer comes; the request's runs. -/
theorem timers_owned_offer : ∃ c : Dhcpc, c.shots.running = [1] ∧ c.shots.released = [0] ∧ c.shots.Sound ∧
    ∀ a, c.Legal a → ((c.exec a).shots.Sound ↔ c.Owns a) := by
  have h1 : (events.restrict Owns).Reach (idle.exec (.init plenty)) :=
    (System.Reach.start idle_start).step (s := idle) (i := .init plenty) ⟨.inl rfl, rfl, rfl⟩
  have h2 : (events.restrict Owns).Reach ((idle.exec (.init plenty)).exec (.offer plenty)) :=
    h1.step (i := .offer plenty) ⟨⟨⟨0, rfl, mem_singleton_self 0⟩, .inl rfl⟩, rfl, rfl⟩
  exact ⟨_, rfl, rfl, timers_owned h2⟩

/-- **No acknowledgement after an offer**: the next request releases the fired timer again. -/
theorem released_twice : ∃ c : Dhcpc, events.Reach c ∧ c.shots.released = [0, 1, 1] ∧ c.shots.strays = [some 1] ∧
    ¬ c.shots.Sound := by
  have h1 : events.Reach (idle.exec (.init plenty)) :=
    (System.Reach.start idle_start).step (s := idle) (i := .init plenty) ⟨rfl, rfl⟩
  have h2 : events.Reach ((idle.exec (.init plenty)).exec (.offer plenty)) :=
    h1.step (i := .offer plenty) ⟨rfl, rfl⟩
  have h3 : events.Reach (((idle.exec (.init plenty)).exec (.offer plenty)).exec (.expire 1 plenty)) :=
    h2.step (i := .expire 1 plenty) ⟨mem_singleton_self 1, rfl⟩
  have hstate : ((idle.exec (.init plenty)).exec (.offer plenty)).exec (.expire 1 plenty) =
      ⟨true, true, 4, false, 1, some 2, ⟨3, [2], [0, 1, 1], [some 1]⟩⟩ := by
    show cleanup ⟨true, true, 4, false, 0, some 1, ⟨2, [], [0, 1], []⟩⟩ plenty 1 = _
    rw [cleanup_eq]
    rfl
  refine ⟨_, h3, ?_, ?_, fun hs => ?_⟩
  · rw [hstate]
  · rw [hstate]
  · have := hs.strays
    rw [hstate] at this
    exact absurd this (cons_ne_nil _ _)

end Dhcpc
end Vsf
