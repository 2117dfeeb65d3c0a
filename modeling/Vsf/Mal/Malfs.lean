/-
# Sectors of a storage

`vsf_malfs_read` and `vsf_malfs_write` check a range of sectors, put the caller's buffer into the
stream, and start a transfer. Check and address have 32 bits: the last sector is refused, a range
that wraps is accepted, one behind 4 GiB is taken from its beginning. A write never begins: its
thread waits for data that nobody writes.
-/
import Mathlib
import Vsf.Mal.Malstream

namespace Vsf

open Malstream List Option

/-- `struct vsf_malfs_t` with no transfer going on; `cap` are the blocks, `blockNum` is `cap.block_num`. -/
structure Malfs where
  drv : Driver
  blockNum : UInt64
  malstream : Malstream
  size_eq : malstream.io.s.multibuf.size = drv.blocksize.toNat
  idle : malstream.queue = [] ∧ malstream.hw = false

namespace Malfs

/-- `VSF_MALFS_CFG_BUFCNT`. -/
def bufcnt : ℕ := 8

/-- What is returned: an error, or that of the call that starts a thread. -/
inductive Answer
  | invalidParameter
  | notEnoughResources
  | started (s : Malstream)

variable (m : Malfs)

def bs : UInt32 := m.drv.blocksize

def bn : UInt32 := m.blockNum.toUInt32

/-- `mbufstream_buffer` is set, and `STREAM_INIT`; the history begins anew. -/
def prepare (num : UInt32) (buff : ℕ → UInt8) : Malstream :=
  { m.malstream with
    io := ⟨Mbufstream.init { m.malstream.io.s with multibuf := { m.malstream.io.s.multibuf with
      bufferList := fun i => if i < num.toNat then fun j => buff (i * m.bs.toNat + j) else m.malstream.io.s.multibuf.bufferList i
      count := num.toNat } }, [], []⟩
    own := { m.malstream.own with ready := false }
    peer := { m.malstream.peer with ready := false }
    result := none
    finished := 0
    failed := false
    log := []
    base := []
    wild := false }

/-- `vsf_malfs_read` and `vsf_malfs_write`, which start one thread or the other. -/
def request (sector num : UInt32) (buff : ℕ → UInt8) : Answer :=
  if sector ≥ m.bn ∨ sector + num ≥ m.bn then .invalidParameter
  else if num.toNat > bufcnt then .notEnoughResources
  else .started ((m.prepare num buff).transfer (sector * m.bs).toUInt64 (num * m.bs))

/-! ### Transfers -/

/-- What happens when nobody is at the other end of the stream. -/
def Alone : Act → Prop
  | .report => True
  | .deliver _ => True
  | .peer _ => False
  | .post _ => False

/-- The transfer that was started, from the first call of its thread on. -/
def system (dir : Dir) (drv : Driver) (s₀ : Malstream) : System Malstream Act where
  start s := ∃ os, s₀.evtHandler dir drv Evt.init os = some s
  step s a s' := Alone a ∧ Step dir drv s a s'

/-- The blocks that the driver has done, and the one it is at or has failed at. -/
def accessed (s : Malstream) : List UInt64 :=
  s.log.map Prod.fst ++ if s.state = .drv ∧ (s.result = none ∨ s.failed = true) then [s.addr + s.offset.toUInt64] else []

/-- The byte `x` of the device is in one of these blocks. -/
def Touches (drv : Driver) (s : Malstream) (x : ℕ) : Prop :=
  ∃ a ∈ accessed s, a.toNat ≤ x ∧ x < a.toNat + drv.blocksize.toNat

/-- The transfer was reported, and not as one that failed. -/
def Done (s : Malstream) : Prop := s.result = some 0 ∧ s.failed = false

/-- The transfer can be done, and touches just the bytes from `lo` to `hi`. -/
structure Exact (dir : Dir) (drv : Driver) (s₀ : Malstream) (lo hi : ℕ) : Prop where
  ends : ∃ s, (system dir drv s₀).Reach s ∧ Done s
  inside : ∀ s, (system dir drv s₀).Reach s → ∀ x, Touches drv s x → lo ≤ x ∧ x < hi
  all : ∀ s, (system dir drv s₀).Reach s → Done s → ∀ x, lo ≤ x → x < hi → Touches drv s x

/-- The sectors are on the device. -/
def Fits (sector num : UInt32) : Prop := sector.toNat + num.toNat ≤ m.blockNum.toNat

/-- A request is accepted just when its sectors are on the device, for their bytes. -/
def Right (dir : Dir) (sector num : UInt32) (buff : ℕ → UInt8) : Prop :=
  match m.request sector num buff with
  | .started s₀ => m.Fits sector num ∧
      Exact dir m.drv s₀ (sector.toNat * m.bs.toNat) ((sector.toNat + num.toNat) * m.bs.toNat)
  | _ => ¬m.Fits sector num

/-- Not up to the last sector nor wrapping, none on a device of 2^32 sectors; and of those accepted only
reads below 4 GiB. -/
structure Meets (dir : Dir) (sector num : UInt32) : Prop where
  last : sector.toNat + num.toNat ≠ m.blockNum.toNat
  full : m.blockNum.toNat = 2 ^ 32 → 2 ^ 32 < sector.toNat + num.toNat
  wrap : sector.toNat < m.blockNum.toNat → m.blockNum.toNat < 2 ^ 32 → sector.toNat + num.toNat < 2 ^ 32
  transfer : sector.toNat + num.toNat < m.blockNum.toNat → m.bs.toNat = 0 ∨
    dir = .read ∧ sector.toNat * m.bs.toNat < 2 ^ 32 ∧ num.toNat * m.bs.toNat < 2 ^ 32

variable {m} {dir : Dir} {drv : Driver} {s s' s₀ : Malstream} {sector num : UInt32} {buff : ℕ → UInt8} {addr : UInt64} {size : UInt32}

/-! ### Which requests are accepted -/

/-- What the code accepts. -/
def Accepts (m : Malfs) (sector num : UInt32) : Prop := sector < m.bn ∧ sector + num < m.bn

theorem request_accepts (hn : num.toNat ≤ bufcnt) (h : m.Accepts sector num) :
    m.request sector num buff = .started ((m.prepare num buff).transfer (sector * m.bs).toUInt64 (num * m.bs)) := by
  rw [request, if_neg, if_neg (not_lt.mpr hn)]
  rintro (hge | hge)
  · exact absurd h.1 (UInt32.not_lt.mpr hge)
  · exact absurd h.2 (UInt32.not_lt.mpr hge)

theorem request_refuses (h : ¬m.Accepts sector num) : m.request sector num buff = .invalidParameter := by
  rw [request, if_pos]
  by_contra hnot
  obtain ⟨h1, h2⟩ := not_or.mp hnot
  exact h ⟨UInt32.not_le.mp h1, UInt32.not_le.mp h2⟩

/-- **The check** is right just when the range does not end with the last sector, and nothing wraps. -/
theorem accepts_iff (hn : 1 ≤ num.toNat ∧ num.toNat ≤ bufcnt) (hcap : m.blockNum.toNat ≤ 2 ^ 32) :
    (m.Accepts sector num ↔ m.Fits sector num) ↔ sector.toNat + num.toNat ≠ m.blockNum.toNat ∧
      (m.blockNum.toNat = 2 ^ 32 → 2 ^ 32 < sector.toNat + num.toNat) ∧
      (sector.toNat < m.blockNum.toNat → m.blockNum.toNat < 2 ^ 32 → sector.toNat + num.toNat < 2 ^ 32) := by
  have hbn : m.bn.toNat = m.blockNum.toNat % 2 ^ 32 := UInt64.toNat_toUInt32 _
  have hle : num.toNat ≤ 8 := hn.2
  have haccepts : m.Accepts sector num ↔ sector.toNat < m.blockNum.toNat % 2 ^ 32 ∧
      (sector.toNat + num.toNat) % 2 ^ 32 < m.blockNum.toNat % 2 ^ 32 := by
    rw [Accepts, UInt32.lt_iff_toNat_lt, UInt32.lt_iff_toNat_lt, UInt32.toNat_add, hbn]
  rw [haccepts, Fits]
  by_cases hfull : m.blockNum.toNat = 2 ^ 32
  · rw [hfull]
    omega
  · omega

/-! ### What a transfer touches -/

/-- The blocks so far began, in 32 bits from the first, inside the size. -/
structure Track (drv : Driver) (addr : UInt64) (size : UInt32) (s : Malstream) : Prop where
  addr_eq : s.addr = addr
  size_eq : s.size = size
  peer : s.peer.ready = false
  block_eq : s.opBlockSize = drv.blocksize
  offset_eq : s.offset.toNat = s.log.length * drv.blocksize.toNat % 2 ^ 32
  log_eq : s.log.map Prod.fst = (List.range s.log.length).map fun k => addr + UInt64.ofNat (k * drv.blocksize.toNat % 2 ^ 32)
  below : ∀ k < s.log.length, k * drv.blocksize.toNat % 2 ^ 32 < size.toNat

/-- The driver is about to be called. -/
structure Ready (s : Malstream) : Prop where
  state : s.state = .drv
  result : s.result = none
  failed : s.failed = false
  more : s.offset.toNat < s.size.toNat
  hw : s.hw = false
  queue : s.queue = []

/-- Where a transfer is between events: only the driver's is in the queue. -/
inductive Phase (drv : Driver) (s : Malstream) : Prop
  | drives (state : s.state = .drv) (result : s.result = none) (failed : s.failed = false) (more : s.offset.toNat < s.size.toNat)
      (event : s.hw = true ∧ s.queue = [] ∨ s.hw = false ∧ (s.queue = [drv.event] ∨ s.queue = []))
  | waits (state : s.state = .wait) (result : s.result = none) (quiet : s.hw = false ∧ s.queue = [])
  | ended (result : s.result = some 0) (quiet : s.hw = false ∧ s.queue = [])
      (failed : s.failed = true → s.state = .drv ∧ s.offset.toNat < s.size.toNat)
      (done : s.failed = false → s.size.toNat ≤ s.offset.toNat)

/-- The loop, up to the next call of the driver. -/
theorem Track.top (h : Track drv addr size s) (hres : s.result = none) (hfail : s.failed = false) (hquiet : s.hw = false ∧ s.queue = []) :
    Track drv addr size (s.top dir).1 ∧ if (s.top dir).2 then Ready (s.top dir).1 else Phase drv (s.top dir).1 := by
  unfold Malstream.top
  by_cases hmore : s.offset < s.size
  · rw [if_pos hmore]
    by_cases havail : dir.avail s.io.s < s.opBlockSize.toNat
    · rw [if_pos havail]
      exact ⟨{ h with }, .waits rfl hres hquiet⟩
    · rw [if_neg havail]
      exact ⟨{ h with }, ⟨rfl, hres, hfail, UInt32.lt_iff_toNat_lt.mp hmore, hquiet.1, hquiet.2⟩⟩
  · rw [if_neg hmore]
    have hend : s.size.toNat ≤ s.offset.toNat := not_lt.mp fun hlt => hmore (UInt32.lt_iff_toNat_lt.mpr hlt)
    refine ⟨{ h with }, .ended rfl hquiet (fun htrue => ?_) fun _ => hend⟩
    rw [show s.finish.failed = s.failed from rfl, hfail] at htrue
    cases htrue

theorem Track.fix (h : Track drv addr size s) : Track drv addr size (s.fix dir) := by
  cases dir with
  | read => exact { h with }
  | write => exact { h with }

theorem Track.complete (h : Track drv addr size s) (hmore : s.offset.toNat < s.size.toNat) (b : ℕ) :
    Track drv addr size (s.complete dir drv b) := by
  have hoff : s.addr + s.offset.toUInt64 = addr + UInt64.ofNat (s.log.length * drv.blocksize.toNat % 2 ^ 32) := by
    rw [h.addr_eq, ← h.offset_eq]
    simp
  have hnext : ∀ io : Mbufstream.Trace, ∀ block : List UInt8, Track drv addr size { s with
      io := io
      log := s.log ++ [(s.addr + s.offset.toUInt64, block)]
      offset := s.offset + s.opBlockSize } := by
    intro io block
    refine { h with offset_eq := ?_, log_eq := ?_, below := ?_ }
    · dsimp only
      rw [UInt32.toNat_add, h.offset_eq, h.block_eq, Nat.mod_add_mod, length_append, length_singleton, Nat.succ_mul]
    · dsimp only
      rw [map_append, h.log_eq, length_append, length_singleton, range_succ, map_append, map_singleton,
        map_singleton, hoff]
    · intro k hk
      rw [length_append, length_singleton] at hk
      rcases Nat.lt_succ_iff_lt_or_eq.mp hk with hlt | rfl
      · exact h.below k hlt
      · rw [← h.offset_eq, ← h.size_eq]
        exact hmore
  unfold Malstream.complete
  dsimp only
  split_ifs
  · exact (hnext _ _).fix
  · exact hnext _ _

theorem Track.drive (h : Track drv addr size s) (hr : Ready s) (o : DrvReturn) {r : Malstream × Bool} (hd : s.drive dir drv o = some r) :
    Track drv addr size r.1 ∧ if r.2 then Ready r.1 else Phase drv r.1 := by
  unfold Malstream.drive at hd
  cases hb : dir.buffer s.io.s.multibuf with
  | none =>
    rw [hb] at hd
    obtain rfl := some.inj hd
    exact ⟨{ h with }, .drives hr.state hr.result hr.failed hr.more (.inr ⟨hr.hw, .inr hr.queue⟩)⟩
  | some b =>
    rw [hb] at hd
    cases o with
    | suspend d =>
      obtain rfl := some.inj hd
      exact ⟨{ h with }, .drives hr.state hr.result hr.failed hr.more (.inl ⟨rfl, hr.queue⟩)⟩
    | fail =>
      obtain rfl := some.inj hd
      exact ⟨{ h with }, .ended rfl ⟨hr.hw, hr.queue⟩ (fun _ => ⟨hr.state, hr.more⟩) nofun⟩
    | ok ops =>
      have hc : Track drv addr size (s.complete dir drv b) := h.complete hr.more b
      have hsame : (s.complete dir drv b).result = none ∧ (s.complete dir drv b).failed = false ∧ (s.complete dir drv b).hw = false ∧
          (s.complete dir drv b).queue = [] := by
        unfold Malstream.complete
        dsimp only
        split_ifs
        · cases dir with
          | read => exact ⟨hr.result, hr.failed, hr.hw, hr.queue⟩
          | write => exact ⟨hr.result, hr.failed, hr.hw, hr.queue⟩
        · exact ⟨hr.result, hr.failed, hr.hw, hr.queue⟩
      dsimp only at hd
      -- nobody is at the other end
      rw [if_neg (fun hand => by rw [hc.peer] at hand; exact Bool.false_ne_true hand.1), foldlM_nil] at hd
      obtain rfl := some.inj hd
      exact hc.top hsame.1 hsame.2.1 ⟨hsame.2.2.1, hsame.2.2.2⟩

/-- **The calls of the driver** in one call of the thread, by induction on their results. -/
theorem Track.run : ∀ {os : List DrvReturn} {s s' : Malstream}, Track drv addr size s → Ready s → s.run dir drv os = some s' →
    Track drv addr size s' ∧ Phase drv s'
  | [], _, _, _, _, hrun => by cases hrun
  | o :: os, s, s', h, hr, hrun => by
    rw [Malstream.run] at hrun
    obtain ⟨⟨u, more⟩, hdrive, hrest⟩ := bind_eq_some_iff.mp hrun
    obtain ⟨htrack, hnext⟩ := h.drive hr o hdrive
    cases more with
    | true => exact Track.run htrack hnext hrest
    | false =>
      obtain rfl := some.inj hrest
      exact ⟨htrack, hnext⟩

theorem Track.loop {os : List DrvReturn} (h : Track drv addr size s) (hres : s.result = none) (hfail : s.failed = false)
    (hquiet : s.hw = false ∧ s.queue = []) (hrun : s.loop dir drv os = some s') : Track drv addr size s' ∧ Phase drv s' := by
  obtain ⟨htrack, hnext⟩ : Track drv addr size (s.top dir).1 ∧ if (s.top dir).2 then Ready (s.top dir).1 else Phase drv (s.top dir).1 :=
    h.top hres hfail hquiet
  unfold Malstream.loop at hrun
  generalize s.top dir = r at htrack hnext hrun
  obtain ⟨u, more⟩ := r
  cases more with
  | true => exact htrack.run hnext hrun
  | false =>
    obtain rfl := some.inj hrun
    exact ⟨htrack, hnext⟩

/-- **A step** of a transfer that is alone with its driver. -/
theorem Track.step {a : Act} (h : Track drv addr size s) (hp : Phase drv s) (ha : Alone a) (hst : Step dir drv s a s') :
    Track drv addr size s' ∧ Phase drv s' := by
  cases hst with
  | peer op hcall => cases ha
  | post evt hevt => cases ha
  | report hhw =>
    cases hp with
    | drives hstate hres hfail hmore hevent =>
      obtain ⟨-, hq⟩ := hevent.resolve_right fun hno => by rw [hno.1] at hhw; cases hhw
      exact ⟨{ h with }, .drives hstate hres hfail hmore (.inr ⟨rfl, .inl (by dsimp only; rw [hq]; rfl)⟩)⟩
    | waits _ _ hquiet => exact absurd (hhw.symm.trans hquiet.1) (by decide)
    | ended _ hquiet => exact absurd (hhw.symm.trans hquiet.1) (by decide)
  | @deliver _ evt q os hq hhandle =>
    cases hp with
    | waits _ _ hquiet => rw [hquiet.2] at hq; cases hq
    | ended _ hquiet => rw [hquiet.2] at hq; cases hq
    | drives hstate hres hfail hmore hevent =>
      rcases hevent with ⟨-, hnil⟩ | ⟨hhw, hone | hnil⟩
      · rw [hnil] at hq; cases hq
      · obtain ⟨rfl, rfl⟩ := cons_eq_cons.mp (hone.symm.trans hq)
        rw [evtHandler, if_neg (not_or.mpr drv.event_own.2.2), if_neg drv.event_own.2.1, thread_drv (s := { s with queue := [] }) hstate,
          if_neg (fun hand => hand.2 rfl)] at hhandle
        have htrack : Track drv addr size { s with queue := [] } := { h with }
        exact htrack.run ⟨hstate, hres, hfail, hmore, hhw, rfl⟩ hhandle
      · rw [hnil] at hq; cases hq

/-! ### A request -/

/-- A request that is accepted. -/
abbrev begun (m : Malfs) (sector num : UInt32) (buff : ℕ → UInt8) : Malstream :=
  (m.prepare num buff).transfer (sector * m.bs).toUInt64 (num * m.bs)

theorem begun_handler (os : List DrvReturn) : (m.begun sector num buff).evtHandler dir m.drv Evt.init os =
    { m.begun sector num buff with state := .begin, opBlockSize := m.bs, offset := 0 }.loop dir m.drv os := by
  have hsize : ¬m.drv.blocksize.toNat ≠ (m.begun sector num buff).io.s.multibuf.size := not_not.mpr m.size_eq.symm
  rw [evtHandler, if_neg (by decide), if_pos rfl]
  unfold thread
  rw [if_neg hsize]
  rfl

theorem begun_track : Track m.drv (sector * m.bs).toUInt64 (num * m.bs)
    { m.begun sector num buff with state := .begin, opBlockSize := m.bs, offset := 0 } where
  addr_eq := rfl
  size_eq := rfl
  peer := rfl
  block_eq := rfl
  offset_eq := by
    rw [show (m.begun sector num buff).log = [] from rfl]
    simp
  log_eq := rfl
  below k hk := absurd hk (Nat.not_lt_zero k)

/-- **What holds of it** in every state. -/
theorem track_reach (hr : (system dir m.drv (m.begun sector num buff)).Reach s) :
    Track m.drv (sector * m.bs).toUInt64 (num * m.bs) s ∧ Phase m.drv s := by
  refine hr.invariant (P := fun s => Track m.drv (sector * m.bs).toUInt64 (num * m.bs) s ∧ Phase m.drv s) ?_ ?_
  · rintro s ⟨os, hrun⟩
    rw [begun_handler] at hrun
    exact begun_track.loop rfl rfl m.idle.symm hrun
  · rintro s a s' - ⟨h, hp⟩ ⟨ha, hst⟩
    exact h.step hp ha hst

theorem touches_done (h : Track drv addr size s) (hd : Done s) {x : ℕ} : Touches drv s x ↔ ∃ k < s.log.length,
    (addr + UInt64.ofNat (k * drv.blocksize.toNat % 2 ^ 32)).toNat ≤ x ∧
      x < (addr + UInt64.ofNat (k * drv.blocksize.toNat % 2 ^ 32)).toNat + drv.blocksize.toNat := by
  have hacc : accessed s = (List.range s.log.length).map fun k => addr + UInt64.ofNat (k * drv.blocksize.toNat % 2 ^ 32) := by
    rw [accessed, if_neg, append_nil, h.log_eq]
    rintro ⟨-, hres | hfail⟩
    · rw [hd.1] at hres; cases hres
    · rw [hd.2] at hfail; cases hfail
  rw [Touches, hacc]
  constructor
  · rintro ⟨a, ha, hx⟩
    obtain ⟨k, hk, rfl⟩ := List.mem_map.mp ha
    exact ⟨k, List.mem_range.mp hk, hx⟩
  · rintro ⟨k, hk, hx⟩
    exact ⟨_, List.mem_map.mpr ⟨k, List.mem_range.mpr hk, rfl⟩, hx⟩

theorem block_at (sector bs : UInt32) (r : ℕ) (hr : r < 2 ^ 32) :
    ((sector * bs).toUInt64 + UInt64.ofNat r).toNat = sector.toNat * bs.toNat % 2 ^ 32 + r := by
  rw [UInt64.toNat_add, UInt32.toNat_toUInt64, UInt32.toNat_mul, UInt64.toNat_ofNat', Nat.mod_eq_of_lt (by omega : r < 2 ^ 64)]
  exact Nat.mod_eq_of_lt (by omega)

/-! ### Reads -/

/-- A read that has filled `j` of its `n` buffers. -/
structure Filling (drv : Driver) (n j : ℕ) (s : Malstream) : Prop where
  size : s.io.s.multibuf.size = drv.blocksize.toNat
  count : s.io.s.multibuf.count = n
  length : s.io.s.multibuf.length = j
  rpos : s.io.s.rpos = 0
  wpos : s.io.s.wpos = 0
  block_eq : s.opBlockSize = drv.blocksize
  offset : s.offset.toNat = j * drv.blocksize.toNat
  total : s.size.toNat = n * drv.blocksize.toNat
  peer : s.peer.ready = false
  result : s.result = none
  failed : s.failed = false

variable {n j : ℕ}

theorem Filling.avail (h : Filling drv n j s) (hj : j ≤ n) : s.io.s.getAvailLength = n * drv.blocksize.toNat - j * drv.blocksize.toNat := by
  have hlt := s.size.toNat_lt
  have hle : j * drv.blocksize.toNat ≤ n * drv.blocksize.toNat := Nat.mul_le_mul_right _ hj
  rw [h.total] at hlt
  have hdata : s.io.s.getDataLength = j * drv.blocksize.toNat := by
    rw [Mbufstream.getDataLength, h.length, h.size, h.wpos, h.rpos]
    omega
  rw [Mbufstream.getAvailLength, hdata, h.count, h.size]
  omega

theorem Filling.top (h : Filling drv n j s) (hpos : 0 < drv.blocksize.toNat) (hj : j < n) :
    ∃ s', s.top .read = (s', true) ∧ Filling drv n j s' := by
  have hle : (j + 1) * drv.blocksize.toNat ≤ n * drv.blocksize.toNat := Nat.mul_le_mul_right _ hj
  rw [Nat.succ_mul] at hle
  have hmore : s.offset < s.size := by
    rw [UInt32.lt_iff_toNat_lt, h.offset, h.total]
    omega
  have havail : ¬Dir.read.avail s.io.s < s.opBlockSize.toNat := by
    rw [show Dir.read.avail s.io.s = s.io.s.getAvailLength from rfl, h.avail hj.le, h.block_eq]
    omega
  rw [Malstream.top, if_pos hmore, if_neg havail]
  exact ⟨_, rfl, { h with }⟩

theorem Filling.finish (h : Filling drv n n s) : ∃ s', s.top .read = (s', false) ∧ Done s' := by
  have hend : ¬s.offset < s.size := by
    rw [UInt32.lt_iff_toNat_lt, h.offset, h.total]
    exact lt_irrefl _
  rw [Malstream.top, if_neg hend]
  exact ⟨_, rfl, rfl, h.failed⟩

theorem Filling.complete (h : Filling drv n j s) (hj : j < n) (b : ℕ) : Filling drv n (j + 1) (s.complete .read drv b) := by
  have hroom : ¬s.io.s.multibuf.count ≤ s.io.s.multibuf.length := by
    rw [h.count, h.length]
    omega
  have hpush : ∀ d : ℕ → UInt8, (Mbufstream.put s.io.s b d s.opBlockSize.toNat).multibuf.push =
      { (Mbufstream.put s.io.s b d s.opBlockSize.toNat).multibuf with
        head := Multibuf.nextIndex s.io.s.multibuf.head s.io.s.multibuf.count
        length := s.io.s.multibuf.length + 1 } := fun d => if_neg hroom
  have hoff : (s.offset + s.opBlockSize).toNat = (j + 1) * drv.blocksize.toNat := by
    have hlt := s.size.toNat_lt
    have hle : (j + 1) * drv.blocksize.toNat ≤ n * drv.blocksize.toNat := Nat.mul_le_mul_right _ hj
    rw [h.total] at hlt
    rw [Nat.succ_mul] at hle ⊢
    rw [UInt32.toNat_add, h.offset, h.block_eq]
    exact Nat.mod_eq_of_lt (by omega)
  have hdone : ∀ own : End, Filling drv n (j + 1) { s with
      io := Dir.read.record s.io { Mbufstream.put s.io.s b (drv.block (s.addr + s.offset.toUInt64)) s.opBlockSize.toNat with
        multibuf := (Mbufstream.put s.io.s b (drv.block (s.addr + s.offset.toUInt64)) s.opBlockSize.toNat).multibuf.push }
        ((Mbufstream.put s.io.s b (drv.block (s.addr + s.offset.toUInt64)) s.opBlockSize.toNat).peekAt b s.opBlockSize.toNat)
      log := s.log ++ [(s.addr + s.offset.toUInt64,
        (Mbufstream.put s.io.s b (drv.block (s.addr + s.offset.toUInt64)) s.opBlockSize.toNat).peekAt b s.opBlockSize.toNat)]
      offset := s.offset + s.opBlockSize
      own := own } := by
    intro own
    rw [hpush]
    exact {
      size := h.size
      count := h.count
      length := congrArg (· + 1) h.length
      rpos := h.rpos
      wpos := h.wpos
      block_eq := h.block_eq
      offset := hoff
      total := h.total
      peer := h.peer
      result := h.result
      failed := h.failed }
  unfold Malstream.complete
  dsimp only
  split_ifs
  · exact hdone _
  · exact hdone _

theorem Filling.run (hpos : 0 < drv.blocksize.toNat) : ∀ {k j : ℕ} {s : Malstream}, Filling drv n j s → j + (k + 1) = n →
    ∃ s', s.run .read drv (List.replicate (k + 1) (.ok [])) = some s' ∧ Done s'
  | k, j, s, h, hn => by
    have hempty : Dir.read.buffer s.io.s.multibuf = some s.io.s.multibuf.head :=
      if_neg (by rw [h.count, h.length]; omega)
    have hc := h.complete (by omega) s.io.s.multibuf.head
    have hdrive : s.drive .read drv (.ok []) = some ((s.complete .read drv s.io.s.multibuf.head).top .read) := by
      unfold Malstream.drive
      rw [hempty]
      dsimp only
      rw [ite_self]
      rfl
    rw [replicate_succ, Malstream.run, hdrive, bind_some]
    cases k with
    | zero =>
      obtain rfl : j + 1 = n := hn
      obtain ⟨s', htop, hd⟩ := hc.finish
      rw [htop]
      exact ⟨s', rfl, hd⟩
    | succ k =>
      obtain ⟨s', htop, hs'⟩ := hc.top hpos (by omega)
      rw [htop]
      exact hs'.run hpos (by omega)

/-- **A read can be done**, where its size is what it should be. -/
theorem read_ends (hn : 1 ≤ num.toNat) (hpos : 0 < m.bs.toNat) (hsize : num.toNat * m.bs.toNat < 2 ^ 32) :
    ∃ s, (system .read m.drv (m.begun sector num buff)).Reach s ∧ Done s := by
  have hfill : Filling m.drv num.toNat 0 { m.begun sector num buff with state := .begin, opBlockSize := m.bs, offset := 0 } := {
    size := m.size_eq
    count := rfl
    length := rfl
    rpos := rfl
    wpos := rfl
    block_eq := rfl
    offset := (Nat.zero_mul _).symm
    total := by
      show (num * m.bs).toNat = num.toNat * m.bs.toNat
      rw [UInt32.toNat_mul, Nat.mod_eq_of_lt hsize]
    peer := rfl
    result := rfl
    failed := rfl }
  obtain ⟨s1, htop, h1⟩ := hfill.top hpos (by omega)
  obtain ⟨s2, hrun, hd⟩ := h1.run hpos (k := num.toNat - 1) (by omega)
  refine ⟨s2, .start ⟨List.replicate (num.toNat - 1 + 1) (.ok []), ?_⟩, hd⟩
  rw [begun_handler, Malstream.loop, htop]
  exact hrun

/-! ### Writes -/

/-- **A write waits** for data, or there is nothing to write: no block is touched. -/
theorem write_reach (hpos : 0 < m.bs.toNat) (hr : (system .write m.drv (m.begun sector num buff)).Reach s) : accessed s = [] := by
  have hquiet : s.log = [] ∧ s.state ≠ .drv ∧ s.hw = false ∧ s.queue = [] := by
    refine hr.invariant (P := fun s => s.log = [] ∧ s.state ≠ .drv ∧ s.hw = false ∧ s.queue = []) ?_ ?_
    · rintro s ⟨os, hrun⟩
      have hdata : Dir.write.avail (m.begun sector num buff).io.s < m.bs.toNat := by
        have hzero : (m.begun sector num buff).io.s.getDataLength = 0 := by
          show (0 * m.malstream.io.s.multibuf.size + 0 + (2 ^ 32 - 0)) % 2 ^ 32 = 0
          rw [Nat.zero_mul]
          rfl
        rw [show Dir.write.avail (m.begun sector num buff).io.s = (m.begun sector num buff).io.s.getDataLength from rfl, hzero]
        exact hpos
      rw [begun_handler, Malstream.loop, Malstream.top] at hrun
      dsimp only at hrun
      rw [if_pos hdata] at hrun
      by_cases hmore : (0 : UInt32) < (m.begun sector num buff).size
      · rw [if_pos hmore, if_neg Bool.false_ne_true] at hrun
        obtain rfl := some.inj hrun
        exact ⟨rfl, nofun, m.idle.2, m.idle.1⟩
      · rw [if_neg hmore, if_neg Bool.false_ne_true] at hrun
        obtain rfl := some.inj hrun
        exact ⟨rfl, nofun, m.idle.2, m.idle.1⟩
    · rintro s a s' - ⟨hlog, hstate, hhw, hq⟩ ⟨ha, hst⟩
      cases hst with
      | peer op hcall => cases ha
      | post evt hevt => cases ha
      | report hyes => rw [hhw] at hyes; cases hyes
      | deliver os hcons => rw [hq] at hcons; cases hcons
  rw [accessed, hquiet.1, if_neg fun hand => hquiet.2.1 hand.1]
  rfl

/-! ### The range of a request -/

theorem touches_below (h : Track drv addr size s) (hp : Phase drv s) {x : ℕ} (hx : Touches drv s x) : ∃ k ≤ s.log.length,
    k * drv.blocksize.toNat % 2 ^ 32 < size.toNat ∧ (addr + UInt64.ofNat (k * drv.blocksize.toNat % 2 ^ 32)).toNat ≤ x ∧
      x < (addr + UInt64.ofNat (k * drv.blocksize.toNat % 2 ^ 32)).toNat + drv.blocksize.toNat := by
  obtain ⟨a, ha, hin⟩ := hx
  rw [accessed, h.log_eq] at ha
  rcases mem_append.mp ha with ha | ha
  · obtain ⟨k, hk, rfl⟩ := List.mem_map.mp ha
    exact ⟨k, (List.mem_range.mp hk).le, h.below k (List.mem_range.mp hk), hin⟩
  · split_ifs at ha with hcur
    · have hmore : s.offset.toNat < s.size.toNat := by
        cases hp with
        | drives _ _ _ hmore => exact hmore
        | waits hstate => rw [hstate] at hcur; cases hcur.1
        | ended hres _ hfail =>
          rcases hcur.2 with hnone | hfailed
          · rw [hres] at hnone; cases hnone
          · exact (hfail hfailed).2
      have hoff : s.addr + s.offset.toUInt64 = addr + UInt64.ofNat (s.log.length * drv.blocksize.toNat % 2 ^ 32) := by
        rw [h.addr_eq, ← h.offset_eq]
        simp
      rw [mem_singleton.mp ha, hoff] at hin
      rw [h.offset_eq, h.size_eq] at hmore
      exact ⟨s.log.length, le_rfl, hmore, hin⟩
    · cases ha

theorem exact_empty (hzero : m.bs.toNat = 0) : Exact dir m.drv (m.begun sector num buff) (sector.toNat * m.bs.toNat)
    ((sector.toNat + num.toNat) * m.bs.toNat) := by
  have hdrv : m.drv.blocksize.toNat = 0 := hzero
  have htouch : ∀ s x, ¬Touches m.drv s x := by
    rintro s x ⟨a, -, hx⟩
    rw [hdrv] at hx
    omega
  refine ⟨⟨Malstream.finish { m.begun sector num buff with state := .begin, opBlockSize := m.bs, offset := 0 }, .start ⟨[], ?_⟩, rfl, rfl⟩,
    fun s _ x hx => absurd hx (htouch s x), fun s _ _ x hlo hhi => ?_⟩
  · have hnone : ¬(0 : UInt32) < (m.begun sector num buff).size := by
      rw [UInt32.lt_iff_toNat_lt, show (m.begun sector num buff).size = num * m.bs from rfl, UInt32.toNat_mul, hzero, Nat.mul_zero]
      exact lt_irrefl 0
    rw [begun_handler, Malstream.loop, Malstream.top, if_neg hnone]
    rfl
  · rw [hzero, Nat.mul_zero] at hhi
    exact absurd hhi (Nat.not_lt_zero x)

/-- **A read** below 4 GiB touches the bytes of its sectors. -/
theorem exact_read (hn : 1 ≤ num.toNat) (hpos : 0 < m.bs.toNat) (hlow : sector.toNat * m.bs.toNat < 2 ^ 32)
    (hhigh : num.toNat * m.bs.toNat < 2 ^ 32) : Exact .read m.drv (m.begun sector num buff) (sector.toNat * m.bs.toNat)
      ((sector.toNat + num.toNat) * m.bs.toNat) := by
  have hdrv : m.drv.blocksize = m.bs := rfl
  have hsize : (num * m.bs).toNat = num.toNat * m.bs.toNat := by
    rw [UInt32.toNat_mul, Nat.mod_eq_of_lt hhigh]
  have hlen : ∀ s, Track m.drv (sector * m.bs).toUInt64 (num * m.bs) s → s.log.length ≤ num.toNat := by
    intro s h
    by_contra hgt
    have hbelow := h.below num.toNat (not_le.mp hgt)
    rw [hdrv, Nat.mod_eq_of_lt hhigh, hsize] at hbelow
    exact absurd hbelow (lt_irrefl _)
  have hblock : ∀ k ≤ num.toNat, ((sector * m.bs).toUInt64 + UInt64.ofNat (k * m.drv.blocksize.toNat % 2 ^ 32)).toNat =
      sector.toNat * m.bs.toNat + k * m.bs.toNat ∧ k * m.drv.blocksize.toNat % 2 ^ 32 = k * m.bs.toNat := by
    intro k hk
    have hle : k * m.bs.toNat ≤ num.toNat * m.bs.toNat := Nat.mul_le_mul_right _ hk
    rw [block_at _ _ _ (Nat.mod_lt _ (by decide)), hdrv, Nat.mod_eq_of_lt hlow, Nat.mod_eq_of_lt (by omega)]
    exact ⟨rfl, rfl⟩
  rw [add_mul]
  refine ⟨read_ends hn hpos hhigh, fun s hr x hx => ?_, fun s hr hd x hlo hhi => ?_⟩
  · obtain ⟨h, hp⟩ := track_reach hr
    obtain ⟨k, hk, hbelow, hin⟩ := touches_below h hp hx
    obtain ⟨haddr, hoff⟩ := hblock k (hk.trans (hlen s h))
    rw [haddr, hdrv] at hin
    rw [hoff, hsize] at hbelow
    have hle : (k + 1) * m.bs.toNat ≤ num.toNat * m.bs.toNat := Nat.mul_le_mul_right _ (Nat.lt_of_mul_lt_mul_right hbelow)
    rw [Nat.succ_mul] at hle
    omega
  · obtain ⟨h, hp⟩ := track_reach hr
    have hfull : num.toNat ≤ s.log.length := by
      cases hp with
      | drives _ hres => rw [hd.1] at hres; cases hres
      | waits _ hres => rw [hd.1] at hres; cases hres
      | ended _ _ _ hdone =>
        have hge := hdone hd.2
        rw [h.size_eq, h.offset_eq, hsize, (hblock _ (hlen s h)).2] at hge
        exact le_of_mul_le_mul_right hge hpos
    have hk : (x - sector.toNat * m.bs.toNat) / m.bs.toNat < num.toNat :=
      Nat.div_lt_of_lt_mul (by rw [mul_comm m.bs.toNat]; omega)
    refine (touches_done h hd).mpr ⟨_, hk.trans_le hfull, ?_⟩
    have hdiv := Nat.div_add_mod (x - sector.toNat * m.bs.toNat) m.bs.toNat
    have hrem := Nat.mod_lt (x - sector.toNat * m.bs.toNat) hpos
    rw [mul_comm] at hdiv
    rw [(hblock _ hk.le).1, hdrv]
    omega

theorem Exact.small (hn : 1 ≤ num.toNat) (hpos : 0 < m.bs.toNat) (hex : Exact dir m.drv (m.begun sector num buff)
    (sector.toNat * m.bs.toNat) ((sector.toNat + num.toNat) * m.bs.toNat)) :
    dir = .read ∧ sector.toNat * m.bs.toNat < 2 ^ 32 ∧ num.toNat * m.bs.toNat < 2 ^ 32 := by
  have hbs := m.bs.toNat_lt
  have hmod : ∀ r, r % 2 ^ 32 < 2 ^ 32 := fun r => Nat.mod_lt r (by decide)
  have hdrv : m.drv.blocksize = m.bs := rfl
  have hnum : m.bs.toNat ≤ num.toNat * m.bs.toNat := Nat.le_mul_of_pos_left _ hn
  rw [add_mul] at hex
  obtain ⟨s, hr, hd⟩ := hex.ends
  have hfirst := hex.all s hr hd (sector.toNat * m.bs.toNat) le_rfl (by omega)
  cases dir with
  | write =>
    obtain ⟨a, ha, -⟩ := hfirst
    rw [write_reach hpos hr] at ha
    cases ha
  | read =>
    obtain ⟨h, -⟩ := track_reach hr
    -- the first block is at the address in 32 bits
    have hlen : 0 < s.log.length := by
      obtain ⟨k, hk, -⟩ := (touches_done h hd).mp hfirst
      exact Nat.zero_lt_of_lt hk
    have hstart : Touches m.drv s (sector.toNat * m.bs.toNat % 2 ^ 32) := by
      refine (touches_done h hd).mpr ⟨0, hlen, ?_⟩
      rw [block_at _ _ _ (hmod _), hdrv, Nat.zero_mul, Nat.zero_mod]
      omega
    have hlow : sector.toNat * m.bs.toNat < 2 ^ 32 := by
      have hle := (hex.inside s hr _ hstart).1
      omega
    -- the last byte is in a block that begins before the size in 32 bits
    have hlast := hex.all s hr hd (sector.toNat * m.bs.toNat + num.toNat * m.bs.toNat - 1) (by omega) (by omega)
    obtain ⟨k, hk, -, hx⟩ := (touches_done h hd).mp hlast
    have hbelow := h.below k hk
    rw [block_at _ _ _ (hmod _), hdrv, Nat.mod_eq_of_lt hlow] at hx
    rw [hdrv, UInt32.toNat_mul] at hbelow
    refine ⟨rfl, hlow, ?_⟩
    by_contra hge
    omega

/-- **A transfer is exact** just when its blocks are empty, or it is a read right in 32 bits. -/
theorem exact_iff (hn : 1 ≤ num.toNat) : Exact dir m.drv (m.begun sector num buff) (sector.toNat * m.bs.toNat)
    ((sector.toNat + num.toNat) * m.bs.toNat) ↔ m.bs.toNat = 0 ∨
      dir = .read ∧ sector.toNat * m.bs.toNat < 2 ^ 32 ∧ num.toNat * m.bs.toNat < 2 ^ 32 := by
  rcases eq_zero_or_pos m.bs.toNat with hzero | hpos
  · exact iff_of_true (exact_empty hzero) (.inl hzero)
  · constructor
    · exact fun hex => .inr (hex.small hn hpos)
    · rintro (hzero | ⟨rfl, hlow, hhigh⟩)
      · exact absurd hzero hpos.ne'
      · exact exact_read hn hpos hlow hhigh

/-- **A request** is accepted and served right just when the condition holds. -/
theorem request_iff (hn : 1 ≤ num.toNat ∧ num.toNat ≤ bufcnt) (hcap : m.blockNum.toNat ≤ 2 ^ 32) :
    m.Right dir sector num buff ↔ m.Meets dir sector num := by
  have hcheck : (m.Accepts sector num ↔ m.Fits sector num) ↔ _ := accepts_iff hn hcap
  have hexact : Exact dir m.drv (m.begun sector num buff) _ _ ↔ _ := exact_iff hn.1
  unfold Right
  by_cases ha : m.Accepts sector num
  · rw [request_accepts hn.2 ha]
    dsimp only
    rw [hexact]
    constructor
    · rintro ⟨hfits, hsent⟩
      obtain ⟨hlast, hfull, hwrap⟩ := hcheck.mp (iff_of_true ha hfits)
      exact ⟨hlast, hfull, hwrap, fun _ => hsent⟩
    · intro hm
      have hfits : m.Fits sector num := (hcheck.mpr ⟨hm.last, hm.full, hm.wrap⟩).mp ha
      exact ⟨hfits, hm.transfer (lt_of_le_of_ne hfits hm.last)⟩
  · rw [request_refuses ha]
    dsimp only
    constructor
    · intro hnot
      obtain ⟨hlast, hfull, hwrap⟩ := hcheck.mp (iff_of_false ha hnot)
      exact ⟨hlast, hfull, hwrap, fun hlt => absurd hlt.le hnot⟩
    · intro hm hfits
      exact ha ((hcheck.mpr ⟨hm.last, hm.full, hm.wrap⟩).mpr hfits)

/-- A device of four blocks of two bytes. -/
def fourBlocks : Malfs where
  drv := twoBytes
  blockNum := 4
  malstream := oneBuffer
  size_eq := rfl
  idle := ⟨rfl, rfl⟩

/-- Two of its blocks are read. -/
theorem request_iff_two : fourBlocks.Right .read 1 2 (fun _ => 0) :=
  (request_iff (by decide) (by decide)).mpr ⟨by decide, by decide, by decide, fun _ => .inr ⟨rfl, by decide, by decide⟩⟩

/-- **The last block** cannot be. -/
theorem request_last : ¬∀ (m : Malfs) (dir : Dir) (sector num : UInt32) (buff : ℕ → UInt8), 1 ≤ num.toNat ∧ num.toNat ≤ bufcnt →
    m.blockNum.toNat ≤ 2 ^ 32 → m.Right dir sector num buff := by
  intro hall
  have hright := hall fourBlocks .read 3 1 (fun _ => 0) (by decide) (by decide)
  have hrefused : fourBlocks.request 3 1 (fun _ => 0) = .invalidParameter := rfl
  rw [Right, hrefused] at hright
  exact hright (by decide : 3 + 1 ≤ 4)

end Malfs
end Vsf
