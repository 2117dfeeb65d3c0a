/-
# A download of the HTTP client

`vsfip_httpc_get` for a URL, with a request buffer that holds anything, and a server that answers
200 in segments cut anywhere (`Httpc.Download`). The header parser sees one segment, so the first
one decides: with all of the header in it, the body is delivered (`Stream`); else it is read past
its end, or parsed as a new response (`Get.Lost`), or delivered as the body (`downloads_iff`).
-/
import Mathlib
import Vsf.Lib.System
import Vsf.Lib.CStr
import Vsf.Net.Httpc
import Vsf.Net.HttpcHead

namespace Vsf
namespace Httpc

open ByteMem Text CStr List Option

/-- A URL whose request fits, the request buffer, a response, and its segments. -/
structure Download where
  url : Url
  fits : url.Fits
  mem : Mem
  response : Response
  segs : List (List UInt8)
  segs_ne : ∀ seg ∈ segs, seg ≠ []
  whole : segs.flatten = response.bytes

/-- A download under way: the client, and the segments that are to come. -/
structure Get where
  client : Client
  segs : List (List UInt8)

namespace Get

variable (D : Download) (g : Get)

/-- What the pending call returns, if it succeeds. Behind the last segment a
receive fails. -/
def Answer : Ret → Prop
  | .notReady => True
  | .start _ sock => sock = true
  | .dns err sock => err = 0 ∧ sock = true
  | .connect err request => err = 0 ∧ ∃ data, buildreqGet D.url D.mem = some data ∧ request = some data
  | .send err => err = 0
  | .recv data head => g.segs.head? = some data ∧ (g.client.respLength = 0 → prasehead 0 data = some head)
  | .recvFail _ _ => g.segs = []
  | .onConnect err => err = 0
  | .onRecv err => err = 0
  | .close err => err = 0

/-- A segment is taken from what is to come. -/
def step : Ret → Get
  | .recv data head => ⟨g.client.step (.recv data head), g.segs.tail⟩
  | r => ⟨g.client.step r, g.segs⟩

/-- Next a byte outside the request buffer or the received segment is touched. -/
def Faults : Prop :=
  match g.client.pc with
  | .connect => buildreqGet D.url D.mem = none
  | .recv => g.client.respLength = 0 ∧ ∃ seg, g.segs.head? = some seg ∧ prasehead 0 seg = none
  | _ => False

end Get

/-- All runs of a download. -/
def getSystem (D : Download) : System Get Ret where
  start g := Start g.client ∧ g.client.delivered = [] ∧ (g.client.onRecv = true ∧ g.client.output = true) ∧ g.segs = D.segs
  step g r g' := g.client.Legal r ∧ g.Answer D r ∧ g' = g.step r

/-- The pieces `cs`, each with the offset `on_recv` is called with. -/
def pieces : ℕ → List (List UInt8) → List (UInt32 × List UInt8)
  | _, [] => []
  | k, c :: cs => (UInt32.ofNat k, c) :: pieces (k + c.length) cs

/-- The request was sent, the body was delivered, and `VSFERR_NONE` is returned. -/
structure Complete (D : Download) (s : Client) : Prop where
  sent : s.sent.map Buf.data = [request D.url]
  delivered : ∃ cs, s.delivered = pieces 0 cs ∧ cs.flatten = D.response.body
  ret : s.ret = some 0

/-- The call did not suspend. -/
def completed : Ret → Bool
  | .notReady => false
  | _ => true

/-- **A download** touches no byte outside, returns after bounded calls, and is complete. -/
structure Downloads (D : Download) : Prop where
  inside : ∀ g, (getSystem D).Reach g → ¬ g.Faults D
  complete : ∀ g, (getSystem D).Reach g → g.client.pc = .done → Complete D g.client
  ends : ∀ g₀, (getSystem D).start g₀ → ∃ B, ∀ rs g, (getSystem D).Run g₀ rs g →
    rs.countP completed ≤ B ∧ (g.client.pc = .done ∨ ∃ r g', completed r = true ∧ (getSystem D).step g r g')

namespace Download

variable (D : Download)

/-- The first segment has all of the header. -/
def HeaderFirst : Prop := ∃ seg, D.segs.head? = some seg ∧ D.response.header.length ≤ seg.length

/-- The first segment ends behind a line and has the length; the rest begins with the body. -/
def Lucky : Prop :=
  ∃ k, D.response.before.length < k ∧
    D.segs.head? = some (D.response.statusLine ++ crlf ++ textOf (D.response.fields.take k)) ∧
    ∃ j, (D.segs.tail.take j).flatten = D.response.body

end Download

variable {D : Download} {g : Get} {s s' : Client} {r : Ret} {n : ℕ} {cs xs : List (List UInt8)} {b : Buf}

/-! ### What a step keeps -/

/-- The callbacks, what was sent, and what was delivered. -/
structure Kept (s s' : Client) : Prop where
  onRecv : s'.onRecv = s.onRecv
  output : s'.output = s.output
  sent : s'.sent = s.sent
  delivered : s'.delivered = s.delivered

theorem received_kept (s : Client) (n : ℕ) : Kept s (s.received n) := by
  unfold Client.received
  dsimp only
  split_ifs <;> exact ⟨rfl, rfl, rfl, rfl⟩

theorem deliver_kept (s : Client) (b : Buf) : Kept s (s.deliver b) := by
  unfold Client.deliver
  split_ifs
  · exact ⟨rfl, rfl, rfl, rfl⟩
  · exact received_kept s _
  · exact ⟨rfl, rfl, rfl, rfl⟩

theorem parsed_kept (s : Client) (b : Buf) (head : Head) : Kept s (s.parsed b head) := by
  unfold Client.parsed
  dsimp only
  split_ifs
  all_goals try exact ⟨rfl, rfl, rfl, rfl⟩
  have h := deliver_kept { s with respLength := head.respLength, buf := some { b with data := b.data.drop head.used } }
    { b with data := b.data.drop head.used }
  exact ⟨h.onRecv, h.output, h.sent, h.delivered⟩

theorem socket_kept (s : Client) (sock : Bool) : Kept s (s.socket sock) := by
  unfold Client.socket
  split_ifs <;> exact ⟨rfl, rfl, rfl, rfl⟩

/-- Only `vsfip_tcp_send` sends, and only `on_recv` is given something. -/
theorem step_kept (s : Client) (hsend : ∀ e, r ≠ .send e) (hrecv : ∀ e, r ≠ .onRecv e) : Kept s (s.step r) := by
  unfold Client.step
  cases r with
  | notReady | recvFail => exact ⟨rfl, rfl, rfl, rfl⟩
  | start pton sock =>
    dsimp only
    split_ifs
    · exact socket_kept s sock
    · exact ⟨rfl, rfl, rfl, rfl⟩
  | dns err sock =>
    dsimp only
    split_ifs
    · exact ⟨rfl, rfl, rfl, rfl⟩
    · exact socket_kept s sock
  | connect err request =>
    dsimp only
    split_ifs
    · exact ⟨rfl, rfl, rfl, rfl⟩
    · cases request <;> exact ⟨rfl, rfl, rfl, rfl⟩
  | send err => exact absurd rfl (hsend err)
  | recv data head =>
    let s₁ : Client := { s with
      buf := some ⟨s.fresh, data⟩, fresh := s.fresh + 1, log := { s.log with headOpen := false } }
    dsimp only
    split_ifs
    · have h := parsed_kept s₁ ⟨s.fresh, data⟩ head
      exact ⟨h.onRecv, h.output, h.sent, h.delivered⟩
    · have h := deliver_kept s₁ ⟨s.fresh, data⟩
      exact ⟨h.onRecv, h.output, h.sent, h.delivered⟩
  | onConnect err =>
    cases hb : s.buf with
    | none => exact ⟨rfl, rfl, rfl, rfl⟩
    | some b =>
      dsimp only
      split_ifs
      · exact ⟨rfl, rfl, rfl, rfl⟩
      · exact deliver_kept s b
  | onRecv err => exact absurd rfl (hrecv err)
  | close err =>
    dsimp only
    split_ifs <;> exact ⟨rfl, rfl, rfl, rfl⟩

/-! ### Up to the first segment -/

/-- The callbacks of a download. -/
structure Flags (s : Client) : Prop where
  onRecv : s.onRecv = true
  output : s.output = true

theorem Kept.flags (h : Kept s s') (hf : Flags s) : Flags s' := ⟨h.onRecv.trans hf.onRecv, h.output.trans hf.output⟩

/-- What was built as the request was sent. -/
def Sent (D : Download) (s : Client) : Prop :=
  ∃ data, buildreqGet D.url D.mem = some data ∧ s.sent.map Buf.data = [data]

/-- The client waits for the first segment. -/
structure First (s : Client) : Prop where
  respLength : s.respLength = 0
  respCurptr : s.respCurptr = 0
  delivered : s.delivered = []

/-- No segment was received yet. -/
def Get.Opening (D : Download) (g : Get) : Prop :=
  g.segs = D.segs ∧
    match g.client.pc with
    | .start | .dns | .connect => g.client.sent = [] ∧ g.client.delivered = []
    | .send => (g.client.sent = [] ∧ g.client.delivered = []) ∧
        ∃ b, g.client.buf = some b ∧ buildreqGet D.url D.mem = some b.data
    | .recv => Sent D g.client ∧ First g.client
    | _ => False

theorem step_flags (hf : Flags s) (r : Ret) : Flags (s.step r) := by
  cases r with
  | send err =>
    unfold Client.step
    dsimp only
    split_ifs <;> exact ⟨hf.onRecv, hf.output⟩
  | onRecv err =>
    unfold Client.step
    cases hb : s.buf with
    | none => exact hf
    | some b =>
      dsimp only
      split_ifs
      · exact ⟨hf.onRecv, hf.output⟩
      · have h := received_kept { s with buf := some b, delivered := s.delivered ++ [(s.respCurptr, b.data)] } b.data.length
        exact ⟨h.onRecv.trans hf.onRecv, h.output.trans hf.output⟩
  | notReady | start | dns | connect | recv | recvFail | onConnect | close =>
    exact (step_kept s (by simp) (by simp)).flags hf

theorem step_sent (hsend : ∀ e, r ≠ .send e) : (s.step r).sent = s.sent := by
  cases r with
  | onRecv err =>
    unfold Client.step
    cases hb : s.buf with
    | none => rfl
    | some b =>
      dsimp only
      split_ifs
      · rfl
      · exact (received_kept { s with buf := some b, delivered := s.delivered ++ [(s.respCurptr, b.data)] } b.data.length).sent
  | send err => exact absurd rfl (hsend err)
  | notReady | start | dns | connect | recv | recvFail | onConnect | close =>
    exact (step_kept s (by simp) (by simp)).sent

theorem Download.segs_ne_nil (D : Download) : D.segs ≠ [] := fun h => by
  have hw := D.whole
  rw [h, Response.bytes] at hw
  exact D.response.body_ne (append_eq_nil_iff.mp hw.symm).2

/-- A suspension leaves what the stages are about. -/
theorem Get.Opening.step (h : g.Opening D) (hl : g.client.Legal r) (ha : g.Answer D r) :
    (g.step r).Opening D ∨ ∃ data head, r = .recv data head ∧ D.segs.head? = some data ∧ prasehead 0 data = some head ∧
      g.client.pc = .recv ∧ Sent D g.client ∧ First g.client := by
  obtain ⟨hsegs, h⟩ := h
  cases r with
  | notReady =>
    refine .inl ⟨hsegs, ?_⟩
    rw [show (g.step .notReady).client.pc = g.client.pc from rfl]
    cases hpc : g.client.pc with
    | recv =>
      rw [hpc] at h
      exact ⟨h.1, h.2.respLength, h.2.respCurptr, h.2.delivered⟩
    | start | dns | connect | send | onConnect | onRecv | close | done =>
      rw [hpc] at h
      exact h
  | start pton sock =>
    rw [show g.client.pc = .start from hl] at h
    obtain rfl : sock = true := ha
    cases pton <;> exact .inl ⟨hsegs, h⟩
  | dns err sock =>
    rw [hl.1] at h
    obtain ⟨rfl, rfl⟩ : err = 0 ∧ sock = true := ha
    exact .inl ⟨hsegs, h⟩
  | connect err request =>
    rw [hl.1] at h
    obtain ⟨rfl, data, hdata, rfl⟩ := ha
    exact .inl ⟨hsegs, h, _, rfl, hdata⟩
  | send err =>
    rw [hl.1] at h
    obtain rfl : err = 0 := ha
    obtain ⟨⟨hsent, hdel⟩, b, hb, hdata⟩ := h
    refine .inl ⟨hsegs, ⟨b.data, hdata, ?_⟩, rfl, rfl, hdel⟩
    show (g.client.sent ++ g.client.buf.toList).map Buf.data = [b.data]
    rw [hsent, hb]
    rfl
  | recv data head =>
    have hpc : g.client.pc = .recv := hl
    rw [hpc] at h
    obtain ⟨hdata, hhead⟩ := ha
    exact .inr ⟨data, head, rfl, hsegs ▸ hdata, hhead h.2.respLength, hpc, h⟩
  | recvFail err kept => exact absurd (hsegs.symm.trans ha) D.segs_ne_nil
  | onConnect | onRecv | close =>
    rw [hl.1] at h
    exact h.elim

/-- **The stages of a run**: before the first segment, then a `P` that the steps keep. -/
theorem reach_stage {P : Get → Prop}
    (hfirst : ∀ s data head, Flags s → First s → D.segs.head? = some data → prasehead 0 data = some head →
      P ⟨s.step (.recv data head), D.segs.tail⟩)
    (hstep : ∀ g r, Flags g.client → P g → g.client.Legal r → g.Answer D r → P (g.step r))
    (hsend : ∀ g, P g → g.client.pc ≠ .send) (h : (getSystem D).Reach g) :
    Flags g.client ∧ (g.Opening D ∨ Sent D g.client ∧ P g) := by
  refine h.invariant (P := fun g => Flags g.client ∧ (g.Opening D ∨ Sent D g.client ∧ P g)) ?_ ?_
  · rintro g ⟨hs, hdel, ⟨h1, h2⟩, hsegs⟩
    refine ⟨⟨h1, h2⟩, .inl ⟨hsegs, ?_⟩⟩
    rw [hs.pc]
    exact ⟨hs.sent, hdel⟩
  · rintro g r g' - ⟨hf, hg⟩ ⟨hl, ha, rfl⟩
    have hclient : (g.step r).client = g.client.step r := by cases r <;> rfl
    refine ⟨hclient ▸ step_flags hf r, ?_⟩
    rcases hg with ho | ⟨hs, hp⟩
    · rcases ho.step hl ha with ho | ⟨data, head, rfl, hdata, hhead, hpc, hs, hfst⟩
      · exact .inl ho
      · refine .inr ⟨?_, ?_⟩
        · have hk := step_kept g.client (r := .recv data head) (by simp) (by simp)
          obtain ⟨d, hd, hd'⟩ := hs
          exact ⟨d, hd, by rw [hclient, hk.sent, hd']⟩
        · rw [Get.step, ho.1]
          exact hfirst g.client data head hf hfst hdata hhead
    · refine .inr ⟨?_, hstep g r hf hp hl ha⟩
      obtain ⟨d, hd, hd'⟩ := hs
      refine ⟨d, hd, ?_⟩
      rw [hclient, ← hd', step_sent fun e he => hsend g hp (by rw [he] at hl; exact hl.1)]

/-! ### The body -/

variable {segs : List (List UInt8)} {e : Int}

/-- However many of the pieces were delivered, `resp_curptr` was below the length. -/
def Short (n : ℕ) (cs : List (List UInt8)) : Prop := ∀ xs, xs <+: cs → xs.flatten.length % 2 ^ 32 < n

/-- The pieces `cs` were delivered, of a body of `n` bytes. -/
structure Going (n : ℕ) (cs : List (List UInt8)) (s : Client) : Prop where
  delivered : s.delivered = pieces 0 cs
  respLength : s.respLength = UInt32.ofNat n
  respCurptr : s.respCurptr = UInt32.ofNat cs.flatten.length
  short : Short n cs

/-- Nothing more of `cs` is delivered, and the client returns `e`. -/
def Over (n : ℕ) (cs segs : List (List UInt8)) (s : Client) (e : Int) : Prop :=
  ∃ xs, cs = xs ++ segs ∧ s.delivered = pieces 0 xs ∧
    ((segs = [] ∧ Short n xs) ∨
      (e = 0 ∧ ∃ ys b, xs = ys ++ [b] ∧ Short n ys ∧ n ≤ xs.flatten.length % 2 ^ 32))

/-- What `on_recv` is called with for a buffer, if it is. -/
def piece (data : List UInt8) : List (List UInt8) := if data = [] then [] else [data]

/-- The header is behind the client, which delivers the pieces `cs`. -/
def Stream (n : ℕ) (cs : List (List UInt8)) (g : Get) : Prop :=
  match g.client.pc with
  | .recv => ∃ xs, cs = xs ++ g.segs ∧ Going n xs g.client
  | .onConnect => ∃ b, g.client.buf = some b ∧ cs = piece b.data ++ g.segs ∧ Going n [] g.client
  | .onRecv => ∃ xs b, g.client.buf = some b ∧ cs = xs ++ b.data :: g.segs ∧ Going n xs g.client
  | .close => Over n cs g.segs g.client g.client.err
  | .done => ∃ e, g.client.ret = some e ∧ Over n cs g.segs g.client e
  | _ => False

theorem pieces_append (k : ℕ) : ∀ (cs : List (List UInt8)) (c : List UInt8),
    pieces k (cs ++ [c]) = pieces k cs ++ [(UInt32.ofNat (k + cs.flatten.length), c)]
  | [], c => rfl
  | d :: cs, c => by
    rw [cons_append, pieces, pieces, pieces_append _ cs c, cons_append, flatten_cons, length_append,
      add_assoc]

theorem pieces_snd (k : ℕ) : ∀ cs : List (List UInt8), (pieces k cs).map Prod.snd = cs
  | [] => rfl
  | c :: cs => by rw [pieces, map_cons, pieces_snd _ cs]

theorem Short.pos (h : Short n cs) : 0 < n := h [] nil_prefix

theorem Short.snoc (h : Short n cs) {c : List UInt8} (hc : (cs ++ [c]).flatten.length % 2 ^ 32 < n) : Short n (cs ++ [c]) :=
  fun xs hx => (prefix_concat_iff.mp hx).elim (fun he => he ▸ hc) fun hp => h xs hp

theorem ofNat_ne_zero (hpos : 0 < n) (hn : n < 2 ^ 31) : UInt32.ofNat n ≠ 0 := fun h => by
  have h0 := congrArg UInt32.toNat h
  rw [UInt32.toNat_ofNat', Nat.mod_eq_of_lt (by omega)] at h0
  exact hpos.ne' h0

theorem Going.deliver (hf : Flags s) (hn : n < 2 ^ 31) (h : Going n xs s) (hb : s.buf = some b)
    (hcs : cs = xs ++ (piece b.data ++ segs)) : Stream n cs ⟨s.deliver b, segs⟩ := by
  unfold Client.deliver
  by_cases hd : b.data = []
  · rw [if_neg fun hp => hp.2 hd]
    refine ⟨xs, ?_, h.delivered, h.respLength, h.respCurptr, h.short⟩
    rw [hcs, piece, if_pos hd]
    rfl
  · have hpos : 0 < s.respLength := by
      rw [h.respLength]
      exact UInt32.pos_iff_ne_zero.mpr (ofNat_ne_zero h.short.pos hn)
    rw [if_pos ⟨hpos, hd⟩, if_pos hf.onRecv]
    refine ⟨xs, b, hb, ?_, h.delivered, h.respLength, h.respCurptr, h.short⟩
    rw [hcs, piece, if_neg hd]
    rfl

theorem Going.received (hn : n < 2 ^ 31) (h : Going n xs s) (hb : s.buf = some b) (hcs : cs = xs ++ b.data :: segs) :
    Stream n cs ⟨s.step (.onRecv 0), segs⟩ := by
  have hdel : s.delivered ++ [(s.respCurptr, b.data)] = pieces 0 (xs ++ [b.data]) := by
    rw [pieces_append, h.delivered, h.respCurptr, zero_add]
  have hcur : s.respCurptr + UInt32.ofNat b.data.length = UInt32.ofNat (xs ++ [b.data]).flatten.length := by
    rw [h.respCurptr, ← UInt32.ofNat_add, flatten_append, length_append]
    simp
  have hle : s.respLength ≤ s.respCurptr + UInt32.ofNat b.data.length ↔
      n ≤ (xs ++ [b.data]).flatten.length % 2 ^ 32 := by
    rw [hcur, h.respLength, UInt32.le_iff_toNat_le, UInt32.toNat_ofNat', UInt32.toNat_ofNat',
      Nat.mod_eq_of_lt (show n < 2 ^ 32 by omega)]
  have hcs' : cs = (xs ++ [b.data]) ++ segs := by
    rw [hcs, append_assoc]
    rfl
  unfold Client.step
  rw [hb]
  dsimp only
  rw [if_neg (lt_irrefl _)]
  unfold Client.received
  dsimp only
  split_ifs with hend
  · exact ⟨_, hcs', hdel, .inr ⟨rfl, xs, b.data, rfl, h.short, hle.mp hend⟩⟩
  · exact ⟨_, hcs', hdel, h.respLength, hcur, h.short.snoc (Nat.lt_of_not_le fun hc => hend (hle.mpr hc))⟩

/-- **Delivering goes on**, a case for each call. -/
theorem Stream.step (hne : ∀ c ∈ cs, c ≠ []) (hn : n < 2 ^ 31) (hf : Flags g.client) (h : Stream n cs g)
    (hl : g.client.Legal r) (ha : g.Answer D r) : Stream n cs (g.step r) := by
  unfold Stream at h
  cases r with
  | notReady =>
    unfold Stream
    rw [show (g.step .notReady).client.pc = g.client.pc from rfl]
    cases hpc : g.client.pc with
    | start | dns | connect | send =>
      rw [hpc] at h
      exact h
    | recv =>
      rw [hpc] at h
      obtain ⟨xs, hcs, hg⟩ := h
      exact ⟨xs, hcs, hg.delivered, hg.respLength, hg.respCurptr, hg.short⟩
    | onConnect =>
      rw [hpc] at h
      obtain ⟨b, hb, hcs, hg⟩ := h
      exact ⟨b, hb, hcs, hg.delivered, hg.respLength, hg.respCurptr, hg.short⟩
    | onRecv =>
      rw [hpc] at h
      obtain ⟨xs, b, hb, hcs, hg⟩ := h
      exact ⟨xs, b, hb, hcs, hg.delivered, hg.respLength, hg.respCurptr, hg.short⟩
    | close =>
      rw [hpc] at h
      obtain ⟨xs, hcs, hdel, hend⟩ := h
      exact ⟨xs, hcs, hdel, hend.imp_right fun he => ⟨rfl, he.2⟩⟩
    | done => exact absurd hpc hl.2
  | start pton sock =>
    rw [show g.client.pc = .start from hl] at h
    exact h.elim
  | dns | connect | send =>
    rw [hl.1] at h
    exact h.elim
  | recv data head =>
    rw [show g.client.pc = .recv from hl] at h
    obtain ⟨xs, hcs, hg⟩ := h
    obtain ⟨segs, hsegs⟩ : ∃ segs, g.segs = data :: segs := by
      obtain ⟨hd, -⟩ := ha
      cases hs : g.segs with
      | nil => rw [hs] at hd; cases hd
      | cons d ds =>
        rw [hs] at hd
        obtain rfl : d = data := some.inj hd
        exact ⟨ds, rfl⟩
    rw [hsegs] at hcs
    have hdata : data ≠ [] := hne data (hcs ▸ mem_append_right _ mem_cons_self)
    have hzero : g.client.respLength ≠ 0 := by
      rw [hg.respLength]
      exact ofNat_ne_zero hg.short.pos hn
    have hg₁ : Going n xs { g.client with
        buf := some ⟨g.client.fresh, data⟩, fresh := g.client.fresh + 1, log := { g.client.log with headOpen := false } } :=
      ⟨hg.delivered, hg.respLength, hg.respCurptr, hg.short⟩
    unfold Get.step Client.step
    dsimp only
    rw [if_neg hzero, hsegs]
    refine hg₁.deliver ⟨hf.onRecv, hf.output⟩ hn rfl ?_
    rw [hcs, piece, if_neg hdata]
    rfl
  | recvFail err kept =>
    rw [hl.1] at h
    obtain ⟨xs, hcs, hg⟩ := h
    exact ⟨xs, hcs, hg.delivered, .inl ⟨ha, hg.short⟩⟩
  | onConnect err =>
    rw [hl.1] at h
    obtain ⟨b, hb, hcs, hg⟩ := h
    obtain rfl : err = 0 := ha
    unfold Get.step Client.step
    rw [hb]
    exact hg.deliver hf hn hb hcs
  | onRecv err =>
    rw [hl.1] at h
    obtain ⟨xs, b, hb, hcs, hg⟩ := h
    obtain rfl : err = 0 := ha
    exact hg.received hn hb hcs
  | close err =>
    rw [hl.1] at h
    obtain rfl : err = 0 := ha
    exact ⟨g.client.err, rfl, h⟩

theorem Over.delivered (h : Over n cs segs s e) : ∃ i, s.delivered = pieces 0 (cs.take i) := by
  obtain ⟨xs, rfl, hdel, -⟩ := h
  exact ⟨xs.length, by rw [take_left, hdel]⟩

theorem Over.body {body : List UInt8} {j : ℕ} (hbody : (cs.take j).flatten = body) (hlen : body.length = n)
    (hn : n < 2 ^ 31) (h : Over n cs segs s e) : e = 0 ∧ ∃ xs, s.delivered = pieces 0 xs ∧ xs.flatten = body := by
  obtain ⟨xs, hcs, hdel, hend⟩ := h
  have hshort : ∀ ys, cs.take j <+: ys → ¬ Short n ys := fun ys hp hs => by
    have hlt := hs _ hp
    rw [hbody, hlen, Nat.mod_eq_of_lt (by omega)] at hlt
    exact lt_irrefl _ hlt
  rcases hend with ⟨hnil, hs⟩ | ⟨he, ys, b, hxs, hs, hge⟩
  · rw [hnil, append_nil] at hcs
    exact absurd hs (hshort xs (hcs ▸ take_prefix _ _))
  · refine ⟨he, xs, hdel, ?_⟩
    rcases prefix_or_prefix_of_prefix (List.take_prefix j cs) ⟨segs, hcs.symm⟩ with hp | ⟨zs, hz⟩
    · rw [hxs] at hp
      rcases prefix_concat_iff.mp hp with heq | hp
      · rw [hxs, ← heq, hbody]
      · exact absurd hs (hshort ys hp)
    · have hflat : xs.flatten <+: body := by
        rw [← hbody, ← hz, flatten_append]
        exact prefix_append _ _
      exact hflat.eq_of_length_le (by omega)

/-! ### A second header -/

/-- The first segment ended before the length. -/
def Get.Lost (D : Download) (g : Get) : Prop :=
  match g.client.pc with
  | .recv => g.client.respLength = 0 ∧ g.client.delivered = [] ∧ g.segs = D.segs.tail
  | .close | .done => g.client.delivered = []
  | _ => False

theorem Get.Lost.step (hlater : ∀ seg head, D.segs.tail.head? = some seg → prasehead 0 seg = some head → head.ret < 0)
    (h : g.Lost D) (hl : g.client.Legal r) (ha : g.Answer D r) : (g.step r).Lost D := by
  unfold Get.Lost at h
  cases r with
  | notReady =>
    unfold Get.Lost
    rw [show (g.step .notReady).client.pc = g.client.pc from rfl]
    cases hpc : g.client.pc with
    | start | dns | connect | send | recv | onConnect | onRecv | close | done =>
      rw [hpc] at h
      exact h
  | start pton sock =>
    rw [show g.client.pc = .start from hl] at h
    exact h.elim
  | dns | connect | send | onConnect | onRecv =>
    rw [hl.1] at h
    exact h.elim
  | recv data head =>
    rw [show g.client.pc = .recv from hl] at h
    obtain ⟨hzero, hdel, hsegs⟩ := h
    have hneg := hlater data head (hsegs ▸ ha.1) (ha.2 hzero)
    unfold Get.step Client.step
    dsimp only
    rw [if_pos hzero]
    unfold Client.parsed
    rw [if_neg (not_lt.mpr hneg.le), if_pos hneg]
    exact hdel
  | recvFail err kept =>
    rw [hl.1] at h
    exact h.2.1
  | close err =>
    rw [hl.1] at h
    obtain rfl : err = 0 := ha
    exact h

/-! ### The first segment -/

theorem first_segment (D : Download) : ∃ seg segs, D.segs = seg :: segs ∧
    ((D.response.size < 2 ^ 31 ∧ prasehead 0 seg = some ⟨0, UInt32.ofNat D.response.size, D.response.header.length⟩ ∧
        ∃ x, seg = D.response.header ++ x ∧ x ++ segs.flatten = D.response.body) ∨
      prasehead 0 seg = none ∨
      ((∃ k, prasehead 0 seg = some ⟨1, 0, k⟩) ∧ ∃ F rest, segs.flatten = Field.line F ++ rest) ∨
      D.response.size < 2 ^ 31 ∧ (∃ k, prasehead 0 seg = some ⟨1, UInt32.ofNat D.response.size, k⟩) ∧
        ∃ k, D.response.before.length < k ∧
          seg = D.response.statusLine ++ crlf ++ textOf (D.response.fields.take k)) := by
  obtain ⟨seg, segs, hsegs⟩ := exists_cons_of_ne_nil D.segs_ne_nil
  have hwhole : seg ++ segs.flatten = D.response.header ++ D.response.body := by
    rw [← flatten_cons, ← hsegs]
    exact D.whole
  refine ⟨seg, segs, hsegs, ?_⟩
  rcases lt_or_ge seg.length D.response.header.length with hlt | hge
  · have hcut : seg <+: D.response.header :=
      prefix_of_prefix_length_le ⟨_, hwhole⟩ (prefix_append _ _) hlt.le
    rcases header_cut hcut hlt with ⟨hstatus, hline⟩ | ⟨k, p, hk, hseg, hp⟩
    · exact .inr (.inl (prasehead_short hstatus hline))
    · by_cases hne : p = []
      · rw [hne, append_nil] at hseg
        have hlines := prasehead_lines (R := D.response) k
        rw [← hseg] at hlines
        split_ifs at hlines with hbefore hsize
        · refine .inr (.inr (.inl ⟨⟨_, hlines⟩, ?_⟩))
          have hfields : textOf D.response.fields =
              textOf (D.response.fields.take k) ++ textOf (D.response.fields.drop k) := by
            rw [← textOf_append, take_append_drop]
          have hmore : k < D.response.fields.length := by
            unfold Response.fields
            rw [length_append, length_cons]
            omega
          rw [hseg, Response.header, hfields] at hwhole
          simp only [append_assoc, append_cancel_left_eq] at hwhole
          rw [drop_eq_getElem_cons hmore, textOf_cons] at hwhole
          exact ⟨_, _, hwhole⟩
        · exact .inr (.inr (.inr ⟨hsize, ⟨_, hlines⟩, k, Nat.lt_of_not_le hbefore, hseg⟩))
        · exact .inr (.inl hlines)
      · exact .inr (.inl (hseg ▸ prasehead_inside k hne hp))
  · have hpre : D.response.header <+: seg := prefix_of_prefix_length_le (prefix_append _ _) ⟨_, hwhole⟩ hge
    obtain ⟨x, rfl⟩ := hpre
    rw [append_assoc] at hwhole
    have hhead := prasehead_whole (R := D.response) x
    split_ifs at hhead with hsize
    · exact .inl ⟨hsize, hhead, x, rfl, append_cancel_left hwhole⟩
    · exact .inr (.inl hhead)

/-- The whole header came: the rest of the segment is the first piece. -/
theorem whole_stream {x : List UInt8} (hn : D.response.size < 2 ^ 31)
    (hhead : prasehead 0 (D.response.header ++ x) = some ⟨0, UInt32.ofNat D.response.size, D.response.header.length⟩)
    (hsegs : D.segs = (D.response.header ++ x) :: segs) (h : (getSystem D).Reach g) :
    Flags g.client ∧ (g.Opening D ∨ Sent D g.client ∧ Stream D.response.size (piece x ++ segs) g) := by
  have hpos : 0 < D.response.size := length_pos_iff.mpr D.response.body_ne
  have hne : ∀ c ∈ piece x ++ segs, c ≠ [] := by
    intro c hc
    rcases mem_append.mp hc with hx | hc
    · unfold piece at hx
      split_ifs at hx with hx0
      · exact absurd hx not_mem_nil
      · exact mem_singleton.mp hx ▸ hx0
    · exact D.segs_ne c (hsegs ▸ mem_cons_of_mem _ hc)
  refine reach_stage ?_ (fun g r hf hs hl ha => hs.step hne hn hf hl ha) ?_ h
  · intro s data head hf hfst hdata hhd
    rw [hsegs] at hdata
    obtain rfl : D.response.header ++ x = data := some.inj hdata
    obtain rfl : _ = head := some.inj (hhead.symm.trans hhd)
    have hzero := ofNat_ne_zero hpos hn
    set b : Buf := ⟨s.fresh, x⟩ with hb
    have hdrop : (D.response.header ++ x).drop D.response.header.length = x := drop_left
    have hgoing : Going D.response.size [] { s with
        buf := some b, fresh := s.fresh + 1, log := { s.log with headOpen := false }
        respLength := UInt32.ofNat D.response.size } := by
      refine ⟨hfst.delivered, rfl, hfst.respCurptr, fun xs hxs => ?_⟩
      rw [prefix_nil.mp hxs]
      exact hpos
    unfold Client.step
    dsimp only
    rw [if_pos hfst.respLength]
    unfold Client.parsed
    rw [if_neg (lt_irrefl _), if_neg (lt_irrefl _), hdrop, if_neg (not_or.mpr ⟨hzero, by rw [hf.output]; nofun⟩), hsegs,
      tail_cons]
    split_ifs
    · exact ⟨b, rfl, rfl, hgoing.delivered, hgoing.respLength, hgoing.respCurptr, hgoing.short⟩
    · exact hgoing.deliver ⟨hf.onRecv, hf.output⟩ hn rfl rfl
  · intro g hs hpc
    unfold Stream at hs
    rw [hpc] at hs
    exact hs

variable {seg : List UInt8} {k : ℕ}

/-- The length came and the header went on: what follows is taken for the body. -/
theorem lines_stream (hn : D.response.size < 2 ^ 31)
    (hhead : prasehead 0 seg = some ⟨1, UInt32.ofNat D.response.size, k⟩) (hsegs : D.segs = seg :: segs)
    (h : (getSystem D).Reach g) : Flags g.client ∧ (g.Opening D ∨ Sent D g.client ∧ Stream D.response.size segs g) := by
  have hpos : 0 < D.response.size := length_pos_iff.mpr D.response.body_ne
  have hne : ∀ c ∈ segs, c ≠ [] := fun c hc => D.segs_ne c (hsegs ▸ mem_cons_of_mem _ hc)
  refine reach_stage ?_ (fun g r hf hs hl ha => hs.step hne hn hf hl ha) ?_ h
  · intro s data head hf hfst hdata hhd
    rw [hsegs] at hdata
    obtain rfl : seg = data := some.inj hdata
    obtain rfl : _ = head := some.inj (hhead.symm.trans hhd)
    unfold Client.step
    dsimp only
    rw [if_pos hfst.respLength]
    unfold Client.parsed
    dsimp only
    rw [if_pos (by decide), hsegs, tail_cons]
    refine ⟨[], rfl, hfst.delivered, rfl, hfst.respCurptr, fun xs hxs => ?_⟩
    rw [prefix_nil.mp hxs]
    exact hpos
  · intro g hs hpc
    unfold Stream at hs
    rw [hpc] at hs
    exact hs

theorem lines_lost {rest : List UInt8} {F : Field} (hhead : prasehead 0 seg = some ⟨1, 0, k⟩)
    (hsegs : D.segs = seg :: segs) (hline : segs.flatten = F.line ++ rest) (h : (getSystem D).Reach g) :
    Flags g.client ∧ (g.Opening D ∨ Sent D g.client ∧ g.Lost D) := by
  have hlater : ∀ seg head, D.segs.tail.head? = some seg → prasehead 0 seg = some head → head.ret < 0 := by
    intro seg' head hd hh
    rw [hsegs, tail_cons] at hd
    obtain ⟨tl, rfl⟩ := head?_eq_some_iff.mp hd
    rw [flatten_cons] at hline
    have hret : prasehead 0 seg' = none ∨ prasehead 0 seg' = some ⟨-6, 0, 0⟩ := prasehead_later ⟨_, hline⟩
    rcases hret with hnone | hsome
    · rw [hnone] at hh
      cases hh
    · obtain rfl := some.inj (hsome.symm.trans hh)
      decide
  refine reach_stage ?_ (fun g r _ hs hl ha => hs.step hlater hl ha) ?_ h
  · intro s data head hf hfst hdata hhd
    rw [hsegs] at hdata
    obtain rfl : seg = data := some.inj hdata
    obtain rfl : _ = head := some.inj (hhead.symm.trans hhd)
    unfold Client.step
    dsimp only
    rw [if_pos hfst.respLength]
    unfold Client.parsed
    dsimp only
    rw [if_pos (by decide)]
    exact ⟨rfl, hfst.delivered, rfl⟩
  · intro g hs hpc
    unfold Get.Lost at hs
    rw [hpc] at hs
    exact hs

theorem fault_opening (hhead : prasehead 0 seg = none) (hsegs : D.segs = seg :: segs)
    (h : (getSystem D).Reach g) : g.Opening D := by
  have hstage := reach_stage (D := D) (P := fun _ => False) ?_ (fun _ _ _ hp => hp.elim) (fun _ hp => hp.elim) h
  · exact hstage.2.resolve_right fun hp => hp.2
  · intro s data head _ _ hdata hhd
    rw [hsegs] at hdata
    obtain rfl : seg = data := some.inj hdata
    rw [hhead] at hhd
    cases hhd

/-! ### How long it takes -/

/-- How many calls can follow until the next segment is needed. -/
def weight : Pc → ℕ
  | .start => 7
  | .dns => 6
  | .connect => 5
  | .send => 4
  | .recv => 3
  | .onConnect => 5
  | .onRecv => 4
  | .close => 1
  | .done => 0

/-- A bound on the calls that can still return. -/
def work (g : Get) : ℕ := 3 * g.segs.length + weight g.client.pc

theorem received_weight (s : Client) (n : ℕ) : weight (s.received n).pc ≤ 3 := by
  unfold Client.received
  dsimp only
  split_ifs
  · exact (show 1 ≤ 3 by decide)
  · exact le_refl 3

theorem deliver_weight (s : Client) (b : Buf) : weight (s.deliver b).pc ≤ 4 := by
  unfold Client.deliver
  split_ifs
  · exact le_refl 4
  · exact (received_weight s _).trans (by decide)
  · exact (show 3 ≤ 4 by decide)

theorem parsed_weight (s : Client) (b : Buf) (head : Head) : weight (s.parsed b head).pc ≤ 5 := by
  unfold Client.parsed
  dsimp only
  split_ifs
  · exact (show 3 ≤ 5 by decide)
  · exact (show 1 ≤ 5 by decide)
  · exact (show 1 ≤ 5 by decide)
  · exact le_refl 5
  · exact (deliver_weight _ _).trans (by decide)

theorem socket_weight (s : Client) (sock : Bool) : weight (s.socket sock).pc ≤ 5 := by
  unfold Client.socket
  split_ifs
  · exact le_refl 5
  · exact Nat.zero_le _

theorem work_step (hp : Place g.client) (hl : g.client.Legal r) (ha : g.Answer D r) :
    work (g.step r) + (if completed r then 1 else 0) ≤ work g := by
  unfold work
  cases r with
  | notReady => exact le_refl _
  | start pton sock =>
    rw [show g.client.pc = .start from hl]
    have hs := socket_weight g.client sock
    show 3 * g.segs.length + weight (if pton then g.client.socket sock else { g.client with pc := .dns }).pc + 1 ≤ _
    split_ifs
    · exact Nat.add_le_add_left (show _ + 1 ≤ 7 by omega) (3 * g.segs.length)
    · exact le_refl _
  | dns err sock =>
    rw [hl.1]
    obtain ⟨rfl, rfl⟩ : err = 0 ∧ sock = true := ha
    exact le_refl _
  | connect err request =>
    rw [hl.1]
    obtain ⟨rfl, data, -, rfl⟩ := ha
    exact le_refl _
  | send err =>
    rw [hl.1]
    obtain rfl : err = 0 := ha
    exact le_refl _
  | recv data head =>
    rw [show g.client.pc = .recv from hl]
    obtain ⟨segs, hsegs⟩ := head?_eq_some_iff.mp ha.1
    have hweight : weight (g.client.step (.recv data head)).pc ≤ 5 := by
      unfold Client.step
      dsimp only
      split_ifs
      · exact parsed_weight _ _ _
      · exact (deliver_weight _ _).trans (by decide)
    show 3 * g.segs.tail.length + weight (g.client.step (.recv data head)).pc + 1 ≤ 3 * g.segs.length + 3
    rw [hsegs, tail_cons, length_cons]
    omega
  | recvFail err kept =>
    rw [hl.1]
    exact Nat.add_le_add_left (show 1 + 1 ≤ 3 by decide) (3 * g.segs.length)
  | onConnect err =>
    obtain rfl : err = 0 := ha
    unfold Place at hp
    rw [hl.1] at hp ⊢
    obtain ⟨b, hb⟩ := hp
    have hstep : g.client.step (.onConnect 0) = g.client.deliver b := by
      unfold Client.step
      rw [hb.buf]
      rfl
    have hd := deliver_weight g.client b
    show 3 * g.segs.length + weight (g.client.step (.onConnect 0)).pc + 1 ≤ 3 * g.segs.length + 5
    rw [hstep]
    omega
  | onRecv err =>
    obtain rfl : err = 0 := ha
    unfold Place at hp
    rw [hl.1] at hp ⊢
    obtain ⟨b, hb⟩ := hp
    have hd := received_weight { g.client with
      buf := some b, delivered := g.client.delivered ++ [(g.client.respCurptr, b.data)] } b.data.length
    have hweight : weight (g.client.step (.onRecv 0)).pc ≤ 3 := by
      unfold Client.step
      rw [hb.buf]
      exact hd
    show 3 * g.segs.length + weight (g.client.step (.onRecv 0)).pc + 1 ≤ 3 * g.segs.length + 4
    omega
  | close err =>
    rw [hl.1]
    obtain rfl : err = 0 := ha
    exact le_refl _

theorem reach_client (h : (getSystem D).Reach g) : system.Reach g.client := by
  refine h.invariant (P := fun g => system.Reach g.client) ?_ ?_
  · rintro g ⟨hs, -⟩
    exact .start (show system.start g.client from hs)
  · rintro g r g' - hr ⟨hl, -, rfl⟩
    have hclient : (g.step r).client = g.client.step r := by cases r <;> rfl
    rw [hclient]
    exact hr.step ⟨hl, rfl⟩

theorem run_work {g' : Get} {rs : List Ret} (h : (getSystem D).Run g rs g') (hr : (getSystem D).Reach g) :
    rs.countP completed + work g' ≤ work g := by
  induction h with
  | nil => simp
  | @cons g g₁ g' r rs hst hrun ih =>
    have ih := ih (hr.step hst)
    obtain ⟨hl, ha, rfl⟩ := hst
    have hstep := work_step (reach_place (reach_client hr)) hl ha
    rw [countP_cons]
    omega

theorem goes_on (hpc : g.client.pc ≠ .done) (hin : ¬ g.Faults D) :
    ∃ r g', completed r = true ∧ (getSystem D).step g r g' := by
  unfold Get.Faults at hin
  cases h : g.client.pc with
  | done => exact absurd h hpc
  | start => exact ⟨.start true true, _, rfl, h, rfl, rfl⟩
  | dns => exact ⟨.dns 0 true, _, rfl, ⟨h, le_refl _⟩, ⟨rfl, rfl⟩, rfl⟩
  | connect =>
    rw [h] at hin
    obtain ⟨data, hdata⟩ := ne_none_iff_exists'.mp hin
    exact ⟨.connect 0 (some data), _, rfl, ⟨h, le_refl _⟩, ⟨rfl, data, hdata, rfl⟩, rfl⟩
  | send => exact ⟨.send 0, _, rfl, ⟨h, le_refl _⟩, rfl, rfl⟩
  | onConnect => exact ⟨.onConnect 0, _, rfl, ⟨h, le_refl _⟩, rfl, rfl⟩
  | onRecv => exact ⟨.onRecv 0, _, rfl, ⟨h, le_refl _⟩, rfl, rfl⟩
  | close => exact ⟨.close 0, _, rfl, ⟨h, le_refl _⟩, rfl, rfl⟩
  | recv =>
    rw [h] at hin
    cases hsegs : g.segs with
    | nil => exact ⟨.recvFail (-6) false, _, rfl, ⟨h, by decide⟩, hsegs, rfl⟩
    | cons seg segs =>
      have hhead : g.segs.head? = some seg := by rw [hsegs]; rfl
      by_cases hzero : g.client.respLength = 0
      · obtain ⟨head, hh⟩ := ne_none_iff_exists'.mp fun hnone => hin ⟨hzero, seg, hhead, hnone⟩
        exact ⟨.recv seg head, _, rfl, h, ⟨hhead, fun _ => hh⟩, rfl⟩
      · exact ⟨.recv seg ⟨0, 0, 0⟩, _, rfl, h, ⟨hhead, fun h0 => absurd h0 hzero⟩, rfl⟩

/-! ### When a download is right -/

theorem getSystem_start (D : Download) : (getSystem D).start ⟨idle, D.segs⟩ := ⟨idle_start, rfl, ⟨rfl, rfl⟩, rfl⟩

theorem Get.Opening.not_done (h : g.Opening D) : g.client.pc ≠ .done := fun hpc => by
  unfold Get.Opening at h
  rw [hpc] at h
  exact h.2

theorem Downloads.done (h : Downloads D) : ∃ g, (getSystem D).Reach g ∧ g.client.pc = .done := by
  obtain ⟨B, hends⟩ := h.ends _ (getSystem_start D)
  obtain ⟨rs, g, hrun, hpc⟩ := System.Run.exists_end hends
  exact ⟨g, hrun.reach (.start (getSystem_start D)), hpc⟩

theorem Complete.request (h : Complete D s) (hs : Sent D s) : buildreqGet D.url D.mem = some (request D.url) := by
  obtain ⟨data, hdata, hsent⟩ := hs
  rw [hdata, (List.cons.inj (hsent.symm.trans h.sent)).1]

theorem stream_downloads {head : Head} {j : ℕ}
    (hreq : buildreqGet D.url D.mem = some (request D.url)) (hn : D.response.size < 2 ^ 31)
    (hsegs : D.segs = seg :: segs) (hhead : prasehead 0 seg = some head)
    (hstage : ∀ g, (getSystem D).Reach g →
      Flags g.client ∧ (g.Opening D ∨ Sent D g.client ∧ Stream D.response.size cs g))
    (hbody : (cs.take j).flatten = D.response.body) : Downloads D := by
  have hpos : 0 < D.response.size := length_pos_iff.mpr D.response.body_ne
  have hinside : ∀ g, (getSystem D).Reach g → ¬ g.Faults D := by
    intro g hr hfault
    unfold Get.Faults at hfault
    obtain ⟨-, ho | ⟨-, hs⟩⟩ := hstage g hr
    · obtain ⟨hgs, -⟩ := ho
      cases hpc : g.client.pc with
      | connect =>
        rw [hpc, hreq] at hfault
        cases hfault
      | recv =>
        rw [hpc, hgs, hsegs] at hfault
        obtain ⟨-, x, hx, hnone⟩ := hfault
        obtain rfl : seg = x := some.inj hx
        rw [hhead] at hnone
        cases hnone
      | start | dns | send | onConnect | onRecv | close | done =>
        rw [hpc] at hfault
        exact hfault
    · unfold Stream at hs
      cases hpc : g.client.pc with
      | recv =>
        rw [hpc] at hfault hs
        obtain ⟨xs, -, hg⟩ := hs
        exact ofNat_ne_zero hpos hn (hg.respLength.symm.trans hfault.1)
      | connect =>
        rw [hpc] at hs
        exact hs
      | start | dns | send | onConnect | onRecv | close | done =>
        rw [hpc] at hfault
        exact hfault
  refine ⟨hinside, fun g hr hpc => ?_, fun g₀ h0 => ⟨work g₀, fun rs g hrun => ?_⟩⟩
  · obtain ⟨-, ho | ⟨⟨data, hdata, hsent⟩, hs⟩⟩ := hstage g hr
    · exact absurd hpc ho.not_done
    · unfold Stream at hs
      rw [hpc] at hs
      obtain ⟨e, hret, hover⟩ := hs
      obtain ⟨rfl, hdel⟩ := hover.body hbody rfl hn
      obtain rfl := some.inj (hreq.symm.trans hdata)
      exact ⟨hsent, hdel, hret⟩
  · have hwork := run_work hrun (.start h0)
    refine ⟨by omega, ?_⟩
    by_cases hpc : g.client.pc = .done
    · exact .inl hpc
    · exact .inr (goes_on hpc (hinside g (hrun.reach (.start h0))))

/-- **When a download is right**: the request is, the length fits an `int`, and the first segment has the
whole header, or ends behind a line and the length and the body follows. -/
theorem downloads_iff (D : Download) : Downloads D ↔
    (47 ∉ D.url.host ∨ D.url.hostName = [] ∨ D.mem ((requestHead D.url).length + D.url.hostName.length) = 0) ∧
      D.response.size < 2 ^ 31 ∧ (D.HeaderFirst ∨ D.Lucky) := by
  rw [← buildreqGet_iff D.fits]
  obtain ⟨seg, segs, hsegs, hcase⟩ := first_segment D
  constructor
  · intro h
    obtain ⟨g, hr, hpc⟩ := h.done
    have hc := h.complete g hr hpc
    obtain ⟨cs, hdel, hbody⟩ := hc.delivered
    rcases hcase with ⟨hn, hhead, x, rfl, -⟩ | hnone | ⟨⟨k, hhead⟩, F, rest, hline⟩ | ⟨hn, ⟨k, hhead⟩, i, hi, hseg⟩
    · have hs := (whole_stream hn hhead hsegs hr).2.resolve_left fun ho => ho.not_done hpc
      refine ⟨hc.request hs.1, hn, .inl ⟨_, by rw [hsegs]; rfl, ?_⟩⟩
      rw [length_append]
      exact Nat.le_add_right _ _
    · exact absurd hpc (fault_opening hnone hsegs hr).not_done
    · -- nothing was delivered
      have hs := (lines_lost hhead hsegs hline hr).2.resolve_left fun ho => ho.not_done hpc
      have hlost := hs.2
      unfold Get.Lost at hlost
      rw [hpc] at hlost
      have hcs : cs = [] := by
        rw [← pieces_snd 0 cs, ← hdel, hlost]
        rfl
      rw [hcs] at hbody
      exact absurd hbody.symm D.response.body_ne
    · have hs := (lines_stream hn hhead hsegs hr).2.resolve_left fun ho => ho.not_done hpc
      refine ⟨hc.request hs.1, hn, .inr ⟨i, hi, by rw [hsegs, hseg]; rfl, ?_⟩⟩
      have hstream := hs.2
      unfold Stream at hstream
      rw [hpc] at hstream
      obtain ⟨e, -, hover⟩ := hstream
      obtain ⟨j, hj⟩ := hover.delivered
      refine ⟨j, ?_⟩
      rw [hsegs, tail_cons, ← pieces_snd 0 (segs.take j), ← hj, hdel, pieces_snd, hbody]
  · rintro ⟨hreq, hn, hfirst | ⟨k, hk, hd, j, hj⟩⟩
    · obtain ⟨seg', hd, hlen⟩ := hfirst
      rw [hsegs] at hd
      obtain rfl : seg = seg' := some.inj hd
      have hwhole : seg ++ segs.flatten = D.response.header ++ D.response.body := by
        rw [← flatten_cons, ← hsegs]
        exact D.whole
      obtain ⟨x, rfl⟩ := prefix_of_prefix_length_le (prefix_append _ _) ⟨_, hwhole⟩ hlen
      rw [append_assoc] at hwhole
      have hhead := prasehead_whole (R := D.response) x
      rw [if_pos hn] at hhead
      refine stream_downloads (j := (piece x ++ segs).length) hreq hn hsegs hhead
        (fun g hr => whole_stream hn hhead hsegs hr) ?_
      rw [take_length, flatten_append, ← append_cancel_left hwhole]
      unfold piece
      split_ifs with hx
      · rw [hx]
        rfl
      · simp
    · rw [hsegs] at hd hj
      obtain rfl := some.inj hd
      have hhead := prasehead_lines (R := D.response) k
      rw [if_neg (not_le.mpr hk), if_pos hn] at hhead
      exact stream_downloads hreq hn hsegs hhead (fun g hr => lines_stream hn hhead hsegs hr) hj

/-! ### Two downloads -/

/-- `a/b`. -/
def pathUrl : Url := ⟨ascii "a/b", by decide⟩

/-- A body of one byte. -/
def oneByte : Response where
  reason := []
  before := []
  after := []
  body := [7]
  reason_ok := nofun
  reason_space := nofun
  before_ne := nofun
  after_ne := nofun
  body_ne := nofun

theorem pathUrl_fits : pathUrl.Fits := by
  unfold Url.Fits
  decide +kernel

theorem oneByte_bytes : oneByte.bytes = 72 :: oneByte.bytes.tail := rfl

/-- An empty buffer, and a first segment of one byte. -/
def cutDownload : Download where
  url := pathUrl
  fits := pathUrl_fits
  mem := fun _ => 0
  response := oneByte
  segs := [[72], oneByte.bytes.tail]
  segs_ne := by
    intro seg hseg
    rcases mem_cons.mp hseg with rfl | hseg
    · nofun
    · obtain rfl := mem_singleton.mp hseg
      nofun
  whole := by
    rw [flatten_cons, flatten_singleton]
    exact oneByte_bytes.symm

/-- One segment, and a byte in the buffer behind the host. -/
def strayDownload : Download where
  url := pathUrl
  fits := pathUrl_fits
  mem := fun i => if i = (requestHead pathUrl).length + pathUrl.hostName.length then 88 else 0
  response := oneByte
  segs := [oneByte.bytes]
  segs_ne := fun seg hseg => by
    obtain rfl := mem_singleton.mp hseg
    nofun
  whole := flatten_singleton

/-- **A download that fails**: read past the end of the first segment; or the wrong request. -/
theorem download_slips : ¬ Downloads cutDownload ∧ ¬ Downloads strayDownload := by
  constructor
  · intro h
    obtain ⟨g, hr, hpc⟩ := h.done
    have hnone : prasehead 0 [72] = none := rfl
    exact (fault_opening (D := cutDownload) hnone rfl hr).not_done hpc
  · intro h
    obtain ⟨g, hr, hpc⟩ := h.done
    have hsize : oneByte.size < 2 ^ 31 := by decide
    have hhead := prasehead_whole (R := oneByte) [7]
    rw [if_pos hsize] at hhead
    have hs := (whole_stream (D := strayDownload) hsize hhead rfl hr).2.resolve_left fun ho => ho.not_done hpc
    have hreq := (buildreqGet_iff strayDownload.fits strayDownload.mem).mp ((h.complete g hr hpc).request hs.1)
    rcases hreq with hslash | hempty | hzero
    · exact hslash (by decide)
    · exact absurd hempty (by decide)
    · have h88 : strayDownload.mem ((requestHead pathUrl).length + pathUrl.hostName.length) = 88 := by
        simp [strayDownload]
      exact absurd (h88.symm.trans hzero) (by decide)

end Httpc
end Vsf
