/-
# TCP connections: the buffer of a segment

`vsfip_tcp_socket_input` releases the buffer it is given, or hands it over and leaves it alone. The
flag `release_buffer` says which, but `FINWAIT1` and `LASTACK` do not look at it: a buffer that was
handed over is released again when the user closes meanwhile (`Sock.once_iff`).
-/
import Mathlib
import Vsf.Net.TcpRuns

namespace Vsf
namespace Tcp

open List Option

/-- A buffer is looked at, then handed over or released, and then left alone. -/
def Once (ds : List Disposal) : Prop :=
  (∀ d ∈ ds.dropLast, d = .read) ∧ (ds.getLast? = some .handOver ∨ ds.getLast? = some .release)

instance (ds : List Disposal) : Decidable (Once ds) := instDecidableAnd

namespace Sock

/-- Data in order at an established connection. -/
def HandsOver (s : Sock) (seg : Seg) : Prop :=
  ¬ (s.listener.backlog > 0 ∧ seg.flags ≠ { syn := true }) ∧ seg.flags.rst = false ∧
  s.pcb.state = .established ∧ seg.buf.size > 0 ∧ s.pcb.rseq = seg.seq

/-- The data is handed over and the reader woken. -/
def afterData (s : Sock) (seg : Seg) : Sock :=
  (({ s with pcb := { s.pcb with rwnd := seg.windowSize.toUInt32 } } : Sock).look.dataInput seg).postRx .rxok

/-- The acknowledgement is taken and the writer woken. -/
def afterAck (s : Sock) (seg : Seg) : Sock :=
  if seg.flags.ack ∧ seg.ackseq ≠ s.pcb.ackedLseq then (s.ackInput seg.ackseq).postTx .txok else s

/-- The FIN of the peer comes with the acknowledgement of ours. -/
def FinMatched (s : Sock) (seg : Seg) : Prop :=
  s.pcb.state = .finWait1 ∧ (seg.flags.ack ∧ seg.ackseq = s.pcb.lseq) ∧ seg.flags.fin

instance (u : Sock) (seg : Seg) : Decidable (FinMatched u seg) :=
  inferInstanceAs (Decidable (_ ∧ (_ ∧ _) ∧ _))

/-- The user closes while the segment is handled: woken by data or FIN, or as the writer. A FIN with the
acknowledgement of ours goes no further. -/
def Reenters (s : Sock) (seg : Seg) : Prop :=
  let u₁ := s.afterData seg
  let u₂ := u₁.afterAck seg
  let u₃ := u₂.passiveClose seg
  u₁.pcb.state ≠ .established ∧ ¬ FinMatched u₁ seg ∨
  u₁.pcb.state = .established ∧ u₂.pcb.state ≠ .established ∧ ¬ FinMatched u₂ seg ∨
  u₁.pcb.state = .established ∧ u₂.pcb.state = .established ∧ seg.flags.fin ∧
    (u₃.postRx .rxfail).pcb.state ≠ u₃.pcb.state

/-! ### What each part does -/

section
variable (s : Sock) (seg : Seg) (evt : Evt)

@[simp] theorem postTx_disposed : (s.postTx evt).log.disposed = s.log.disposed := (postTx_reacts s evt).disposed

@[simp] theorem postRx_disposed : (s.postRx evt).log.disposed = s.log.disposed := (postRx_reacts s evt).disposed

@[simp] theorem ackInput_disposed (a : UInt32) : (s.ackInput a).log.disposed = s.log.disposed :=
  (ackInput_keeps s a).disposed

@[simp] theorem look_disposed : s.look.log.disposed = s.log.disposed ++ [Disposal.read] := rfl

@[simp] theorem drop_disposed : (s.drop seg).log.disposed = s.log.disposed ++ [Disposal.release] := rfl

@[simp] theorem discard_disposed : (s.discard seg).log.disposed = s.log.disposed := rfl

@[simp] theorem finAcked_disposed : s.finAcked.log.disposed = s.log.disposed := rfl

@[simp] theorem passiveClose_disposed : (s.passiveClose seg).log.disposed = s.log.disposed := by simp [passiveClose]

@[simp] theorem dataInput_disposed : (s.dataInput seg).log.disposed = s.log.disposed ++ [Disposal.handOver] := by
  unfold dataInput
  dsimp only
  split_ifs
  · exact (react_reacts (s.count seg)).disposed
  · rfl

end

variable {l l' : Frame} {seg : Seg} {s s' : Sock}

/-- What is done with the buffer at the end of a pass. -/
def atEnd (l : Frame) (again : Option Frame) : List Disposal :=
  if again.isSome then [] else if l.release then [Disposal.release] else []

theorem finish_disposed : (finish l seg s).1.log.disposed = s.log.disposed ++ atEnd l (finish l seg s).2 := by
  unfold finish atEnd
  split_ifs <;> simp_all

theorem remoteClose_disposed :
    (remoteClose l seg s).1.log.disposed = s.log.disposed ++ atEnd l (remoteClose l seg s).2 := by
  unfold remoteClose
  dsimp only
  split_ifs
  · simp [atEnd]
  · rw [finish_disposed]
    simp [finish, atEnd]
  · rw [finish_disposed]
    simp [finish, atEnd]

theorem finPart_disposed : (finPart l seg s).1.log.disposed = s.log.disposed ++ atEnd l (finPart l seg s).2 := by
  unfold finPart
  split_ifs
  · exact remoteClose_disposed
  · exact finish_disposed

theorem closeWait_disposed : (closeWait l seg s).1.log.disposed = s.log.disposed ++ atEnd l (closeWait l seg s).2 := by
  unfold closeWait
  dsimp only
  split_ifs
  · simp [atEnd]
  · rw [finPart_disposed]
    simp
  · exact finPart_disposed

theorem dataInFin_disposed : (dataInFin seg s).log.disposed = s.log.disposed ++ [Disposal.read, .release] := by
  unfold dataInFin
  dsimp only
  split_ifs <;> simp

theorem lastAck_disposed : (lastAck l seg s).log.disposed = s.log.disposed ++ [Disposal.release] := by
  have h : ∀ u : Sock, u.log.disposed = s.log.disposed →
      (if l.flags = { ack := true } ∧ seg.ackseq = u.pcb.lseq then
        (({ u.finAcked with pcb := { u.finAcked.pcb with state := .closed } } : Sock).drop seg).postTx .closed
        else u.drop seg).log.disposed = s.log.disposed ++ [Disposal.release] := by
    intro u hu
    split_ifs
    · rw [postTx_disposed, drop_disposed]
      exact congrArg (· ++ _) hu
    · rw [drop_disposed, hu]
  unfold lastAck
  by_cases hf : l.flags.fin = true
  · rw [if_pos hf]
    exact h _ (by simp)
  · rw [if_neg hf]
    exact h s rfl

/-- In `FINWAIT1` the flag `release_buffer` counts only when the FIN comes too. -/
theorem finWait1_disposed : (finWait1 l seg s).1.log.disposed = s.log.disposed ++
    if (l.flags.ack ∧ seg.ackseq = s.pcb.lseq) ∧ l.flags.fin then atEnd l (finWait1 l seg s).2 else [Disposal.read, .release] := by
  unfold finWait1
  by_cases ha : l.flags.ack = true ∧ seg.ackseq = s.pcb.lseq
  · rw [if_pos ha]
    by_cases hf : l.flags.fin = true
    · rw [if_pos hf, if_pos ⟨ha, hf⟩]
      exact remoteClose_disposed
    · rw [if_neg hf, if_neg fun h => hf h.2]
      exact dataInFin_disposed
  · rw [if_neg ha, if_neg fun h => ha h.1]
    exact dataInFin_disposed

theorem finWait2_disposed : (finWait2 l seg s).1.log.disposed = s.log.disposed ++
    if l.flags.fin then atEnd l (finWait2 l seg s).2 else [Disposal.read, .release] := by
  unfold finWait2
  split_ifs
  · exact remoteClose_disposed
  · exact dataInFin_disposed

theorem connected_disposed : (connected l seg s).log.disposed = s.log.disposed ++ atEnd l none := by
  unfold connected atEnd
  split_ifs <;> simp_all

theorem synSent_disposed (hl : l.release = true) : (synSent l seg s).log.disposed = s.log.disposed ++ [Disposal.release] := by
  unfold synSent
  split_ifs
  · simp
  · rw [connected_disposed]
    simp [atEnd, hl]
  · simp

theorem synGet_disposed (s : Sock) (seg : Seg) (hl : l.release = true) : ∃ n d,
    (synGet l seg s).log.disposed = s.log.disposed ++ (List.replicate n Disposal.read ++ [d]) ∧ d ≠ .read := by
  unfold synGet
  dsimp only
  split_ifs
  · exact ⟨0, .release, by simp, by decide⟩
  · refine ⟨1, .handOver, ?_, by decide⟩
    rw [connected_disposed]
    simp [atEnd]
  · refine ⟨1, .release, ?_, by decide⟩
    rw [connected_disposed]
    simp [atEnd, hl]
  · refine ⟨1, .release, ?_, by decide⟩
    rw [connected_disposed]
    simp [atEnd, hl]
  · exact ⟨0, .release, by simp, by decide⟩
  · exact ⟨0, .release, by simp, by decide⟩

theorem listen_disposed : (listen l seg s).log.disposed = s.log.disposed ++ [Disposal.release] := by
  unfold listen
  split_ifs
  · cases s.stack.sockets with
    | zero => rfl
    | succ n => simp
  · rfl

theorem established_disposed (h : ¬ (seg.buf.size > 0 ∧ s.pcb.rseq = seg.seq)) :
    (established l seg s).1.log.disposed = s.log.disposed ++ (Disposal.read :: atEnd l (established l seg s).2) := by
  unfold established
  dsimp only
  split_ifs with hz hq
  · exact absurd ⟨hz, hq⟩ h
  · exact absurd ⟨hz, hq⟩ h
  · rw [closeWait_disposed]
    simp
  · rw [closeWait_disposed]
    simp

theorem established_release (h : ¬ (seg.buf.size > 0 ∧ s.pcb.rseq = seg.seq))
    (hp : established l seg s = (s', some l')) : l'.release = l.release := by
  unfold established at hp
  dsimp only at hp
  split_ifs at hp with hz hq
  · exact absurd ⟨hz, hq⟩ h
  · exact absurd ⟨hz, hq⟩ h
  · exact (closeWait_frame hp).2
  · exact (closeWait_frame hp).2

/-- A pass that hands over no established data looks at the buffer, and last releases or hands it over. -/
theorem pass_disposed (hl : l.release = true)
    (hno : s.pcb.state = .established → ¬ (seg.buf.size > 0 ∧ s.pcb.rseq = seg.seq)) : ∃ n d,
    (pass l seg s).1.log.disposed = s.log.disposed ++ (List.replicate n Disposal.read ++
      if (pass l seg s).2.isSome then [] else [d]) ∧ d ≠ .read := by
  have hend : ∀ o, atEnd l o = if o.isSome then [] else [Disposal.release] := by
    intro o
    rw [atEnd, hl, if_pos rfl]
  unfold pass
  cases hst : s.pcb.state with
  | invalid => exact ⟨0, .release, by simp, by decide⟩
  | closed => exact ⟨0, .release, by simp, by decide⟩
  | listen => exact ⟨0, .release, by simpa using listen_disposed, by decide⟩
  | synSent => exact ⟨0, .release, by simpa using synSent_disposed hl, by decide⟩
  | synGet =>
    obtain ⟨n, d, h, hd⟩ := synGet_disposed s seg hl
    exact ⟨n, d, by simpa using h, hd⟩
  | established => exact ⟨1, .release, by rw [established_disposed (hno hst), hend]; rfl, by decide⟩
  | closeWait => exact ⟨0, .release, by rw [closeWait_disposed, hend]; rfl, by decide⟩
  | finWait1 =>
    rw [finWait1_disposed]
    by_cases h : (l.flags.ack = true ∧ seg.ackseq = s.pcb.lseq) ∧ l.flags.fin = true
    · rw [if_pos h, hend]
      exact ⟨0, .release, rfl, by decide⟩
    · have hnone : (finWait1 l seg s).2 = none := by
        have hc : (pass l seg s).2 = none := pass_closing (.inl hst)
        rw [pass, hst] at hc
        exact hc
      rw [if_neg h, hnone]
      exact ⟨1, .release, rfl, by decide⟩
  | finWait2 =>
    rw [finWait2_disposed]
    by_cases h : l.flags.fin = true
    · rw [if_pos h, hend]
      exact ⟨0, .release, rfl, by decide⟩
    · have hnone : (finWait2 l seg s).2 = none := by rw [finWait2, if_neg h]
      rw [if_neg h, hnone]
      exact ⟨1, .release, rfl, by decide⟩
  | lastAck => exact ⟨0, .release, by simpa using lastAck_disposed, by decide⟩

theorem pass_release (hno : s.pcb.state = .established → ¬ (seg.buf.size > 0 ∧ s.pcb.rseq = seg.seq))
    (h : pass l seg s = (s', some l')) : l'.release = l.release := by
  unfold pass at h
  split at h
  · cases (Prod.mk.inj h).2
  · cases (Prod.mk.inj h).2
  · cases (Prod.mk.inj h).2
  · cases (Prod.mk.inj h).2
  · cases (Prod.mk.inj h).2
  · next hst => exact established_release (hno hst) h
  · exact (closeWait_frame h).2
  · unfold finWait1 at h
    split_ifs at h
    · exact (remoteClose_frame h).2
    · cases (Prod.mk.inj h).2
    · cases (Prod.mk.inj h).2
  · unfold finWait2 at h
    split_ifs at h
    · exact (remoteClose_frame h).2
    · cases (Prod.mk.inj h).2
  · cases (Prod.mk.inj h).2

theorem once_replicate {n : ℕ} {d : Disposal} (hd : d ≠ .read) : Once (List.replicate n Disposal.read ++ [d]) := by
  refine ⟨fun x hx => ?_, ?_⟩
  · rw [dropLast_concat] at hx
    exact (mem_replicate.mp hx).2
  · rw [getLast?_concat]
    cases d with
    | read => exact absurd rfl hd
    | handOver => exact .inl rfl
    | release => exact .inr rfl

theorem passes_once (hno : s.pcb.state = .established → ¬ (seg.buf.size > 0 ∧ s.pcb.rseq = seg.seq)) :
    ∃ ds, (s.passes seg).log.disposed = s.log.disposed ++ ds ∧ Once ds := by
  obtain ⟨n, d, h1, hd⟩ := pass_disposed (l := ⟨seg.flags, true, s.pcb.state⟩) rfl hno
  unfold passes
  cases hp : pass ⟨seg.flags, true, s.pcb.state⟩ seg s with
  | mk s₁ o =>
    rw [hp] at h1
    cases o with
    | none => exact ⟨_, h1, once_replicate hd⟩
    | some l₁ =>
      have hc : s₁.Closing := pass_again rfl hp
      have hne : s₁.pcb.state = .established → ¬ (seg.buf.size > 0 ∧ s₁.pcb.rseq = seg.seq) := by
        intro h
        rcases hc with h' | h' <;> rw [h'] at h <;> cases h
      obtain ⟨m, d', h2, hd'⟩ := pass_disposed (l := l₁) (pass_release hno hp) hne
      rw [pass_closing hc] at h2
      refine ⟨List.replicate (n + m) Disposal.read ++ [d'], ?_, once_replicate hd'⟩
      rw [h2, h1, replicate_add]
      simp only [isSome_some, isSome_none, if_true, Bool.false_eq_true, if_false, append_nil,
        append_assoc]

/-! ### A buffer handed over by an established connection -/

/-- The second pass releases a foreign buffer, unless a FIN comes with the acknowledgement of ours. -/
theorem pass_closing_disposed (hc : s.Closing) (hl : l.release = false) :
    (pass l seg s).1.log.disposed = s.log.disposed ++
      if s.pcb.state = .finWait1 ∧ (l.flags.ack ∧ seg.ackseq = s.pcb.lseq) ∧ l.flags.fin then []
      else if s.pcb.state = .finWait1 then [Disposal.read, .release] else [Disposal.release] := by
  have hlast : (pass l seg s).2 = none := pass_closing hc
  rcases hc with h | h
  · rw [pass, h] at hlast ⊢
    rw [finWait1_disposed, hlast]
    simp [atEnd, hl]
  · rw [pass, h]
    rw [lastAck_disposed]
    simp

theorem closeWait_eq (hpre : l.pre = s.pcb.state) (hf : l.flags = seg.flags) : closeWait l seg s =
    if (s.afterAck seg).pcb.state ≠ s.pcb.state then (s.afterAck seg, some l) else finPart l seg (s.afterAck seg) := by
  unfold closeWait afterAck
  rw [hf, hpre]
  by_cases ha : seg.flags.ack = true ∧ seg.ackseq ≠ s.pcb.ackedLseq
  · rw [if_pos ha, if_pos ha]
  · rw [if_neg ha, if_neg ha, if_neg fun h => h rfl]

@[simp] theorem afterAck_disposed : (s.afterAck seg).log.disposed = s.log.disposed := by
  unfold afterAck
  split_ifs <;> simp

theorem afterAck_closing (hne : (s.afterAck seg).pcb.state ≠ s.pcb.state) : (s.afterAck seg).Closing := by
  unfold afterAck at hne ⊢
  by_cases ha : seg.flags.ack = true ∧ seg.ackseq ≠ s.pcb.ackedLseq
  · rw [if_pos ha] at hne ⊢
    exact ((ackInput_keeps s seg.ackseq).trans (postTx_reacts _ .txok).toKeeps).closing hne
  · rw [if_neg ha] at hne
    exact absurd rfl hne

@[simp] theorem afterData_disposed : (s.afterData seg).log.disposed = s.log.disposed ++ [Disposal.read, .handOver] := by
  simp [afterData]

theorem afterData_closing (hne : (s.afterData seg).pcb.state ≠ s.pcb.state) : (s.afterData seg).Closing := by
  set t : Sock := { s with pcb := { s.pcb with rwnd := seg.windowSize.toUInt32 } }
  obtain ⟨-, h⟩ := (dataInput_postRx_state t.look seg .rxok).resolve_left hne
  split_ifs at h
  · exact .inr h
  · exact .inl h

/-- What follows the two disposals of the first pass when the state has changed. -/
def secondPass (u : Sock) (seg : Seg) : List Disposal :=
  if FinMatched u seg then [] else if u.pcb.state = .finWait1 then [Disposal.read, .release] else [Disposal.release]

theorem once_secondPass (u : Sock) (seg : Seg) : Once ([Disposal.read, .handOver] ++ secondPass u seg) ↔ FinMatched u seg := by
  unfold secondPass
  split_ifs with hm hs
  · exact iff_of_true (by decide) hm
  · exact iff_of_false (by decide) hm
  · exact iff_of_false (by decide) hm

/-- The jump to `re_process`, if there is one. -/
def jump (seg : Seg) : Sock × Option Frame → Sock
  | (u, none) => u
  | (u, some l) => (pass l seg u).1

theorem jump_closing {u : Sock} (hc : u.Closing) (hl : l.release = false) (hf : l.flags = seg.flags) :
    (jump seg (u, some l)).log.disposed = u.log.disposed ++ secondPass u seg := by
  show (pass l seg u).1.log.disposed = _
  rw [pass_closing_disposed hc hl, hf]
  rfl

theorem finPart_isSome : (finPart l seg s).2.isSome ↔
    l.flags.fin ∧ ((s.passiveClose seg).postRx .rxfail).pcb.state ≠ (s.passiveClose seg).pcb.state := by
  unfold finPart
  by_cases hf : l.flags.fin = true
  · rw [if_pos hf]
    unfold remoteClose
    by_cases hne : ((s.passiveClose seg).postRx .rxfail).pcb.state ≠ (s.passiveClose seg).pcb.state
    · rw [if_pos hne]
      exact iff_of_true rfl ⟨hf, hne⟩
    · rw [if_neg hne]
      exact iff_of_false Bool.false_ne_true fun h => hne h.2
  · rw [if_neg hf]
    exact iff_of_false Bool.false_ne_true fun h => hf h.1

/-- The reader, told of the FIN, closes: the buffer is released by `LASTACK`. -/
theorem finPart_handed (hl : l.release = false) : (jump seg (finPart l seg s)).log.disposed = s.log.disposed ++
    if l.flags.fin ∧ ((s.passiveClose seg).postRx .rxfail).pcb.state ≠ (s.passiveClose seg).pcb.state then [Disposal.release]
    else [] := by
  rw [← if_congr finPart_isSome rfl rfl]
  have h1 : (finPart l seg s).1.log.disposed = s.log.disposed ++ atEnd l (finPart l seg s).2 := finPart_disposed
  cases hp : finPart l seg s with
  | mk u o =>
    rw [hp] at h1
    cases o with
    | none =>
      show u.log.disposed = _
      rw [h1]
      simp [atEnd, hl]
    | some l₁ =>
      have hla : u.pcb.state = .lastAck := by
        unfold finPart at hp
        split_ifs at hp
        · exact (remoteClose_again hp).2
        · cases (Prod.mk.inj hp).2
      show (pass l₁ seg u).1.log.disposed = _
      rw [pass, hla]
      rw [lastAck_disposed, h1]
      simp [atEnd]

/-- What happens to a buffer after it is handed over. -/
def handedOver (s : Sock) (seg : Seg) : List Disposal :=
  let u₁ := s.afterData seg
  let u₂ := u₁.afterAck seg
  let u₃ := u₂.passiveClose seg
  if u₁.pcb.state ≠ .established then secondPass u₁ seg
  else if u₂.pcb.state ≠ .established then secondPass u₂ seg
  else if seg.flags.fin ∧ (u₃.postRx .rxfail).pcb.state ≠ u₃.pcb.state then [Disposal.release]
  else []

theorem established_handed (hz : seg.buf.size > 0) (hq : s.pcb.rseq = seg.seq) : established l seg s =
    if ((s.look.dataInput seg).postRx .rxok).pcb.state ≠ l.pre then
      ((s.look.dataInput seg).postRx .rxok, some { l with release := false })
    else closeWait { l with release := false } seg ((s.look.dataInput seg).postRx .rxok) := by
  unfold established
  dsimp only
  rw [look_pcb, if_pos hz, if_pos hq]

theorem passes_handed (hst : s.pcb.state = .established) (hz : seg.buf.size > 0) (hq : s.pcb.rseq = seg.seq) :
    (passes { s with pcb := { s.pcb with rwnd := seg.windowSize.toUInt32 } } seg).log.disposed =
      s.log.disposed ++ ([Disposal.read, .handOver] ++ s.handedOver seg) := by
  set l : Frame := ⟨seg.flags, false, .established⟩
  have hd : (s.afterData seg).log.disposed = s.log.disposed ++ [Disposal.read, .handOver] := afterData_disposed
  have hpass : passes { s with pcb := { s.pcb with rwnd := seg.windowSize.toUInt32 } } seg =
      jump seg (if (s.afterData seg).pcb.state ≠ .established then (s.afterData seg, some l)
        else closeWait l seg (s.afterData seg)) := by
    set t : Sock := { s with pcb := { s.pcb with rwnd := seg.windowSize.toUInt32 } }
    have hpt : ∀ f, pass f seg t = established f seg t := by
      intro f
      rw [pass, show t.pcb.state = .established from hst]
    show jump seg (pass ⟨seg.flags, true, s.pcb.state⟩ seg t) = _
    rw [hpt, established_handed (s := t) hz hq, hst]
    rfl
  rw [hpass, handedOver, ← append_assoc, ← hd]
  by_cases h1 : (s.afterData seg).pcb.state ≠ .established
  · rw [if_pos h1, if_pos h1, jump_closing (afterData_closing (by rwa [hst])) rfl rfl]
  · have he1 : (s.afterData seg).pcb.state = .established := Decidable.not_not.mp h1
    have ha : ((s.afterData seg).afterAck seg).log.disposed = (s.afterData seg).log.disposed := afterAck_disposed
    rw [if_neg h1, if_neg h1, closeWait_eq he1.symm rfl, he1, ← ha]
    by_cases h2 : ((s.afterData seg).afterAck seg).pcb.state ≠ .established
    · rw [if_pos h2, if_pos h2, jump_closing (afterAck_closing (by rwa [he1])) rfl rfl]
    · rw [if_neg h2, if_neg h2, finPart_handed rfl]

theorem once_handedOver : Once ([Disposal.read, .handOver] ++ s.handedOver seg) ↔ ¬ s.Reenters seg := by
  unfold handedOver Reenters
  dsimp only
  split_ifs with h1 h2 h3
  · rw [once_secondPass]
    tauto
  · rw [once_secondPass]
    tauto
  · exact iff_of_false (by decide) (by tauto)
  · exact iff_of_true (by decide) (by tauto)

/-- **The buffer of a segment is disposed of once, unless handed over while the user closes.** -/
theorem once_iff (h : s.input seg = some s') :
    Once (s'.log.disposed.drop s.log.disposed.length) ↔ ¬ (s.HandsOver seg ∧ s.Reenters seg) := by
  have hdrop : ∀ ds, s'.log.disposed = s.log.disposed ++ ds → s'.log.disposed.drop s.log.disposed.length = ds := by
    intro ds hds
    rw [hds, drop_left]
  rw [input_eq] at h
  have h := some.inj h
  by_cases hb : s.listener.backlog > 0 ∧ seg.flags ≠ { syn := true }
  · rw [if_pos hb] at h
    rw [hdrop [Disposal.release] (by rw [← h, drop_disposed])]
    exact iff_of_true (by decide) fun hn => hn.1.1 hb
  rw [if_neg hb] at h
  by_cases hr : seg.flags.rst = true
  · rw [if_pos hr] at h
    rw [hdrop [Disposal.release] (by rw [← h, reset]; simp)]
    exact iff_of_true (by decide) fun hn => Bool.noConfusion (hr.symm.trans hn.1.2.1)
  rw [if_neg hr] at h
  by_cases hd : s.pcb.state = .established ∧ seg.buf.size > 0 ∧ s.pcb.rseq = seg.seq
  · obtain ⟨hst, hz, hq⟩ := hd
    rw [hdrop _ (h ▸ passes_handed hst hz hq), once_handedOver]
    have hh : s.HandsOver seg := ⟨hb, by simpa using hr, hst, hz, hq⟩
    tauto
  · set t : Sock := { s with pcb := { s.pcb with rwnd := seg.windowSize.toUInt32 } }
    have hno : t.pcb.state = .established → ¬ (seg.buf.size > 0 ∧ t.pcb.rseq = seg.seq) := fun h1 h2 => hd ⟨h1, h2⟩
    obtain ⟨ds, hds, honce⟩ := passes_once hno
    rw [hdrop _ (h ▸ hds)]
    exact iff_of_true honce fun hn => hd ⟨hn.1.2.2.1, hn.1.2.2.2⟩

instance (s : Sock) (seg : Seg) : Decidable (s.HandsOver seg) :=
  inferInstanceAs (Decidable (_ ∧ _ ∧ _ ∧ _ ∧ _))

instance (s : Sock) (seg : Seg) : Decidable (s.Reenters seg) :=
  inferInstanceAs (Decidable (_ ∧ _ ∨ _ ∧ _ ∧ _ ∨ _ ∧ _ ∧ _ ∧ _))

theorem once_iff_twoBytes : ∃ s', (opened 100 700).input (.plain 700 100 { ack := true } [1, 2] (by decide)) = some s' ∧
    Once (s'.log.disposed.drop (opened 100 700).log.disposed.length) := by
  obtain ⟨s', hs'⟩ : ∃ s', (opened 100 700).input (.plain 700 100 { ack := true } [1, 2] (by decide)) = some s' :=
    ⟨_, input_eq _ _⟩
  exact ⟨s', hs', (once_iff hs').mpr (by decide)⟩

/-- A reader that closes the connection when its data comes. -/
def closingReader : Sock :=
  let s := opened 100 700
  { s with pcb := { s.pcb with rxSm := some 1 }, env := [[.close 1 .start .other]] }

/-- The two bytes are handed over, then looked at and released once more. -/
theorem handed_released : ∃ s', closingReader.input (.plain 700 100 { ack := true } [1, 2] (by decide)) = some s' ∧
    s'.log.disposed = [Disposal.read, .handOver, .read, .release] ∧
    ¬ Once (s'.log.disposed.drop closingReader.log.disposed.length) :=
  ⟨_, input_eq _ _, by decide, by decide⟩

end Sock
end Tcp
end Vsf
