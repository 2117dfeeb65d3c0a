/-
# The line buffer of the shell

`vsfshell_input_thread` reads the stream byte by byte. With echo on a backspace takes the last
character away, and a full buffer drops one; with echo off it does neither. While the thread waits,
bytes arrive, and handlers in the background write over the line, which the next output writes
again, with a zero behind it.
-/
import Mathlib
import Vsf.Lib.System

namespace Vsf

open List

/-- Where the thread is: waiting for input, at the top of the inner loop, behind the echo of `ch`, of "\b
\b", of "Fail to execute", or of the prompt. -/
inductive ShellPc
  | wait
  | read
  | dispatch
  | erase
  | failed
  | prompt
  deriving DecidableEq

/-- `struct vsfshell_t`, `stream_rx`, the memory from `cmd_buff` on, and the history: the characters since
the last carriage return, where `cmd_buff` was written, and what was passed on for each carriage return. -/
structure Shell where
  echo : Bool
  cmdBuff : ℕ → UInt8
  position : ℕ
  ch : UInt8
  outputInterrupted : Bool
  prompted : Bool
  stream : List UInt8
  pc : ShellPc
  accepted : List UInt8
  writes : List ℕ
  lines : List (Option (List UInt8) × List UInt8)

namespace Shell

/-- `'\r'`, `'\n'` and `'\b'`. -/
def cr : UInt8 := 13
def lf : UInt8 := 10
def bs : UInt8 := 8

/-- `tbuffer.buffer.size`, which is `sizeof(cmd_buff)`. -/
def size : ℕ := 128

theorem size_pos : 0 < size := by decide

/-- A byte is written to `cmd_buff`. -/
def put (s : Shell) (i : ℕ) (c : UInt8) : Shell :=
  { s with cmdBuff := Function.update s.cmdBuff i c, writes := s.writes ++ [i] }

/-- `vsfshell_printf` of the thread, up to where it may wait. -/
def print (s : Shell) : Shell :=
  if s.outputInterrupted then { s.put s.position 0 with outputInterrupted := false, prompted := true } else s

/-- The string at `cmd`, when a zero is at `position`. -/
def command (s : Shell) : List UInt8 := ((List.range s.position).map s.cmdBuff).takeWhile fun c => c != 0

/-- A byte was read: the echo. -/
def take (s : Shell) : Shell :=
  if s.echo then
    if s.ch = cr then { s.print with pc := .dispatch }
    else if s.ch = bs then if s.position ≠ 0 then { s.print with pc := .erase } else { s with pc := .read }
    else if size - 1 ≤ s.position then { s with pc := .read }
    else { s.print with pc := .dispatch }
  else { s with pc := .dispatch }

/-- A carriage return: the line is over. -/
def ended (s : Shell) (c : Option (List UInt8)) : Shell :=
  { s with lines := s.lines ++ [(c, s.accepted)], accepted := [] }

/-- Behind the echo; `ok` if a handler was found. A backspace that gets here is stored. -/
def dispatch (s : Shell) (ok : Bool) : Shell :=
  if s.ch = cr then
    if 0 < s.position then
      let t := (s.put s.position 0).ended (some (s.put s.position 0).command)
      if ok then { t with position := 0, prompted := true, pc := .wait } else { t.print with pc := .failed }
    else { (s.ended none).print with pc := .prompt }
  else if s.ch ≠ lf then
    { s.put s.position s.ch with
      position := s.position + 1
      accepted := if s.ch = bs then s.accepted.dropLast else s.accepted ++ [s.ch]
      pc := .read }
  else { s with pc := .read }

/-- The thread goes on to where it may wait next. Behind the prompt the position is 0. -/
def turn (s : Shell) (ok : Bool) : Shell :=
  match s.pc with
  | .wait => s
  | .read =>
    match s.stream with
    | [] => { s with pc := .wait }
    | c :: rest => take { s with stream := rest, ch := c }
  | .dispatch => s.dispatch ok
  | .erase => { s with position := s.position - 1, accepted := s.accepted.dropLast, pc := .read }
  | .failed => { s.print with pc := .prompt }
  | .prompt => { s with position := 0, prompted := true, pc := .read }

inductive Act
  | arrive (bytes : List UInt8)
  | onin
  | interrupt
  | turn (ok : Bool)

/-- Bytes arrive, the thread is woken, a handler in the background writes, and the thread goes on. -/
def act (s : Shell) : Act → Shell
  | .arrive bytes => { s with stream := s.stream ++ bytes }
  | .onin => if s.pc = .wait then { s with pc := .read } else s
  | .interrupt => { s with outputInterrupted := true, prompted := false }
  | .turn ok => s.turn ok

/-- A shell that has written its first prompt. -/
structure Fresh (s : Shell) : Prop where
  pc : s.pc = .wait
  position : s.position = 0
  history : s.accepted = [] ∧ s.writes = [] ∧ s.lines = []

def system : System Shell Act where
  start := Fresh
  step s a s' := s' = s.act a

/-- Nothing is written behind the buffer, and what is passed on is a line's characters. -/
structure Right (s : Shell) : Prop where
  writes : ∀ i ∈ s.writes, i < size
  lines : ∀ l ∈ s.lines, l.1 = if l.2 = [] then none else some l.2

/-- The byte read next: no zero in a line passed on; with echo off no backspace, and at most 128 characters,
127 before a carriage return. -/
def Meets (s : Shell) (_ : Act) : Prop :=
  match s.pc, s.stream with
  | .read, c :: _ => (c = cr → 0 ∉ s.accepted) ∧ (s.echo = false → c ≠ bs ∧ (c ≠ lf → s.accepted.length < size))
  | _, _ => True

instance (s : Shell) (a : Act) : Decidable (s.Meets a) := by
  unfold Meets
  split <;> infer_instance

/-! ### The line that is kept -/

/-- The accepted characters are in the buffer. -/
structure Held (s : Shell) : Prop where
  length : s.accepted.length = s.position
  bytes : ∀ i (h : i < s.accepted.length), s.cmdBuff i = s.accepted[i]

/-- What holds of the thread where it is. -/
def There (s : Shell) : Prop :=
  match s.pc with
  | .wait | .read => s.Held
  | .dispatch => s.Held ∧ s.ch ≠ bs ∧ (s.ch = cr → 0 ∉ s.accepted) ∧ (s.ch ≠ lf → s.position < size) ∧
      (s.echo = true → s.ch ≠ cr → s.position + 1 < size)
  | .erase => s.Held
  | .failed | .prompt => s.accepted = [] ∧ s.position < size

structure Inv (s : Shell) : Prop where
  right : s.Right
  edge : s.echo = true → s.position < size
  there : s.There

variable {s : Shell}

theorem Held.put (h : s.Held) (c : UInt8) : (s.put s.position c).Held where
  length := h.length
  bytes i hi := by
    have hlt : i < s.position := h.length ▸ hi
    show Function.update s.cmdBuff s.position c i = s.accepted[i]
    rw [Function.update_of_ne hlt.ne]
    exact h.bytes i hi

theorem Right.put (h : s.Right) {i : ℕ} (c : UInt8) (hi : i < size) : (s.put i c).Right where
  writes j hj := by
    rcases mem_append.mp hj with hj | hj
    · exact h.writes j hj
    · exact mem_singleton.mp hj ▸ hi
  lines := h.lines

/-- Output writes a zero behind the line, or nothing. -/
theorem print_spec (s : Shell) : s.print.echo = s.echo ∧ s.print.position = s.position ∧ s.print.ch = s.ch ∧
    s.print.accepted = s.accepted ∧ s.print.lines = s.lines ∧ s.print.stream = s.stream := by
  unfold print
  split_ifs <;> exact ⟨rfl, rfl, rfl, rfl, rfl, rfl⟩

theorem Held.print (h : s.Held) : s.print.Held := by
  unfold Shell.print
  split_ifs
  · exact ⟨(h.put 0).length, (h.put 0).bytes⟩
  · exact h

theorem Right.print (h : s.Right) (hp : s.position < size) : s.print.Right := by
  unfold Shell.print
  split_ifs
  · exact ⟨(h.put 0 hp).writes, (h.put 0 hp).lines⟩
  · exact h

theorem Held.command (h : s.Held) (h0 : 0 ∉ s.accepted) : s.command = s.accepted := by
  have hmap : (List.range s.position).map s.cmdBuff = s.accepted := by
    apply ext_getElem
    · rw [length_map, length_range, h.length]
    · intro i _ hi
      rw [getElem_map, getElem_range, h.bytes i hi]
  rw [Shell.command, hmap]
  refine takeWhile_eq_self_iff.mpr fun c hc => ?_
  have hne : c ≠ 0 := fun hz => h0 (hz ▸ hc)
  simpa using hne

theorem Inv.take (hr : s.Right) (hedge : s.echo = true → s.position < size) (hheld : s.Held)
    (hmeets : (s.ch = cr → 0 ∉ s.accepted) ∧ (s.echo = false → s.ch ≠ bs ∧ (s.ch ≠ lf → s.accepted.length < size))) :
    s.take.Inv := by
  obtain ⟨hp1, hp2, hp3, hp4, -, -⟩ := s.print_spec
  unfold Shell.take
  split_ifs with he hc hb hpos hfull
  · -- a carriage return
    have hprint := hr.print (hedge he)
    refine ⟨⟨hprint.writes, hprint.lines⟩, fun _ => ?_, ?_⟩
    · show s.print.position < size
      rw [hp2]
      exact hedge he
    · have hh := hheld.print
      refine ⟨⟨hh.length, hh.bytes⟩, ?_, ?_, fun _ => ?_, fun _ hne => ?_⟩
      · show s.print.ch ≠ bs
        rw [hp3, hc]
        decide
      · show s.print.ch = cr → 0 ∉ s.print.accepted
        rw [hp3, hp4]
        exact hmeets.1
      · show s.print.position < size
        rw [hp2]
        exact hedge he
      · exact absurd (hp3.trans hc) hne
  · have hprint := hr.print (hedge he)
    have hh := hheld.print
    refine ⟨⟨hprint.writes, hprint.lines⟩, fun _ => ?_, ⟨hh.length, hh.bytes⟩⟩
    show s.print.position < size
    rw [hp2]
    exact hedge he
  · exact ⟨⟨hr.writes, hr.lines⟩, hedge, ⟨hheld.length, hheld.bytes⟩⟩
  · exact ⟨⟨hr.writes, hr.lines⟩, hedge, ⟨hheld.length, hheld.bytes⟩⟩
  · -- a character that has room
    have hroom : s.position + 1 < size := by
      unfold size at hfull ⊢
      omega
    have hprint := hr.print (hedge he)
    have hh := hheld.print
    refine ⟨⟨hprint.writes, hprint.lines⟩, fun _ => ?_, ⟨hh.length, hh.bytes⟩, ?_, ?_, fun _ => ?_, fun _ _ => ?_⟩
    · show s.print.position < size
      rw [hp2]
      exact hedge he
    · show s.print.ch ≠ bs
      rw [hp3]
      exact hb
    · intro hcr
      exact absurd (hp3.symm.trans hcr) hc
    · show s.print.position < size
      rw [hp2]
      exact hedge he
    · show s.print.position + 1 < size
      rw [hp2]
      exact hroom
  · obtain ⟨hb, hlen⟩ := hmeets.2 (by simpa using he)
    refine ⟨⟨hr.writes, hr.lines⟩, hedge, ⟨hheld.length, hheld.bytes⟩, hb, hmeets.1, fun hne => ?_, fun h => absurd h he⟩
    exact hheld.length ▸ hlen hne

theorem Right.ended (h : s.Right) {c : Option (List UInt8)} (hc : c = if s.accepted = [] then none else some s.accepted) :
    (s.ended c).Right where
  writes := h.writes
  lines l hl := by
    rcases mem_append.mp hl with hl | hl
    · exact h.lines l hl
    · exact mem_singleton.mp hl ▸ hc

theorem Inv.dispatch (h : s.Inv) (hpc : s.pc = .dispatch) (ok : Bool) : (s.dispatch ok).Inv := by
  obtain ⟨hheld, hb, hzero, hroom, hedge⟩ : s.Held ∧ s.ch ≠ bs ∧ (s.ch = cr → 0 ∉ s.accepted) ∧
      (s.ch ≠ lf → s.position < size) ∧ (s.echo = true → s.ch ≠ cr → s.position + 1 < size) := by
    have := h.there
    unfold There at this
    rwa [hpc] at this
  unfold Shell.dispatch
  split_ifs with hc hpos hok hlf
  · -- the handler runs
    have hlt : s.position < size := hroom (by rw [hc]; decide)
    have hne : s.accepted ≠ [] := ne_nil_of_length_pos (hheld.length.symm ▸ hpos)
    have hcmd : (s.put s.position 0).command = s.accepted := (hheld.put 0).command (hzero hc)
    have hr := (h.right.put 0 hlt).ended (c := some (s.put s.position 0).command) (by rw [hcmd]; exact (if_neg hne).symm)
    exact ⟨⟨hr.writes, hr.lines⟩, fun _ => size_pos, ⟨rfl, fun i hi => absurd hi (Nat.not_lt_zero i)⟩⟩
  · -- there is none
    have hlt : s.position < size := hroom (by rw [hc]; decide)
    have hne : s.accepted ≠ [] := ne_nil_of_length_pos (hheld.length.symm ▸ hpos)
    have hcmd : (s.put s.position 0).command = s.accepted := (hheld.put 0).command (hzero hc)
    have hr := (h.right.put 0 hlt).ended (c := some (s.put s.position 0).command) (by rw [hcmd]; exact (if_neg hne).symm)
    have hprint := hr.print hlt
    set t := (s.put s.position 0).ended (some (s.put s.position 0).command)
    obtain ⟨-, hp2, -, hp4, -, -⟩ := t.print_spec
    have hpos' : t.print.position < size := by
      rw [hp2]
      exact hlt
    exact ⟨⟨hprint.writes, hprint.lines⟩, fun _ => hpos', hp4, hpos'⟩
  · -- the line is empty
    have hnil : s.accepted = [] := eq_nil_of_length_eq_zero (by rw [hheld.length]; omega)
    have hlt : s.position < size := by
      unfold size
      omega
    have hr := h.right.ended (c := none) (by rw [hnil, if_pos rfl])
    have hprint := hr.print hlt
    obtain ⟨-, hp2, -, hp4, -, -⟩ := (s.ended none).print_spec
    have hpos' : (s.ended none).print.position < size := hp2 ▸ hlt
    exact ⟨⟨hprint.writes, hprint.lines⟩, fun _ => hpos', hp4, hpos'⟩
  · -- a character is stored
    have hr := h.right.put s.ch (hroom hlf)
    refine ⟨⟨hr.writes, hr.lines⟩, fun he => hedge he hc, ?_⟩
    show Held _
    have hput := hheld.put s.ch
    refine ⟨?_, fun i hi => ?_⟩
    · show (s.accepted ++ [s.ch]).length = s.position + 1
      rw [length_append, length_singleton, hheld.length]
    · show Function.update s.cmdBuff s.position s.ch i = (s.accepted ++ [s.ch])[i]
      rw [length_append, length_singleton] at hi
      by_cases hlast : i < s.accepted.length
      · rw [getElem_append_left hlast]
        exact hput.bytes i hlast
      · obtain rfl : i = s.position := by
          rw [← hheld.length]
          omega
        rw [getElem_append_right (by omega), Function.update_self]
        simp [hheld.length]
  · exact ⟨⟨h.right.writes, h.right.lines⟩, h.edge, ⟨hheld.length, hheld.bytes⟩⟩

theorem Inv.turn (h : s.Inv) {ok : Bool} (hmeets : s.Meets (.turn ok)) : (s.turn ok).Inv := by
  have hthere := h.there
  unfold There at hthere
  unfold Shell.turn
  cases hpc : s.pc with
  | wait => exact h
  | read =>
    rw [hpc] at hthere
    have hheld : s.Held := hthere
    cases hst : s.stream with
    | nil => exact ⟨⟨h.right.writes, h.right.lines⟩, h.edge, ⟨hheld.length, hheld.bytes⟩⟩
    | cons c rest =>
      unfold Meets at hmeets
      rw [hpc, hst] at hmeets
      exact Inv.take (s := { s with stream := rest, ch := c, pc := .read }) ⟨h.right.writes, h.right.lines⟩ h.edge
        ⟨hheld.length, hheld.bytes⟩ hmeets
  | dispatch => exact h.dispatch hpc ok
  | erase =>
    rw [hpc] at hthere
    have hheld : s.Held := hthere
    refine ⟨⟨h.right.writes, h.right.lines⟩, fun he => ?_, ?_, fun i hi => ?_⟩
    · have := h.edge he
      show s.position - 1 < size
      omega
    · show s.accepted.dropLast.length = s.position - 1
      rw [length_dropLast, hheld.length]
    · show s.cmdBuff i = s.accepted.dropLast[i]
      rw [getElem_dropLast]
      exact hheld.bytes i _
  | failed =>
    rw [hpc] at hthere
    obtain ⟨hnil, hlt⟩ : s.accepted = [] ∧ s.position < size := hthere
    have hprint := h.right.print hlt
    obtain ⟨-, hp2, -, hp4, -, -⟩ := s.print_spec
    have hpos' : s.print.position < size := hp2 ▸ hlt
    exact ⟨⟨hprint.writes, hprint.lines⟩, fun _ => hpos', hp4.trans hnil, hpos'⟩
  | prompt =>
    rw [hpc] at hthere
    obtain ⟨hnil, -⟩ : s.accepted = [] ∧ s.position < size := hthere
    refine ⟨⟨h.right.writes, h.right.lines⟩, fun _ => size_pos, ?_, fun i hi => ?_⟩
    · show s.accepted.length = 0
      rw [hnil, length_nil]
    · have hi' : i < s.accepted.length := hi
      rw [hnil] at hi'
      exact absurd hi' (Nat.not_lt_zero i)

theorem There.congr {t : Shell} (h : s.There) (hpc : t.pc = s.pc) (h1 : t.accepted = s.accepted) (h2 : t.cmdBuff = s.cmdBuff)
    (h3 : t.position = s.position) (h4 : t.ch = s.ch) (h5 : t.echo = s.echo) : t.There := by
  have hheld : s.Held → t.Held := by
    rintro ⟨hl, hb⟩
    obtain ⟨_, _, _, _, _, _, _, _, _, _, _⟩ := s
    subst h1 h2 h3
    exact ⟨hl, hb⟩
  unfold There at h ⊢
  rw [hpc, h1, h3, h4, h5]
  cases hs : s.pc with
  | wait | read | erase =>
    rw [hs] at h
    exact hheld h
  | dispatch =>
    rw [hs] at h
    exact ⟨hheld h.1, h.2⟩
  | failed | prompt =>
    rw [hs] at h
    exact h

theorem Inv.act (h : s.Inv) {a : Act} (hmeets : s.Meets a) : (s.act a).Inv := by
  cases a with
  | arrive bytes => exact ⟨⟨h.right.writes, h.right.lines⟩, h.edge, h.there.congr rfl rfl rfl rfl rfl rfl⟩
  | interrupt => exact ⟨⟨h.right.writes, h.right.lines⟩, h.edge, h.there.congr rfl rfl rfl rfl rfl rfl⟩
  | onin =>
    unfold Shell.act
    split_ifs with hpc
    · have hthere := h.there
      unfold There at hthere
      rw [hpc] at hthere
      exact ⟨⟨h.right.writes, h.right.lines⟩, h.edge, ⟨hthere.length, hthere.bytes⟩⟩
    · exact h
  | turn ok => exact h.turn hmeets

theorem Fresh.inv (h : s.Fresh) : s.Inv where
  right := ⟨by simp [h.history], by simp [h.history]⟩
  edge _ := by
    rw [h.position]
    decide
  there := by
    unfold There
    rw [h.pc]
    exact ⟨by simp [h.history, h.position], by simp [h.history]⟩

/-- **The line buffer**, in a run in which each byte read meets the condition. -/
theorem lines_right (hr : (system.restrict Meets).Reach s) : s.Right := by
  have hinv : s.Inv := hr.invariant (fun s h0 => h0.inv) fun _ _ _ _ hinv hstep => hstep.2 ▸ hinv.act hstep.1
  exact hinv.right

/-- All steps of a run meet the condition. -/
def meetAll : Shell → List Act → Bool
  | _, [] => true
  | s, a :: as => decide (s.Meets a) && meetAll (s.act a) as

theorem reach_acts : ∀ (as : List Act) {s : Shell}, (system.restrict Meets).Reach s → meetAll s as = true →
    (system.restrict Meets).Reach (as.foldl act s)
  | [], _, hr, _ => hr
  | a :: as, _, hr, h => by
    obtain ⟨ha, has⟩ := (Bool.and_eq_true _ _).mp h
    exact reach_acts as (hr.step (i := a) ⟨of_decide_eq_true ha, rfl⟩) has

theorem reach_foldl : ∀ (as : List Act) {s : Shell}, system.Reach s → system.Reach (as.foldl act s)
  | [], _, hr => hr
  | a :: as, _, hr => reach_foldl as (hr.step (i := a) rfl)

def atPrompt (echo : Bool) : Shell where
  echo := echo
  cmdBuff := fun _ => 0
  position := 0
  ch := 0
  outputInterrupted := false
  prompted := true
  stream := []
  pc := .wait
  accepted := []
  writes := []
  lines := []

theorem atPrompt_fresh (echo : Bool) : (atPrompt echo).Fresh := ⟨rfl, rfl, rfl, rfl, rfl⟩

/-- "ab", a backspace and a carriage return; a handler writes in between. -/
theorem lines_right_edited :
    let s := ([.arrive [97, 98], .onin, .turn true, .turn true, .interrupt, .turn true, .arrive [8, 13], .turn true,
      .turn true, .turn true, .turn true, .turn true] : List Act).foldl act (atPrompt true)
    s.Right ∧ s.lines = [(some [97], [97])] := by
  refine ⟨lines_right (reach_acts _ (.start (atPrompt_fresh true)) ?_), ?_⟩
  · decide +kernel
  · decide +kernel

/-- A line of 129 letters, with echo off. -/
theorem lines_behind : ∃ s, system.Reach s ∧ s.echo = false ∧ ¬s.Right := by
  let as : List Act := .arrive (List.replicate 129 97) :: .onin :: List.replicate 258 (.turn true)
  refine ⟨as.foldl act (atPrompt false), reach_foldl as (.start (atPrompt_fresh false)), by decide +kernel, fun h => ?_⟩
  have hmem : 128 ∈ (as.foldl act (atPrompt false)).writes := by decide +kernel
  exact absurd (h.writes 128 hmem) (by decide)

end Shell
end Vsf
