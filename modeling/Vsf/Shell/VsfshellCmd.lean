/-
# The command line of the shell

`vsfshell_parse_cmd` cuts a line in place and copies each token to a block of its own: a run of
characters that are not spaces, or what stands between quotes. `vsfshell_new_handler_thread` looks
the first one up. A line of spaces is no error, so a handler is looked up under `NULL`; and a token
that `argv` has no place for ends the line, whatever follows.
-/
import Mathlib
import Vsf.Lib.CStr
import Vsf.Lib.Heap
import Vsf.Framework.Evtq

namespace Vsf
namespace ShellCmd

open ByteMem CStr Malloc List Option

/-- `dimof(param->argv)`. -/
def argvDim : ℕ := 16

/-- More than any string is long. -/
def span : ℕ := 2 ^ 16

/-- `'\''` and `'"'`. -/
def isQuote (c : UInt8) : Bool := c = 39 ∨ c = 34

/-- What a run goes on with. -/
def inRun (c : UInt8) : Bool := !isSpace c && c != 0

/-- The locals of `vsfshell_parse_cmd`: the line, `param->argv`, and the memory. -/
structure Split where
  cmd : Mem
  i : ℕ
  argv : List ℕ
  argvNum : ℕ
  mem : Mem
  heap : Heap

/-- How a turn ends: at its end, at a `break`, at `return VSFERR_FAIL`. -/
inductive Turn
  | again (s : Split)
  | stop (s : Split)
  | fail (s : Split)

variable (A : Allocator) (argc : ℕ)

/-- `while (P(cmd[i])) i++`; `i` has 16 bits. -/
def scan (P : UInt8 → Bool) (cmd : Mem) : ℕ → ℕ → Option ℕ
  | 0, _ => none
  | n + 1, i => if P (cmd i) then scan P cmd n ((i + 1) % 2 ^ 16) else some i

/-- The loop to the other quote, which may be missing; `j` has 8 bits. -/
def toDivider (cmd : Mem) (divider : UInt8) : ℕ → ℕ → Option (Option ℕ)
  | 0, _ => none
  | n + 1, j =>
    if cmd j = divider then some (some j)
    else if cmd j = 0 then some none
    else toDivider cmd divider n ((j + 1) % 2 ^ 8)

namespace Split

/-- The turn from `if (argv_num >= param->argc)` on, with `argv_tmp` at `p`. -/
def copy (s : Split) (p : ℕ) : Option Turn :=
  if argc ≤ s.argvNum then some (.stop s)
  else
    (strAt s.cmd span p).map fun t =>
      match s.heap.malloc A (t.length + 1) with
      | (some a, heap) => .again { s with
          argv := s.argv.set s.argvNum a
          argvNum := (s.argvNum + 1) % 2 ^ 8
          mem := write s.mem a (t ++ [0])
          heap := heap }
      | (none, heap) => .fail { s with argv := s.argv.set s.argvNum 0, heap := heap }

/-- The turn from `cmd[i++] = '\0'` on. -/
def cut (s : Split) (p i : ℕ) : Option Turn :=
  copy A argc { s with cmd := Function.update s.cmd i 0, i := (i + 1) % 2 ^ 16 } p

/-- A turn of the loop. -/
def turn (s : Split) : Option Turn :=
  (scan isSpace s.cmd span s.i).bind fun i =>
    if s.cmd i = 0 then some (.stop { s with i := i })
    else if isQuote (s.cmd i) then
      (toDivider s.cmd (s.cmd i) (2 ^ 8) ((i + 1) % 2 ^ 8)).bind fun
        | some j => s.cut A argc ((i + 1) % 2 ^ 8) j
        | none => some (.fail { s with i := i })
    else (scan inRun s.cmd span i).bind fun e => s.cut A argc i e

/-- The loop; it has no result if it does not end. -/
def loop (cmdLen : ℕ) : ℕ → Split → Option (Err × Split)
  | 0, _ => none
  | n + 1, s =>
    if s.i < cmdLen then
      (s.turn A argc).bind fun
        | .again s => loop cmdLen n s
        | .stop s => some (.none, s)
        | .fail s => some (.fail, s)
    else some (.none, s)

end Split

/-- The two fields of `struct vsfshell_handler_param_t` that are parsed. -/
structure Param where
  argc : ℕ
  argv : List ℕ

/-- What `vsfshell_parse_cmd` returns and leaves. -/
structure Parsed where
  err : Err
  param : Param
  cmd : Mem
  mem : Mem
  heap : Heap

/-- `vsfshell_parse_cmd`, with `argc` in `param->argc`. -/
def parseCmd (cmd mem : Mem) (h : Heap) : Option Parsed :=
  (strAt cmd span 0).bind fun line =>
    (Split.loop A argc (line.length % 2 ^ 8) span ⟨cmd, 0, List.replicate argvDim 0, 0, mem, h⟩).map fun (err, s) =>
      ⟨err, ⟨if err = .none then s.argvNum else argc, s.argv⟩, s.cmd, s.mem, s.heap⟩

/-- `vsfshell_free_param`, of the block at `param`. -/
def freeParam (param : ℕ) (argv : List ℕ) (h : Heap) : Heap :=
  (argv.foldl (fun h a => if a ≠ 0 then h.free a else h) h).free param

/-- `struct vsfshell_handler_t`. -/
structure Handler where
  name : List UInt8
  thread : ℕ
  context : ℕ
deriving DecidableEq

/-- `vsfshell_search_handler`: `strcmp` with `NULL` has no result. -/
def searchHandler (handlers : List Handler) (mem : Mem) (name : ℕ) : Option (Option Handler) :=
  match handlers with
  | [] => some none
  | x :: rest => if name = 0 then none else (strAt mem span name).map fun t => (x :: rest).find? fun y => y.name = t

/-- What a handler runs on: the block of its `param`, and fields of it. -/
structure Running where
  block : ℕ
  param : Param
  thread : ℕ
  context : ℕ

/-- What `vsfshell_new_handler_thread` returns, `input_sm`, what it leaves, and the name looked up. -/
structure Outcome where
  err : Option Err
  running : Option Running
  lookup : Option ℕ
  cmd : Mem
  mem : Mem
  heap : Heap

/-- `vsfshell_new_handler_thread` from its `if (vsfshell_parse_cmd(..))` on, `param` at `a`. -/
def Parsed.start (r : Parsed) (a : ℕ) (handlers : List Handler) : Outcome :=
  if r.err ≠ .none then ⟨some .fail, none, none, r.cmd, r.mem, freeParam a r.param.argv r.heap⟩
  else
    let name := r.param.argv.headD 0
    match searchHandler handlers r.mem name with
    | none => ⟨none, none, some name, r.cmd, r.mem, r.heap⟩
    | some none => ⟨some .fail, none, some name, r.cmd, r.mem, freeParam a r.param.argv r.heap⟩
    | some (some x) => ⟨some .none, some ⟨a, r.param, x.thread, x.context⟩, some name, r.cmd, r.mem, r.heap⟩

/-- `vsfshell_new_handler_thread`; `paramBytes` is `sizeof(*param)`. -/
def newHandlerThread (paramBytes : ℕ) (handlers : List Handler) (cmd mem : Mem) (h : Heap) : Option Outcome :=
  match h.malloc A paramBytes with
  | (none, h) => some ⟨some .notEnoughResources, none, none, cmd, mem, h⟩
  | (some a, h) => (parseCmd A argvDim cmd mem h).map fun r => r.start a handlers

/-! ### The tokens of a line -/

/-- The tokens, and whether the last quote is left open. -/
def tokens : List UInt8 → List (List UInt8) × Bool
  | [] => ([], false)
  | c :: cs =>
    if isSpace c then tokens cs
    else if isQuote c then
      if c ∈ cs then
        let r := tokens (cs.dropWhile (· ≠ c)).tail
        (cs.takeWhile (· ≠ c) :: r.1, r.2)
      else ([], true)
    else
      let r := tokens (cs.dropWhile fun b => !isSpace b)
      ((c :: cs.takeWhile fun b => !isSpace b) :: r.1, r.2)
termination_by cs => cs.length
decreasing_by
  all_goals simp only [length_cons, length_tail]
  · omega
  · have := (dropWhile_sublist (fun b => decide (b ≠ c)) (l := cs)).length_le
    omega
  · have := (dropWhile_sublist (fun b => !isSpace b) (l := cs)).length_le
    omega

/-- There is memory for the tokens that are copied. -/
def served (line : List UInt8) (h : Heap) : Bool :=
  (Heap.mallocAll A (((tokens line).1.take argc).map fun t => t.length + 1) h).1

/-- The blocks of the copies. -/
def blocks (argv : List ℕ) (toks : List (List UInt8)) : List Block := (argv.zip toks).map fun x => ⟨x.1, x.2.length + 1⟩

/-- **What both are for**: a line is parsed unless a quote is open or memory runs out, `argv` has copies of
the tokens in blocks of their own; a handler is looked up only for a token, and an error gives all memory
back once. -/
structure Right (paramBytes : ℕ) (handlers : List Handler) (line : List UInt8) (cmd mem : Mem) (h : Heap) : Prop where
  parsed : ∃ r, parseCmd A argvDim cmd mem h = some r
  fail : ∀ r ∈ parseCmd A argvDim cmd mem h, r.err = .fail ↔ (tokens line).2 = true ∨ served A argvDim line h = false
  done : ∀ r ∈ parseCmd A argvDim cmd mem h, r.err ≠ .fail → r.err = .none ∧ r.param.argc = min (tokens line).1.length argvDim
  copies : ∀ r ∈ parseCmd A argvDim cmd mem h, r.err ≠ .fail → ∀ k < r.param.argc, ∃ a t,
    r.param.argv[k]? = some a ∧ (tokens line).1[k]? = some t ∧ Holds r.mem a (t ++ [0])
  own : ∀ r ∈ parseCmd A argvDim cmd mem h, r.err ≠ .fail →
    r.heap.live.Perm (blocks (r.param.argv.take r.param.argc) (tokens line).1 ++ h.live)
  started : ∃ r, newHandlerThread A paramBytes handlers cmd mem h = some r
  lookup : ∀ r ∈ newHandlerThread A paramBytes handlers cmd mem h, r.lookup ≠ none → (tokens line).1 ≠ []
  freed : ∀ r ∈ newHandlerThread A paramBytes handlers cmd mem h, ∀ e, r.err = some e → e ≠ .none →
    (∀ b, b ∈ r.heap.live ↔ b ∈ h.live) ∧ r.heap.strays = h.strays

/-- An open quote has at most 16 tokens before it, unless memory runs out; a line without a token has one,
unless there is no memory for `param`. -/
structure RightWhen (paramBytes : ℕ) (line : List UInt8) (h : Heap) : Prop where
  quote : (tokens line).2 = true → (tokens line).1.length ≤ argvDim ∨ served A argvDim line h = false
  blank : (tokens line).1 = [] → (tokens line).2 = true ∨ (h.malloc A paramBytes).1 = none

variable {A : Allocator} {argc : ℕ} {c q : UInt8} {xs ys rest : List UInt8}

theorem not_isSpace_of_isQuote (h : isQuote q = true) : isSpace q = false := by
  rcases of_decide_eq_true h with rfl | rfl <;> rfl

theorem tokens_blank (h : ∀ c ∈ xs, isSpace c = true) : tokens (xs ++ rest) = tokens rest := by
  induction xs with
  | nil => rfl
  | cons x xs ih =>
    obtain ⟨hx, hxs⟩ := forall_mem_cons.mp h
    rw [cons_append, tokens, if_pos hx, ih hxs]

/-- A token between two quotes; they may follow on one another. -/
theorem tokens_quote (hq : isQuote q = true) (hx : q ∉ xs) :
    tokens (q :: (xs ++ q :: rest)) = (xs :: (tokens rest).1, (tokens rest).2) := by
  have hne : ∀ b ∈ xs, decide (b ≠ q) = true := fun b hb => decide_eq_true fun he => hx (he ▸ hb)
  have htake : (xs ++ q :: rest).takeWhile (fun b => decide (b ≠ q)) = xs := by
    rw [takeWhile_append_of_pos hne, takeWhile_cons_of_neg (by simp), append_nil]
  have hdrop : (xs ++ q :: rest).dropWhile (fun b => decide (b ≠ q)) = q :: rest := by
    rw [dropWhile_append_of_pos hne, dropWhile_cons_of_neg (by simp)]
  have hspace : ¬isSpace q = true := by
    rw [not_isSpace_of_isQuote hq]
    exact Bool.false_ne_true
  rw [tokens, if_neg hspace, if_pos hq, if_pos (mem_append_right _ mem_cons_self), htake, hdrop, tail_cons]

theorem tokens_open (hq : isQuote q = true) (hx : q ∉ xs) : tokens (q :: xs) = ([], true) := by
  have hspace : ¬isSpace q = true := by
    rw [not_isSpace_of_isQuote hq]
    exact Bool.false_ne_true
  rw [tokens, if_neg hspace, if_pos hq, if_neg hx]

theorem tokens_run (hs : ¬isSpace c = true) (hq : ¬isQuote c = true) (hx : ∀ b ∈ xs, (!isSpace b) = true)
    (hr : ∀ b ∈ rest.head?, isSpace b = true) :
    tokens (c :: (xs ++ rest)) = ((c :: xs) :: (tokens rest.tail).1, (tokens rest.tail).2) := by
  have htake : (xs ++ rest).takeWhile (fun b => !isSpace b) = xs := by
    rw [takeWhile_append_of_pos hx]
    cases rest with
    | nil => exact append_nil xs
    | cons b rest => rw [takeWhile_cons_of_neg (by simp [hr b rfl]), append_nil]
  have hdrop : (xs ++ rest).dropWhile (fun b => !isSpace b) = rest := by
    rw [dropWhile_append_of_pos hx]
    cases rest with
    | nil => rfl
    | cons b rest => exact dropWhile_cons_of_neg (by simp [hr b rfl])
  have htail : tokens rest = tokens rest.tail := by
    cases rest with
    | nil => rfl
    | cons b rest => rw [tokens, if_pos (hr b rfl), tail_cons]
  rw [tokens, if_neg hs, if_neg hq, htake, hdrop, htail]

/-! ### The loops over the line -/

variable {cmd : Mem} {P : UInt8 → Bool} {i j p n len : ℕ}

theorem scan_of (h : Holds cmd i (xs ++ c :: rest)) (hx : ∀ b ∈ xs, P b = true) (hc : ¬P c = true) (hn : xs.length < n)
    (hi : i + xs.length < 2 ^ 16) : scan P cmd n i = some (i + xs.length) := by
  induction xs generalizing i n with
  | nil =>
    obtain ⟨n, rfl⟩ := Nat.exists_eq_add_of_lt hn
    rw [scan, (holds_cons.mp h).1, if_neg hc]
    rfl
  | cons x xs ih =>
    obtain ⟨n, rfl⟩ := Nat.exists_eq_add_of_lt hn
    obtain ⟨hb, hbs⟩ := holds_cons.mp h
    obtain ⟨hPx, hPxs⟩ := forall_mem_cons.mp hx
    rw [length_cons] at hi
    rw [scan, hb, if_pos hPx, Nat.mod_eq_of_lt (by omega), ih hbs hPxs (by rw [length_cons]; omega) (by omega), length_cons]
    congr 1
    omega

/-- The loop to the other quote ends there, or at the zero. -/
theorem toDivider_of (h : Holds cmd j (xs ++ c :: rest)) (hx : q ∉ xs) (h0 : 0 ∉ xs) (hc : c = q ∨ c = 0) (hn : xs.length < n)
    (hj : j + xs.length < 2 ^ 8) : toDivider cmd q n j = some (if c = q then some (j + xs.length) else none) := by
  induction xs generalizing j n with
  | nil =>
    obtain ⟨n, rfl⟩ := Nat.exists_eq_add_of_lt hn
    rw [toDivider, (holds_cons.mp h).1]
    by_cases hcq : c = q
    · rw [if_pos hcq, if_pos hcq]
      rfl
    · rw [if_neg hcq, if_neg hcq, if_pos (hc.resolve_left hcq)]
  | cons x xs ih =>
    obtain ⟨n, rfl⟩ := Nat.exists_eq_add_of_lt hn
    obtain ⟨hb, hbs⟩ := holds_cons.mp h
    obtain ⟨hqx, hqxs⟩ := ne_and_not_mem_of_not_mem_cons hx
    obtain ⟨h0x, h0xs⟩ := ne_and_not_mem_of_not_mem_cons h0
    rw [length_cons] at hj
    rw [toDivider, hb, if_neg hqx.symm, if_neg h0x.symm, Nat.mod_eq_of_lt (by omega),
      ih hbs hqxs h0xs (by rw [length_cons]; omega) (by omega), length_cons, add_right_comm, add_assoc]

/-! ### A turn -/

/-- What is left of a line of `len` characters is at `i`; or the loop is behind its zero. -/
def Left (len : ℕ) (cmd : Mem) (i : ℕ) (rest : List UInt8) : Prop :=
  len ≤ i ∧ rest = [] ∨ i + rest.length = len ∧ Holds cmd i (rest ++ [0])

/-- How a turn goes, by what is left: nothing, an open quote, or a token `t` at `p`, which is copied. -/
inductive Turned (A : Allocator) (argc len : ℕ) (s : Split) (rest : List UInt8) : Prop
  | blank (i : ℕ) : tokens rest = ([], false) → s.turn A argc = some (.stop { s with i := i }) → Turned A argc len s rest
  | opened (i : ℕ) : tokens rest = ([], true) → s.turn A argc = some (.fail { s with i := i }) → Turned A argc len s rest
  | token (t rest' : List UInt8) (cmd : Mem) (i p : ℕ) : tokens rest = (t :: (tokens rest').1, (tokens rest').2) →
      rest'.length < rest.length → 0 ∉ rest' → Left len cmd i rest' → strAt cmd span p = some t →
      s.turn A argc = Split.copy A argc { s with cmd := cmd, i := i } p → Turned A argc len s rest

variable (A argc) in
theorem cut_spec {s : Split} (h : Holds s.cmd p (xs ++ c :: ys)) (h0 : 0 ∉ xs) (hp : p + xs.length < 2 ^ 8) :
    ∃ cmd, s.cut A argc p (p + xs.length) = Split.copy A argc { s with cmd := cmd, i := p + xs.length + 1 } p ∧
      strAt cmd span p = some xs ∧ Holds cmd (p + xs.length + 1) ys := by
  obtain ⟨hx, hcy⟩ := holds_append.mp h
  obtain ⟨-, hy⟩ := holds_cons.mp hcy
  refine ⟨Function.update s.cmd (p + xs.length) 0, ?_, ?_, hy.update (by omega) 0⟩
  · rw [Split.cut, Nat.mod_eq_of_lt (by omega)]
  · have hz : Holds (Function.update s.cmd (p + xs.length) 0) (p + xs.length) [0] :=
      holds_cons.mpr ⟨Function.update_self .., holds_nil _ _⟩
    rw [strAt_of (holds_append.mpr ⟨hx.update (by omega) 0, hz⟩) (by rw [span]; omega), said_eq h0]

theorem exists_front (P : UInt8 → Bool) (xs : List UInt8) :
    ∃ ys zs, xs = ys ++ zs ∧ (∀ b ∈ ys, P b = true) ∧ ∀ b ∈ zs.head?, P b = false := by
  refine ⟨_, _, (takeWhile_append_dropWhile (p := P)).symm, fun b hb => mem_takeWhile_imp hb, fun b hb => ?_⟩
  have hhead := head?_dropWhile_not P xs
  rw [hb] at hhead
  exact hhead

theorem turn_quote {s : Split} (hlen : len < 2 ^ 8) (hi : i + (q :: xs).length = len) (h : Holds s.cmd i (q :: xs ++ [0])) (h0 : 0 ∉ q :: xs)
    (hq : isQuote q = true) (hscan : scan isSpace s.cmd span s.i = some i) : Turned A argc len s (q :: xs) := by
  obtain ⟨hqi, hxs⟩ := holds_cons.mp h
  obtain ⟨hq0, h0xs⟩ := ne_and_not_mem_of_not_mem_cons h0
  rw [length_cons] at hi
  have hturn : s.turn A argc = (toDivider s.cmd q (2 ^ 8) (i + 1)).bind fun
      | some j => s.cut A argc (i + 1) j
      | none => some (.fail { s with i := i }) := by
    rw [Split.turn, hscan, bind_some, hqi, if_neg hq0.symm, if_pos hq, Nat.mod_eq_of_lt (by omega)]
  by_cases hmem : q ∈ xs
  · obtain ⟨t, rest, rfl, ht⟩ := eq_append_cons_of_mem hmem
    have hcut : Holds s.cmd (i + 1) (t ++ q :: (rest ++ [0])) := by
      rwa [← cons_append, ← append_assoc]
    rw [length_append, length_cons] at hi
    obtain ⟨ht0, hqr0⟩ := not_or.mp (mt mem_append.mpr h0xs)
    have hr0 : 0 ∉ rest := fun hm => hqr0 (mem_cons_of_mem _ hm)
    obtain ⟨cmd, hcopy, hstr, hleft⟩ := cut_spec A argc hcut ht0 (by omega)
    refine .token t rest cmd _ (i + 1) (tokens_quote hq ht) ?_ hr0 (.inr ⟨by omega, hleft⟩) hstr ?_
    · rw [length_cons, length_append, length_cons]
      omega
    · rw [hturn, toDivider_of hcut ht ht0 (.inl rfl) (by omega) (by omega), if_pos rfl]
      exact hcopy
  · refine .opened i (tokens_open hq hmem) ?_
    rw [hturn, toDivider_of hxs hmem h0xs (.inr rfl) (by omega) (by omega), if_neg hq0]
    rfl

theorem turn_run {s : Split} (hlen : len < 2 ^ 8) (hi : i + (c :: xs).length = len) (h : Holds s.cmd i (c :: xs ++ [0])) (h0 : 0 ∉ c :: xs)
    (hs : isSpace c = false) (hq : ¬isQuote c = true) (hscan : scan isSpace s.cmd span s.i = some i) : Turned A argc len s (c :: xs) := by
  obtain ⟨t, rest, rfl, ht, hrest⟩ := exists_front (fun b => !isSpace b) xs
  have hspace : ∀ b ∈ rest.head?, isSpace b = true := fun b hb => by simpa using hrest b hb
  rw [← cons_append] at h h0 hi
  obtain ⟨ht0, hr0⟩ := not_or.mp (mt mem_append.mpr h0)
  rw [length_append] at hi
  have htokens : tokens (c :: (t ++ rest)) = _ := tokens_run (by rw [hs]; exact Bool.false_ne_true) hq ht hspace
  have hrun : ∀ b ∈ c :: t, inRun b = true := by
    intro b hb
    have hb0 : b ≠ 0 := fun he => ht0 (he ▸ hb)
    have hbs : isSpace b = false := by
      rcases mem_cons.mp hb with rfl | hb
      · exact hs
      · simpa using ht b hb
    rw [inRun, hbs, bne_iff_ne.mpr hb0]
    rfl
  have hturn : s.turn A argc = (scan inRun s.cmd span i).bind fun e => s.cut A argc i e := by
    have hci : s.cmd i = c := (holds_cons.mp h).1
    rw [Split.turn, hscan, bind_some, hci, if_neg (ne_of_not_mem_cons ht0).symm, if_neg hq]
  cases rest with
  | nil =>
    -- the zero that is written is the one of the line
    rw [append_nil] at h
    rw [length_nil] at hi
    obtain ⟨cmd, hcopy, hstr, -⟩ := cut_spec A argc h ht0 (by omega)
    refine .token (c :: t) [] cmd (i + (c :: t).length + 1) i htokens ?_ not_mem_nil (.inl ⟨by omega, rfl⟩) hstr ?_
    · exact Nat.succ_pos _
    · rw [hturn, scan_of h hrun (by decide) (by rw [span]; omega) (by omega)]
      exact hcopy
  | cons b rest =>
    rw [append_assoc] at h
    have hb1 : (b :: rest).length = rest.length + 1 := length_cons
    obtain ⟨cmd, hcopy, hstr, hleft⟩ := cut_spec A argc h ht0 (by omega)
    have hb : ¬inRun b = true := by
      rw [inRun, hspace b rfl]
      exact Bool.false_ne_true
    refine .token (c :: t) rest cmd _ i htokens ?_ (fun hm => hr0 (mem_cons_of_mem _ hm)) (.inr ⟨by omega, hleft⟩) hstr ?_
    · simp only [length_cons, length_append]
      omega
    · rw [hturn, scan_of h hrun hb (by rw [span]; omega) (by omega)]
      exact hcopy

theorem Turned.blanks {s : Split} (h : Turned A argc len s rest) (hx : ∀ c ∈ xs, isSpace c = true) : Turned A argc len s (xs ++ rest) := by
  have htokens : tokens (xs ++ rest) = tokens rest := tokens_blank hx
  cases h with
  | blank i hr hturn => exact .blank i (htokens.trans hr) hturn
  | opened i hr hturn => exact .opened i (htokens.trans hr) hturn
  | token t rest' cmd i p hr hlt h0 hleft hstr hturn =>
    refine .token t rest' cmd i p (htokens.trans hr) ?_ h0 hleft hstr hturn
    rw [length_append]
    exact Nat.lt_add_left _ hlt

variable (A argc) in
/-- **A turn** finds the next token. -/
theorem turn_spec {s : Split} (hlen : len < 2 ^ 8) (hi : s.i + rest.length = len) (h : Holds s.cmd s.i (rest ++ [0])) (h0 : 0 ∉ rest) :
    Turned A argc len s rest := by
  obtain ⟨sp, rest, rfl, hsp, hhead⟩ := exists_front isSpace rest
  refine Turned.blanks ?_ hsp
  rw [append_assoc] at h
  rw [length_append] at hi
  have hrest := (holds_append.mp h).2
  have h0rest : 0 ∉ rest := fun hm => h0 (mem_append_right _ hm)
  cases rest with
  | nil =>
    have hscan := scan_of (n := span) h hsp (by decide) (by rw [span]; omega) (by omega)
    refine .blank (s.i + sp.length) (by rw [tokens]) ?_
    rw [Split.turn, hscan, bind_some, if_pos (holds_cons.mp hrest).1]
  | cons c cs =>
    have hspace : isSpace c = false := hhead c rfl
    have hscan := scan_of (n := span) h hsp (by rw [hspace]; exact Bool.false_ne_true) (by rw [span]; omega) (by omega)
    by_cases hq : isQuote c = true
    · exact turn_quote hlen (by omega) hrest h0rest hq hscan
    · exact turn_run hlen (by omega) hrest h0rest hspace hq hscan

/-! ### The copies -/

/-- What the loop owns: copies of `toks` at `addrs`, in own blocks; the heap was `h₀` before. -/
structure Owned (h₀ : Heap) (toks : List (List UInt8)) (addrs : List ℕ) (s : Split) : Prop where
  argv : s.argv = addrs ++ List.replicate (argvDim - addrs.length) 0
  num : s.argvNum = addrs.length
  len : addrs.length = toks.length
  copies : ∀ x ∈ addrs.zip toks, Holds s.mem x.1 (x.2 ++ [0])
  live : s.heap.live.Perm (blocks addrs toks ++ h₀.live)
  ok : s.heap.Ok
  strays : s.heap.strays = h₀.strays

variable {h₀ h : Heap} {toks : List (List UInt8)} {addrs : List ℕ} {s : Split} {t : List UInt8}

theorem set_argv (h : addrs.length < argvDim) (a : ℕ) :
    (addrs ++ List.replicate (argvDim - addrs.length) 0).set addrs.length a =
      addrs ++ a :: List.replicate (argvDim - (addrs.length + 1)) 0 := by
  rw [set_append_right _ _ (le_refl _), Nat.sub_self, show argvDim - addrs.length = argvDim - (addrs.length + 1) + 1 by omega]
  rfl

/-- How a token is copied, when there are `k` copies. -/
inductive Copied (A : Allocator) (argc : ℕ) (h₀ : Heap) (toks : List (List UInt8)) (addrs : List ℕ) (s : Split) (t : List UInt8)
    (p : ℕ) : Prop
  | full : argc ≤ toks.length → s.copy A argc p = some (.stop s) → Copied A argc h₀ toks addrs s t p
  | fail (s' : Split) : toks.length < argc → (s.heap.malloc A (t.length + 1)).1 = none → s.copy A argc p = some (.fail s') →
      Owned h₀ toks addrs s' → Copied A argc h₀ toks addrs s t p
  | again (s' : Split) (a : ℕ) : toks.length < argc → (s.heap.malloc A (t.length + 1)).1 = some a →
      s.copy A argc p = some (.again s') → s'.heap = (s.heap.malloc A (t.length + 1)).2 → s'.cmd = s.cmd → s'.i = s.i →
      Owned h₀ (toks ++ [t]) (addrs ++ [a]) s' → Copied A argc h₀ toks addrs s t p

theorem blocks_append (h : addrs.length = toks.length) (a : ℕ) (t : List UInt8) :
    blocks (addrs ++ [a]) (toks ++ [t]) = blocks addrs toks ++ [⟨a, t.length + 1⟩] := by
  rw [blocks, zip_append h, map_append]
  rfl

theorem mem_blocks {x : ℕ × List UInt8} (hx : x ∈ addrs.zip toks) : ⟨x.1, x.2.length + 1⟩ ∈ blocks addrs toks :=
  List.mem_map_of_mem hx

/-- **A copy** goes to a block of its own, and the others stay. -/
theorem copy_spec (hargc : argc ≤ argvDim) (ho : Owned h₀ toks addrs s) (ht : strAt s.cmd span p = some t) :
    Copied A argc h₀ toks addrs s t p := by
  have hnum : s.argvNum = toks.length := ho.num.trans ho.len
  by_cases hfull : argc ≤ toks.length
  · refine .full hfull ?_
    rw [Split.copy, if_pos (hnum ▸ hfull)]
  · have hlt : toks.length < argc := not_le.mp hfull
    have hdim : addrs.length < argvDim := by
      have := ho.len
      omega
    have hset : ∀ a, s.argv.set s.argvNum a = addrs ++ a :: List.replicate (argvDim - (addrs.length + 1)) 0 := by
      intro a
      rw [ho.argv, ho.num]
      exact set_argv hdim a
    have hcopy : s.copy A argc p = some (match s.heap.malloc A (t.length + 1) with
        | (some a, heap) => .again { s with
            argv := s.argv.set s.argvNum a
            argvNum := (s.argvNum + 1) % 2 ^ 8
            mem := write s.mem a (t ++ [0])
            heap := heap }
        | (none, heap) => .fail { s with argv := s.argv.set s.argvNum 0, heap := heap }) := by
      rw [Split.copy, if_neg (hnum ▸ hfull), ht]
      rfl
    rw [← Prod.mk.eta (p := s.heap.malloc A (t.length + 1))] at hcopy
    rcases Heap.malloc_cases A (t.length + 1) s.heap with ⟨a, hm, hpos, hpick, hw⟩ | ⟨hm, hw⟩
    · rw [hm] at hcopy
      refine .again _ a hlt hm hcopy rfl rfl rfl ⟨?_, ?_, ?_, ?_, ?_, ?_, ?_⟩
      · rw [hset, length_append, append_assoc]
        rfl
      · rw [length_append, ← ho.num]
        exact Nat.mod_eq_of_lt (by rw [ho.num]; unfold argvDim at hdim; omega)
      · rw [length_append, length_append, ho.len]
        rfl
      · intro x hx
        rw [zip_append ho.len] at hx
        rcases mem_append.mp hx with hx | hx
        · have hin : ⟨x.1, x.2.length + 1⟩ ∈ s.heap.live := ho.live.mem_iff.mpr (mem_append_left _ (mem_blocks hx))
          refine holds_write_apart (ho.copies x hx) ?_
          have hap := A.apart hpick _ hin
          simpa [Block.Apart] using hap
        · obtain rfl := mem_singleton.mp hx
          exact holds_write _ _ _
      · rw [hw, blocks_append ho.len, append_assoc]
        exact (ho.live.cons _).trans perm_middle.symm
      · rw [hw]
        exact ho.ok.malloc hpos hpick
      · rw [hw]
        exact ho.strays
    · rw [hm] at hcopy
      refine .fail _ hlt hm hcopy ⟨?_, ho.num, ho.len, ho.copies, ?_, ?_, ?_⟩
      · rw [hset, show argvDim - addrs.length = argvDim - (addrs.length + 1) + 1 by omega]
        rfl
      · rw [hw]
        exact ho.live
      · rw [hw]
        exact ⟨ho.ok.inside, ho.ok.apart⟩
      · rw [hw]
        exact ho.strays

/-! ### The whole line -/

/-- How the loop ends, when `toks` were copied and `rest` is left. -/
structure Ended (A : Allocator) (argc : ℕ) (h₀ : Heap) (toks : List (List UInt8)) (h : Heap) (rest : List UInt8) (r : Err × Split) : Prop where
  err : r.1 = .none ∨ r.1 = .fail
  fail : r.1 = .fail ↔ (Heap.mallocAll A (((tokens rest).1.take (argc - toks.length)).map fun t => t.length + 1) h).1 = false ∨
    (tokens rest).2 = true ∧ toks.length + (tokens rest).1.length ≤ argc
  owned : ∃ ts addrs, Owned h₀ (toks ++ ts) addrs r.2 ∧ (r.1 = .none → ts = (tokens rest).1.take (argc - toks.length))

theorem Owned.move (ho : Owned h₀ toks addrs s) (cmd : Mem) (i : ℕ) : Owned h₀ toks addrs { s with cmd := cmd, i := i } :=
  ⟨ho.argv, ho.num, ho.len, ho.copies, ho.live, ho.ok, ho.strays⟩

theorem Ended.of_nil {b : Bool} {err : Err} (htok : tokens rest = ([], b)) (ho : Owned h₀ toks addrs s)
    (hk : toks.length ≤ argc) (herr : err = if b then .fail else .none) : Ended A argc h₀ toks h rest (err, s) := by
  refine ⟨?_, ?_, [], addrs, by rwa [append_nil], fun _ => by rw [htok, take_nil]⟩
  · subst herr
    cases b with
    | false => exact .inl rfl
    | true => exact .inr rfl
  · subst herr
    rw [htok, take_nil]
    cases b with
    | false => simp [Heap.mallocAll]
    | true => simp [hk]

/-- **The loop** copies the tokens, up to the first without memory or a place for it. -/
theorem loop_spec (hargc : argc ≤ argvDim) (hlen : len < 2 ^ 8) : ∀ (n : ℕ) {s : Split} {rest : List UInt8} {toks : List (List UInt8)}
    {addrs : List ℕ}, rest.length < n → Left len s.cmd s.i rest → 0 ∉ rest → toks.length ≤ argc → Owned h₀ toks addrs s →
    ∃ r, Split.loop A argc len n s = some r ∧ Ended A argc h₀ toks s.heap rest r
  | 0, _, _, _, _, hn, _, _, _, _ => absurd hn (Nat.not_lt_zero _)
  | n + 1, s, rest, toks, addrs, hn, hl, h0, hk, ho => by
    rw [Split.loop]
    by_cases hlt : s.i < len
    · rw [if_pos hlt]
      obtain ⟨hge, -⟩ | ⟨hi, hh⟩ := hl
      · exact absurd hlt (not_lt.mpr hge)
      cases turn_spec A argc hlen hi hh h0 with
      | blank i htok hturn =>
        rw [hturn]
        exact ⟨_, rfl, .of_nil htok (ho.move s.cmd i) hk rfl⟩
      | opened i htok hturn =>
        rw [hturn]
        exact ⟨_, rfl, .of_nil htok (ho.move s.cmd i) hk rfl⟩
      | token t rest' cmd i p htok hless h0' hleft hstr hturn =>
        rw [hturn]
        cases copy_spec (A := A) hargc (ho.move cmd i) hstr with
        | full hfull hcopy =>
          rw [hcopy]
          have hzero : argc - toks.length = 0 := by omega
          refine ⟨_, rfl, .inl rfl, ?_, [], addrs, by rw [append_nil]; exact ho.move cmd i, fun _ => by rw [hzero, take_zero]⟩
          rw [hzero, take_zero, htok]
          refine iff_of_false nofun (not_or.mpr ⟨nofun, fun hopen => ?_⟩)
          have hle := hopen.2
          rw [length_cons] at hle
          omega
        | fail s' hlt' hm hcopy ho' =>
          rw [hcopy]
          obtain ⟨k, hk'⟩ := Nat.exists_eq_add_of_lt hlt'
          refine ⟨_, rfl, .inr rfl, ?_, [], addrs, by rwa [append_nil], nofun⟩
          rw [htok, show argc - toks.length = k + 1 by omega, take_succ_cons, map_cons, Heap.mallocAll_none hm]
          exact iff_of_true rfl (.inl rfl)
        | again s' a hlt' hm hcopy hheap hcmd hi' ho' =>
          rw [hcopy]
          obtain ⟨k, hk'⟩ := Nat.exists_eq_add_of_lt hlt'
          have hlen' : (toks ++ [t]).length = toks.length + 1 := length_append
          have hleft' : Left len s'.cmd s'.i rest' := by rwa [hcmd, hi']
          obtain ⟨r, hr, hend⟩ := loop_spec hargc hlen n (by omega) hleft' h0' (by omega) ho'
          refine ⟨r, hr, hend.err, ?_, ?_⟩
          · rw [hend.fail, hheap, htok, hlen', show argc - toks.length = k + 1 by omega, show argc - (toks.length + 1) = k by omega,
              take_succ_cons, map_cons, Heap.mallocAll_some hm, length_cons, add_right_comm, add_assoc]
          · obtain ⟨ts, addrs', hown, hts⟩ := hend.owned
            refine ⟨t :: ts, addrs', by rwa [append_cons], fun he => ?_⟩
            rw [htok, hts he, hlen', show argc - toks.length = k + 1 by omega, show argc - (toks.length + 1) = k by omega,
              take_succ_cons]
    · rw [if_neg hlt]
      have hnil : rest = [] := by
        rcases hl with ⟨-, hnil⟩ | ⟨hi, -⟩
        · exact hnil
        · exact length_eq_zero_iff.mp (by omega)
      exact ⟨_, rfl, .of_nil (by rw [hnil, tokens]) ho hk rfl⟩

/-- What `vsfshell_parse_cmd` does with a line. -/
structure Parses (A : Allocator) (argc : ℕ) (line : List UInt8) (h : Heap) (r : Parsed) : Prop where
  err : r.err = .none ∨ r.err = .fail
  fail : r.err = .fail ↔ served A argc line h = false ∨ (tokens line).2 = true ∧ (tokens line).1.length ≤ argc
  owned : ∃ ts addrs s, Owned h ts addrs s ∧ s.argv = r.param.argv ∧ s.mem = r.mem ∧ s.heap = r.heap ∧
    (r.err = .none → ts = (tokens line).1.take argc ∧ r.param.argc = addrs.length)

variable {line : List UInt8} {mem : Mem}

theorem Owned.init (hok : h.Ok) (cmd mem : Mem) : Owned h [] [] ⟨cmd, 0, List.replicate argvDim 0, 0, mem, h⟩ :=
  ⟨rfl, rfl, rfl, nofun, .refl _, hok, rfl⟩

variable (A mem) in
theorem parseCmd_spec (hargc : argc ≤ argvDim) (hok : h.Ok) (hline : 0 ∉ line) (hlen : line.length ≤ 255) (hcmd : Holds cmd 0 (line ++ [0])) :
    ∃ r, parseCmd A argc cmd mem h = some r ∧ Parses A argc line h r := by
  have hstr : strAt cmd span 0 = some line := by rw [strAt_of hcmd (by rw [span]; omega), said_eq hline]
  have hleft : Left line.length cmd 0 line := .inr ⟨Nat.zero_add _, hcmd⟩
  obtain ⟨⟨err, s⟩, hr, hend⟩ := loop_spec (A := A) hargc (by omega) span (by rw [span]; omega) hleft hline (Nat.zero_le _) (.init hok cmd mem)
  obtain ⟨ts, addrs, hown, hts⟩ := hend.owned
  refine ⟨_, by rw [parseCmd, hstr, bind_some, Nat.mod_eq_of_lt (by omega), hr]; rfl, hend.err, ?_, ts, addrs, s, hown, rfl, rfl, rfl, ?_⟩
  · have hfail := hend.fail
    rw [length_nil, zero_add] at hfail
    exact hfail
  · intro herr
    exact ⟨hts herr, (if_pos herr).trans hown.num⟩

/-- Without an error `argv` has copies of the tokens that it has places for. -/
theorem Parses.done {r : Parsed} (hs : Parses A argc line h r) (hne : r.err ≠ .fail) :
    r.err = .none ∧ r.param.argc = min (tokens line).1.length argc ∧
      (∀ k < r.param.argc, ∃ a t, r.param.argv[k]? = some a ∧ (tokens line).1[k]? = some t ∧ Holds r.mem a (t ++ [0])) ∧
      r.heap.live.Perm (blocks (r.param.argv.take r.param.argc) (tokens line).1 ++ h.live) := by
  obtain ⟨ts, addrs, s, hown, hargv, hmem, hheap, hdone⟩ := hs.owned
  have hnone : r.err = .none := hs.err.resolve_right hne
  obtain ⟨hts, hnum⟩ := hdone hnone
  have hsplit : (tokens line).1 = ts ++ (tokens line).1.drop argc := by rw [hts, take_append_drop]
  refine ⟨hnone, ?_, fun k hk => ?_, ?_⟩
  · rw [hnum, hown.len, hts, length_take, min_comm]
  · rw [hnum] at hk
    have hk' : k < ts.length := hown.len ▸ hk
    refine ⟨addrs[k], ts[k], ?_, ?_, ?_⟩
    · rw [← hargv, hown.argv, getElem?_append_left hk, getElem?_eq_getElem hk]
    · rw [hsplit, getElem?_append_left hk', getElem?_eq_getElem hk']
    · rw [← hmem]
      refine hown.copies (addrs[k], ts[k]) (mem_iff_getElem.mpr ⟨k, ?_, getElem_zip⟩)
      rw [length_zip]
      exact lt_min hk hk'
  · have hzip : addrs.zip (tokens line).1 = addrs.zip ts := by
      calc addrs.zip (tokens line).1 = (addrs ++ []).zip (ts ++ (tokens line).1.drop argc) := by rw [append_nil, ← hsplit]
        _ = addrs.zip ts ++ [].zip ((tokens line).1.drop argc) := zip_append hown.len
        _ = addrs.zip ts := append_nil _
    rw [hnum, ← hargv, hown.argv, take_left, blocks, hzip, ← hheap]
    exact hown.live

/-- **All is given back once**: the copies, and then `param`. -/
theorem Owned.freeParam {h₁ : Heap} {d paramBytes : ℕ} (ho : Owned h₁ toks addrs s) (hlive : h₁.live = ⟨d, paramBytes⟩ :: h₀.live)
    (hstrays : h₁.strays = h₀.strays) :
    (∀ b, b ∈ (freeParam d s.argv s.heap).live ↔ b ∈ h₀.live) ∧ (freeParam d s.argv s.heap).strays = h₀.strays := by
  have hall : s.heap.live.Perm ((blocks addrs toks ++ [⟨d, paramBytes⟩]) ++ h₀.live) := by
    have hown := ho.live
    rw [hlive] at hown
    rwa [append_assoc]
  have haddr : (blocks addrs toks).map Block.addr = addrs := by
    rw [blocks, List.map_map]
    exact map_fst_zip (le_of_eq ho.len)
  have hne : ∀ a ∈ addrs, decide (a ≠ 0) = true := by
    intro a ha
    rw [← haddr] at ha
    obtain ⟨b, hb, rfl⟩ := List.mem_map.mp ha
    have hpos := (ho.ok.inside b (ho.live.mem_iff.mpr (mem_append_left _ hb))).1
    exact decide_eq_true hpos.ne'
  have hargv : s.argv.filter (fun a => decide (a ≠ 0)) = addrs := by
    rw [ho.argv, filter_append, filter_eq_self.mpr hne, filter_replicate_of_neg (by simp), append_nil]
  have hfree : ShellCmd.freeParam d s.argv s.heap = s.heap.freeAll ((blocks addrs toks ++ [(⟨d, paramBytes⟩ : Block)]).map Block.addr) := by
    have hfold : (s.argv.filter fun a => decide (a ≠ 0)).foldl (fun h a => Heap.free a h) s.heap =
        s.argv.foldl (fun h a => if decide (a ≠ 0) = true then h.free a else h) s.heap := foldl_filter
    rw [hargv] at hfold
    simp only [decide_eq_true_eq] at hfold
    rw [map_append, haddr, Heap.freeAll_append, ShellCmd.freeParam, ← hfold]
    rfl
  rw [hfree]
  obtain ⟨hmem, hstr⟩ := ho.ok.freeAll_own hall
  exact ⟨hmem, hstr.trans (ho.strays.trans hstrays)⟩

/-! ### The handler -/

variable {paramBytes : ℕ} {handlers : List Handler}

/-- A handler is looked up unless the parser failed, and errors give the memory back. -/
theorem start_cases (r : Parsed) (a : ℕ) (handlers : List Handler) :
    r.err ≠ .none ∧ (r.start a handlers).lookup = none ∧ (r.start a handlers).heap = freeParam a r.param.argv r.heap ∨
      r.err = .none ∧ (r.start a handlers).lookup = some (r.param.argv.headD 0) ∧
        ((r.start a handlers).err = none ∨ (r.start a handlers).err = some .none ∨
          (r.start a handlers).heap = freeParam a r.param.argv r.heap) := by
  unfold Parsed.start
  by_cases herr : r.err ≠ .none
  · rw [if_pos herr]
    exact .inl ⟨herr, rfl, rfl⟩
  · rw [if_neg herr]
    refine .inr ⟨not_not.mp herr, ?_⟩
    dsimp only
    rcases searchHandler handlers r.mem (r.param.argv.headD 0) with - | - | x
    · exact ⟨rfl, .inl rfl⟩
    · exact ⟨rfl, .inr (.inr rfl)⟩
    · exact ⟨rfl, .inr (.inl rfl)⟩

/-- What `vsfshell_new_handler_thread` leaves behind an error, and when it looks a handler up. -/
structure Starts (A : Allocator) (paramBytes : ℕ) (line : List UInt8) (h : Heap) (o : Outcome) : Prop where
  freed : ∀ e, o.err = some e → e ≠ .none → (∀ b, b ∈ o.heap.live ↔ b ∈ h.live) ∧ o.heap.strays = h.strays
  lookup : o.lookup = none ↔ (h.malloc A paramBytes).1 = none ∨
    served A argvDim line (h.malloc A paramBytes).2 = false ∨ (tokens line).2 = true ∧ (tokens line).1.length ≤ argvDim

variable (A mem paramBytes handlers) in
theorem newHandlerThread_spec (hok : h.Ok) (hline : 0 ∉ line) (hlen : line.length ≤ 255) (hcmd : Holds cmd 0 (line ++ [0])) :
    ∃ o, newHandlerThread A paramBytes handlers cmd mem h = some o ∧ Starts A paramBytes line h o := by
  unfold newHandlerThread
  rw [← Prod.mk.eta (p := h.malloc A paramBytes)]
  rcases Heap.malloc_cases A paramBytes h with ⟨d, hm, hpos, hpick, hw⟩ | ⟨hm, hw⟩
  · have hok' : (h.malloc A paramBytes).2.Ok := by
      rw [hw]
      exact hok.malloc hpos hpick
    obtain ⟨r, hr, hspec⟩ := parseCmd_spec A mem (le_refl argvDim) hok' hline hlen hcmd
    obtain ⟨ts, addrs, s, hown, hargv, -, hheap, -⟩ := hspec.owned
    have hfree := hown.freeParam (by rw [hw]) (by rw [hw])
    rw [hargv, hheap] at hfree
    have hfail : r.err = .fail ↔ (h.malloc A paramBytes).1 = none ∨
        served A argvDim line (h.malloc A paramBytes).2 = false ∨ (tokens line).2 = true ∧ (tokens line).1.length ≤ argvDim := by
      rw [hspec.fail, hm]
      exact (or_iff_right nofun).symm
    refine ⟨r.start d handlers, by rw [hm]; exact congrArg (Option.map fun r => r.start d handlers) hr, ?_⟩
    rcases start_cases r d handlers with ⟨herr, hlook, hback⟩ | ⟨herr, hlook, hback⟩
    · refine ⟨fun e he hne => ?_, iff_of_true hlook (hfail.mp (hspec.err.resolve_left herr))⟩
      rw [hback]
      exact hfree
    · refine ⟨fun e he hne => ?_, ?_⟩
      · rcases hback with hnone | hnone | hback
        · rw [hnone] at he
          cases he
        · rw [hnone] at he
          exact absurd (some.inj he).symm hne
        · rw [hback]
          exact hfree
      · rw [← hfail, hlook, herr]
        exact iff_of_false nofun nofun
  · refine ⟨⟨some .notEnoughResources, none, none, cmd, mem, (h.malloc A paramBytes).2⟩, by rw [hm], fun _ _ _ => ?_, iff_of_true rfl (.inl hm)⟩
    rw [hw]
    exact ⟨fun _ => Iff.rfl, rfl⟩

/-! ### Lines that are handled right -/

theorem served_of_nil (h0 : (tokens line).1 = []) (h : Heap) : served A argc line h = true := by
  rw [served, h0, take_nil]
  rfl

/-- **A line of the shell** is handled right just when no quote is open behind over 16 tokens, and it has a
token, or an error that ends it before. -/
theorem line_iff (hok : h.Ok) (hline : 0 ∉ line) (hlen : line.length ≤ 255) (hcmd : Holds cmd 0 (line ++ [0])) (paramBytes : ℕ)
    (handlers : List Handler) (mem : Mem) : Right A paramBytes handlers line cmd mem h ↔ RightWhen A paramBytes line h := by
  obtain ⟨r, hr, hspec⟩ := parseCmd_spec A mem (le_refl argvDim) hok hline hlen hcmd
  obtain ⟨o, ho, hstart⟩ := newHandlerThread_spec A mem paramBytes handlers hok hline hlen hcmd
  have honly : ∀ r' ∈ parseCmd A argvDim cmd mem h, r' = r := fun r' hr' => some.inj (hr'.symm.trans hr)
  have honly' : ∀ o' ∈ newHandlerThread A paramBytes handlers cmd mem h, o' = o := fun o' ho' => some.inj (ho'.symm.trans ho)
  constructor
  · intro hright
    refine ⟨fun hopen => ?_, fun hnil => ?_⟩
    · have hfail := hspec.fail.mp ((hright.fail r hr).mpr (.inl hopen))
      rcases hfail with hs | ⟨-, hle⟩
      · exact .inr hs
      · exact .inl hle
    · have hnone : o.lookup = none := by
        by_contra hne
        exact hright.lookup o ho hne hnil
      rcases hstart.lookup.mp hnone with hm | hs | ⟨hopen, -⟩
      · exact .inr hm
      · rw [served_of_nil hnil] at hs
        cases hs
      · exact .inl hopen
  · intro hwhen
    refine ⟨⟨r, hr⟩, fun r' hr' => ?_, fun r' hr' hne => ?_, fun r' hr' hne => ?_, fun r' hr' hne => ?_, ⟨o, ho⟩, fun o' ho' hl => ?_,
      fun o' ho' => ?_⟩
    · rw [honly r' hr', hspec.fail]
      constructor
      · rintro (hs | ⟨hopen, -⟩)
        · exact .inr hs
        · exact .inl hopen
      · rintro (hopen | hs)
        · exact (hwhen.quote hopen).elim (fun hle => .inr ⟨hopen, hle⟩) .inl
        · exact .inl hs
    · rw [honly r' hr'] at hne ⊢
      exact ⟨(hspec.done hne).1, (hspec.done hne).2.1⟩
    · rw [honly r' hr'] at hne ⊢
      exact (hspec.done hne).2.2.1
    · rw [honly r' hr'] at hne ⊢
      exact (hspec.done hne).2.2.2
    · rw [honly' o' ho'] at hl
      intro hnil
      refine hl (hstart.lookup.mpr ?_)
      rcases hwhen.blank hnil with hopen | hm
      · exact .inr (.inr ⟨hopen, by rw [hnil]; exact Nat.zero_le _⟩)
      · exact .inl hm
    · rw [honly' o' ho']
      exact hstart.freed

/-- Memory for every call. -/
def plenty : Allocator := .placed fun n => 0x1000 + 0x100 * n

/-- A line, and zeros behind it. -/
def lineMem (line : List UInt8) : Mem := write (fun _ => 0) 0 (line ++ [0])

/-- `vsfshell_help`, say. -/
def help : Handler := ⟨[104, 101, 108, 112], 0x2000, 0⟩

theorem line_iff_help :
    Right plenty 200 [help] [104, 101, 108, 112, 32, 39, 97, 32, 98, 39] (lineMem [104, 101, 108, 112, 32, 39, 97, 32, 98, 39])
      (fun _ => 0) .empty := by
  have htokens : tokens [104, 101, 108, 112, 32, 39, 97, 32, 98, 39] = ([[104, 101, 108, 112], [97, 32, 98]], false) := by
    simp [tokens, isSpace, isQuote]
  refine (line_iff Heap.Ok.empty (by decide) (by decide) (holds_write _ _ _) 200 [help] (fun _ => 0)).mpr ⟨fun h => ?_, fun h => ?_⟩
  · rw [htokens] at h
    cases h
  · rw [htokens] at h
    cases h

/-- **A line of one space**: `help` is compared with `NULL`. -/
theorem line_blank : ¬∀ (A : Allocator) (paramBytes : ℕ) (handlers : List Handler) (line : List UInt8) (cmd mem : Mem) (h : Heap),
    h.Ok → 0 ∉ line → line.length ≤ 255 → Holds cmd 0 (line ++ [0]) → Right A paramBytes handlers line cmd mem h := by
  intro hall
  have hright := hall plenty 200 [help] [32] (lineMem [32]) (fun _ => 0) .empty Heap.Ok.empty (by decide) (by decide) (holds_write _ _ _)
  have hrun : (newHandlerThread plenty 200 [help] (lineMem [32]) (fun _ => 0) .empty).map (fun o => (o.err, o.lookup)) =
      some (none, some 0) := by decide +kernel
  obtain ⟨o, ho, heq⟩ := map_eq_some_iff.mp hrun
  have hlook : o.lookup = some 0 := congrArg Prod.snd heq
  refine hright.lookup o ho (by rw [hlook]; exact nofun) ?_
  rw [tokens, if_pos (by decide), tokens]

end ShellCmd
end Vsf
