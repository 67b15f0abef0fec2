import Londa.Placement
import Londa.Strtok
import Londa.Loop

/-!
# The command loop of the shell

Model of `parseCommand` and `main` in `code/IPC/SHM/SystemV/placement.cpp`: `fgets` fills a
buffer of 1024 bytes with the next line, `parseCommand` cuts it into words in place, and the
first word is the command. The result of `fgets` is not tested, so at the end of the input
`parseCommand` works on what the previous turn left in the buffer. `parseCommand` does not know
the size of `cmds`; a store behind it and a string without an end are undefined and leave the
loop without a result.
-/

namespace Londa.Placement

open Strtok (words Holds)

def BUF_SIZE : ℕ := 1024

/-- The size of `cmds`. -/
def MAX_CMDS : ℕ := 10

def newline : UInt8 := 10

/-- The separators `" \n"`. -/
def isSep (c : UInt8) : Bool := c == 32 || c == newline

/-- The buffer afterwards and the tokens stored in `argv`; the function returns their number.
The loop ends before its bound, as a string in the buffer has less than `BUF_SIZE` words. -/
def parseCommand (cmd : Buffer) : Option (Buffer × List ℕ) :=
  Strtok.tokenize isSep BUF_SIZE (BUF_SIZE + 1) cmd 0

variable {b cmd : Buffer} {line : List UInt8}

theorem holds_of_cstring (h : cmd.cstring BUF_SIZE = some line) : Holds BUF_SIZE cmd 0 line := by
  obtain ⟨hlen, hslice⟩ := Buffer.cstring_eq_some.1 h
  obtain ⟨hlt, hzero, -⟩ := Buffer.strlen_eq_some.1 hlen
  exact ⟨hslice, Buffer.cstring_nul h, by rwa [Nat.zero_add], by omega⟩

/-- `parseCommand` finds the words of its line. -/
theorem parseCommand_words (h : cmd.cstring BUF_SIZE = some line) :
    ∃ b argv, parseCommand cmd = some (b, argv) ∧
      argv.map (b.cstringFrom BUF_SIZE) = (words isSep line).map some := by
  have hholds := holds_of_cstring h
  have hin := hholds.inside
  have hzero : isSep 0 = false := by decide
  obtain ⟨b, argv, hrun, hargv, -⟩ := Strtok.tokenize_words hzero hholds
    (show line.length < BUF_SIZE + 1 by omega)
  exact ⟨b, argv, hrun, hargv⟩

/-- The words of the line are stored, their number is returned, and no store is behind `cmds`. -/
def ParseFits (cmd : Buffer) (line : List UInt8) : Prop :=
  ∃ b argv, parseCommand cmd = some (b, argv) ∧
    argv.map (b.cstringFrom BUF_SIZE) = (words isSep line).map some ∧
    argv.length = (words isSep line).length ∧ ∀ i, i < argv.length → i < MAX_CMDS

theorem parseFits_iff (h : cmd.cstring BUF_SIZE = some line) :
    ParseFits cmd line ↔ (words isSep line).length ≤ MAX_CMDS := by
  constructor
  · rintro ⟨b, argv, -, -, hnum, hin⟩
    by_contra hlong
    exact absurd (hin MAX_CMDS (by omega)) (Nat.lt_irrefl _)
  · intro hshort
    obtain ⟨b, argv, hrun, hargv⟩ := parseCommand_words h
    have hnum : argv.length = (words isSep line).length := by
      simpa using congrArg List.length hargv
    exact ⟨b, argv, hrun, hargv, hnum, fun i hi => by omega⟩

/-- Separators before, between and behind two words. -/
theorem parseFits_iff_twoWords :
    ParseFits (Buffer.zero.store 0 [32, 97, 98, 32, 32, 99, 10]) [32, 97, 98, 32, 32, 99, 10] := by
  have hline : (Buffer.zero.store 0 [32, 97, 98, 32, 32, 99, 10]).cstring BUF_SIZE =
      some [32, 97, 98, 32, 32, 99, 10] :=
    (Buffer.cstring_store_iff (by decide)).2 ⟨by decide, rfl⟩
  exact (parseFits_iff hline).2 (by decide)

/-- `a a a a a a a a a a a`, a line of 22 bytes. -/
def elevenWords : List UInt8 := (List.replicate 11 [97, 32]).flatten

theorem eleventh_word_stored :
    (Buffer.zero.store 0 elevenWords).cstring BUF_SIZE = some elevenWords ∧
      (parseCommand (Buffer.zero.store 0 elevenWords)).map (fun r => r.2.length) = some 11 ∧
      ¬ ParseFits (Buffer.zero.store 0 elevenWords) elevenWords := by
  have hline : (Buffer.zero.store 0 elevenWords).cstring BUF_SIZE = some elevenWords :=
    (Buffer.cstring_store_iff (by decide)).2 ⟨by decide, rfl⟩
  have hwords : (words isSep elevenWords).length = 11 := by decide
  refine ⟨hline, ?_, ?_⟩
  · obtain ⟨b, argv, hrun, hargv⟩ := parseCommand_words hline
    have hnum := congrArg List.length hargv
    rw [List.length_map, List.length_map, hwords] at hnum
    rw [hrun, Option.map_some, hnum]
  · rintro ⟨b, argv, -, -, hnum, hin⟩
    exact absurd (hin 10 (by omega)) (by decide)

section CommandLoop

/-- At most `k` bytes of the input, up to a newline. -/
def fgetsLine : ℕ → List UInt8 → List UInt8
  | 0, _ => []
  | _ + 1, [] => []
  | k + 1, c :: cs => if c = newline then [c] else c :: fgetsLine k cs

/-- `fgets(buf, n, stdin)`, which leaves the buffer alone at the end of the input. -/
def fgets (buf : Buffer) (n : ℕ) (stdin : List UInt8) : Option (Buffer × List UInt8) :=
  if stdin = [] then none
  else
    let line := fgetsLine (n - 1) stdin
    some (buf.store 0 (line ++ [0]), stdin.drop line.length)

inductive Cmd
  | quit
  | run (c : Command)
  | help
  | unknown (name : List UInt8)
  deriving DecidableEq

def ascii (cs : List Char) : List UInt8 := cs.map fun c => UInt8.ofNat c.toNat

/-- The comparisons of `cmds[0]`. -/
def dispatch (name : List UInt8) : Cmd :=
  if name = ascii ['q', 'u', 'i', 't'] then .quit
  else if name = ascii ['a', 't', 't', 'a', 'c', 'h'] then .run .attach
  else if name = ascii ['d', 'e', 't', 't', 'a', 'c', 'h'] then .run .dettach
  else if name = ascii ['c', 'r', 'e', 'a', 't', 'e'] then .run .create
  else if name = ascii ['i', 'n', 'c', 'r', 'e', 'a', 's', 'e'] then .run .increase
  else if name = ascii ['d', 'e', 'c', 'r', 'e', 'a', 's', 'e'] then .run .decrease
  else if name = ascii ['p', 'r', 'i', 'n', 't'] then .run .print
  else if name = ascii ['h', 'e', 'l', 'p'] then .help
  else .unknown name

/-- `log` has the commands dispatched, each with whether `fgets` filled the buffer for it. -/
structure Shell where
  cmdbuffer : Buffer
  stdin : List UInt8
  log : List (Bool × Cmd)

/-- The turn of the loop after `fgets`. -/
def act (filled : Bool) (s : Shell) : Shell ⊕ Option (List (Bool × Cmd)) :=
  match parseCommand s.cmdbuffer with
  | none => .inr none
  | some (cmdbuffer, cmds) =>
      if MAX_CMDS < cmds.length then .inr none
      else
        match cmds with
        | [] => .inl { s with cmdbuffer := cmdbuffer }
        | cmd :: _ =>
            match cmdbuffer.cstringFrom BUF_SIZE cmd with
            | none => .inr none
            | some name =>
                let log := s.log ++ [(filled, dispatch name)]
                if dispatch name = .quit then .inr (some log)
                else .inl { s with cmdbuffer := cmdbuffer, log := log }

def turn (s : Shell) : Shell ⊕ Option (List (Bool × Cmd)) :=
  match fgets s.cmdbuffer BUF_SIZE s.stdin with
  | none => act false s
  | some (cmdbuffer, stdin) => act true { s with cmdbuffer := cmdbuffer, stdin := stdin }

theorem fgetsLine_pos {stdin : List UInt8} {k : ℕ} (h : stdin ≠ []) (hk : 0 < k) :
    0 < (fgetsLine k stdin).length := by
  cases stdin with
  | nil => exact absurd rfl h
  | cons c cs =>
      obtain ⟨k, rfl⟩ := Nat.exists_eq_add_of_lt hk
      rw [Nat.zero_add, fgetsLine]
      split <;> simp

theorem length_fgetsLine_le (k : ℕ) (stdin : List UInt8) : (fgetsLine k stdin).length ≤ k := by
  induction k generalizing stdin with
  | zero => exact Nat.le_refl _
  | succ k ih =>
      cases stdin with
      | nil => exact Nat.zero_le _
      | cons c cs =>
          rw [fgetsLine]
          split
          · exact Nat.succ_le_succ (Nat.zero_le k)
          · exact Nat.succ_le_succ (ih cs)

/-- The lines that the calls of `fgets` return. -/
def fgetsLines (stdin : List UInt8) : List (List UInt8) :=
  if h : stdin = [] then []
  else
    fgetsLine (BUF_SIZE - 1) stdin ::
      fgetsLines (stdin.drop (fgetsLine (BUF_SIZE - 1) stdin).length)
termination_by stdin.length
decreasing_by
  have hpos := fgetsLine_pos (k := BUF_SIZE - 1) h (by decide)
  have hlen := List.length_pos_iff.2 h
  rw [List.length_drop]
  omega

/-- The words of the string in a line. -/
def lineWords (line : List UInt8) : List (List UInt8) := words isSep (line.takeWhile (· ≠ 0))

/-- The commands that the lines ask for, up to the first `quit`. -/
def owed : List (List UInt8) → List Cmd
  | [] => []
  | line :: lines =>
      match (lineWords line).head? with
      | none => owed lines
      | some name => if dispatch name = .quit then [.quit] else dispatch name :: owed lines

/-- The loop is left after it has dispatched what the lines ask for, from filled buffers. -/
def ConsumesOnce (memory : Buffer) (stdin : List UInt8) : Prop :=
  Loop.Ends turn ⟨memory, stdin, []⟩ (some ((owed (fgetsLines stdin)).map fun c => (true, c)))

/-- One of the lines is a `quit`, and up to it every line fits into `cmds`. -/
def QuitRead : List (List UInt8) → Prop
  | [] => False
  | line :: lines => (lineWords line).length ≤ MAX_CMDS ∧
      ((lineWords line).head?.map dispatch = some .quit ∨ QuitRead lines)

theorem fgetsLines_cons {stdin : List UInt8} (h : stdin ≠ []) :
    fgetsLines stdin = fgetsLine (BUF_SIZE - 1) stdin ::
      fgetsLines (stdin.drop (fgetsLine (BUF_SIZE - 1) stdin).length) := by
  rw [fgetsLines, dif_neg h]

theorem fgetsLines_nil : fgetsLines [] = [] := by
  rw [fgetsLines, dif_pos rfl]

/-- `fgets` leaves the line up to its first zero byte as the string in the buffer. -/
theorem cstring_line {size : ℕ} (h : line.length < size) :
    (b.store 0 (line ++ [0])).cstring size = some (line.takeWhile (· ≠ 0)) := by
  have hnul : (0 : UInt8) ∉ line.takeWhile (· ≠ 0) := fun hmem => by
    simpa using List.mem_takeWhile_imp hmem
  have hle : (line.takeWhile (· ≠ 0)).length ≤ line.length := (List.takeWhile_prefix _).length_le
  obtain ⟨v, hv⟩ : ∃ v, line ++ [0] = line.takeWhile (· ≠ 0) ++ 0 :: v := by
    cases hrest : line.dropWhile (· ≠ 0) with
    | nil =>
        have hall : line.takeWhile (· ≠ 0) = line := List.takeWhile_eq_self_iff.2
          (List.dropWhile_eq_nil_iff.1 hrest)
        exact ⟨[], by rw [hall]⟩
    | cons c rest =>
        have hfirst : (line.dropWhile (· ≠ 0)).head? = some c := by
          rw [hrest]
          rfl
        have hc : c = 0 := by simpa using Strtok.head?_dropWhile hfirst
        refine ⟨rest ++ [0], ?_⟩
        conv_lhs => rw [← List.takeWhile_append_dropWhile (p := (· ≠ 0)) (l := line), hrest, hc]
        simp
  rw [hv]
  exact Buffer.cstring_store_nul hnul (by omega)

variable {s t : Shell} {stdin : List UInt8} {log out : List (Bool × Cmd)} {filled : Bool}

/-- One turn on the string in the buffer. -/
theorem act_words (h : s.cmdbuffer.cstring BUF_SIZE = some line) : ∃ b', act filled s =
    if MAX_CMDS < (words isSep line).length then .inr none
    else
      match (words isSep line).head? with
      | none => .inl { s with cmdbuffer := b' }
      | some name =>
          if dispatch name = .quit then .inr (some (s.log ++ [(filled, dispatch name)]))
          else .inl { s with cmdbuffer := b', log := s.log ++ [(filled, dispatch name)] } := by
  obtain ⟨b', argv, hrun, hargv⟩ := parseCommand_words h
  have hnum := congrArg List.length hargv
  rw [List.length_map, List.length_map] at hnum
  refine ⟨b', ?_⟩
  unfold act
  rw [hrun]
  dsimp only
  rw [hnum]
  congr 1
  cases argv with
  | nil =>
      have hnil : words isSep line = [] := List.length_eq_zero_iff.1 hnum.symm
      rw [hnil]
      rfl
  | cons cmd argv =>
      obtain ⟨name, rest, hname⟩ := List.exists_cons_of_ne_nil
        (List.ne_nil_of_length_eq_add_one hnum.symm)
      rw [hname, List.map_cons, List.map_cons] at hargv
      rw [hname]
      dsimp only
      rw [(List.cons.inj hargv).1]
      rfl

theorem turn_filled (h : s.stdin ≠ []) : ∃ b', turn s =
    if MAX_CMDS < (lineWords (fgetsLine (BUF_SIZE - 1) s.stdin)).length then .inr none
    else
      match (lineWords (fgetsLine (BUF_SIZE - 1) s.stdin)).head? with
      | none => .inl ⟨b', s.stdin.drop (fgetsLine (BUF_SIZE - 1) s.stdin).length, s.log⟩
      | some name =>
          if dispatch name = .quit then .inr (some (s.log ++ [(true, dispatch name)]))
          else .inl ⟨b', s.stdin.drop (fgetsLine (BUF_SIZE - 1) s.stdin).length,
            s.log ++ [(true, dispatch name)]⟩ := by
  have hlen := length_fgetsLine_le (BUF_SIZE - 1) s.stdin
  have hsize : 0 < BUF_SIZE := by decide
  unfold turn fgets
  rw [if_neg h]
  exact act_words (cstring_line (by omega))

/-- A turn without a result, the last turn, or a turn that reads nothing more. -/
theorem act_cases (filled : Bool) (s : Shell) :
    act filled s = .inr none ∨ (∃ c, act filled s = .inr (some (s.log ++ [(filled, c)]))) ∨
      ∃ b log, act filled s = .inl ⟨b, s.stdin, log⟩ := by
  unfold act
  split
  · exact .inl rfl
  · split
    · exact .inl rfl
    · split
      · exact .inr (.inr ⟨_, _, rfl⟩)
      · split
        · exact .inl rfl
        · dsimp only
          split
          · exact .inr (.inl ⟨_, rfl⟩)
          · exact .inr (.inr ⟨_, _, rfl⟩)

theorem turn_at_end (h : s.stdin = []) : turn s = act false s := by
  unfold turn fgets
  rw [if_pos h]

/-- At the end of the input the loop can only be left by a command that was not read. -/
theorem unfilled_of_ends (h : Loop.Ends turn s (some out)) (hend : s.stdin = []) :
    ∃ e ∈ out, e.1 = false := by
  generalize hr : some out = r at h
  induction h with
  | leave hleave =>
      subst hr
      rw [turn_at_end hend] at hleave
      rcases act_cases false _ with hact | ⟨c, hact⟩ | ⟨b, log, hact⟩
      · rw [hact] at hleave
        cases hleave
      · rw [hact] at hleave
        cases hleave
        exact ⟨(false, c), List.mem_append_right _ (List.mem_singleton_self _), rfl⟩
      · rw [hact] at hleave
        cases hleave
  | again hagain _ ih =>
      rw [turn_at_end hend] at hagain
      rcases act_cases false _ with hact | ⟨c, hact⟩ | ⟨b, log, hact⟩
      · rw [hact] at hagain
        cases hagain
      · rw [hact] at hagain
        cases hagain
      · rw [hact] at hagain
        cases hagain
        exact ih hend hr

/-- The loop is left by a line that fits and is a `quit`. -/
theorem quit_of_leave (hne : s.stdin ≠ []) (h : turn s = .inr (some out)) :
    (lineWords (fgetsLine (BUF_SIZE - 1) s.stdin)).length ≤ MAX_CMDS ∧
      (lineWords (fgetsLine (BUF_SIZE - 1) s.stdin)).head?.map dispatch = some .quit := by
  obtain ⟨b', hturn⟩ := turn_filled hne
  rw [hturn] at h
  split at h
  · cases h
  · rename_i hfit
    refine ⟨not_lt.1 hfit, ?_⟩
    split at h
    · cases h
    · rename_i name hhead
      rw [hhead]
      split at h
      · rename_i hquit
        exact congrArg some hquit
      · cases h

theorem fits_of_again (hne : s.stdin ≠ []) (h : turn s = .inl t) :
    (lineWords (fgetsLine (BUF_SIZE - 1) s.stdin)).length ≤ MAX_CMDS ∧
      t.stdin = s.stdin.drop (fgetsLine (BUF_SIZE - 1) s.stdin).length := by
  obtain ⟨b', hturn⟩ := turn_filled hne
  rw [hturn] at h
  split at h
  · cases h
  · rename_i hfit
    refine ⟨not_lt.1 hfit, ?_⟩
    split at h
    · cases h
      rfl
    · split at h
      · cases h
      · cases h
        rfl

theorem quitRead_of_ends (h : Loop.Ends turn s (some out)) (hfilled : ∀ e ∈ out, e.1 = true) :
    QuitRead (fgetsLines s.stdin) := by
  have hread {s : Shell} (h : Loop.Ends turn s (some out)) : s.stdin ≠ [] := by
    intro hend
    obtain ⟨e, he, hfalse⟩ := unfilled_of_ends h hend
    rw [hfilled e he] at hfalse
    cases hfalse
  generalize hr : some out = r at h
  induction h with
  | leave hleave =>
      subst hr
      have hne := hread (.leave hleave)
      obtain ⟨hfit, hquit⟩ := quit_of_leave hne hleave
      rw [fgetsLines_cons hne]
      exact ⟨hfit, .inl hquit⟩
  | again hagain hrest ih =>
      subst hr
      have hne := hread (.again hagain hrest)
      obtain ⟨hfit, hlater⟩ := fits_of_again hne hagain
      rw [fgetsLines_cons hne, ← hlater]
      exact ⟨hfit, .inr (ih rfl)⟩

theorem ends_of_quitRead (b : Buffer) (log : List (Bool × Cmd))
    (h : QuitRead (fgetsLines stdin)) :
    Loop.Ends turn ⟨b, stdin, log⟩
      (some (log ++ (owed (fgetsLines stdin)).map fun c => (true, c))) := by
  generalize hlines : fgetsLines stdin = lines at h
  induction lines generalizing b stdin log with
  | nil => cases h
  | cons line lines ih =>
      have hne : stdin ≠ [] := by
        rintro rfl
        rw [fgetsLines_nil] at hlines
        cases hlines
      rw [fgetsLines_cons hne] at hlines
      obtain ⟨rfl, hlater⟩ := List.cons.inj hlines
      obtain ⟨hfit, hread⟩ := h
      obtain ⟨b', hturn⟩ := turn_filled (s := ⟨b, stdin, log⟩) hne
      dsimp only at hturn
      rw [if_neg (not_lt.2 hfit)] at hturn
      rw [owed]
      cases hhead : (lineWords (fgetsLine (BUF_SIZE - 1) stdin)).head? with
      | none =>
          rw [hhead] at hturn hread
          have hrest : QuitRead lines := hread.resolve_left (fun heq => by cases heq)
          exact .again hturn (ih _ _ hlater hrest)
      | some name =>
          rw [hhead] at hturn hread
          dsimp only at hturn ⊢
          by_cases hquit : dispatch name = .quit
          · rw [if_pos hquit] at hturn
            rw [if_pos hquit]
            rw [hquit] at hturn
            exact .leave hturn
          · rw [if_neg hquit] at hturn
            rw [if_neg hquit]
            have hrest : QuitRead lines :=
              hread.resolve_left (fun heq => hquit (Option.some.inj heq))
            have hih := ih b' (log ++ [(true, dispatch name)]) hlater hrest
            rw [List.append_assoc] at hih
            exact .again hturn hih

theorem consumesOnce_iff (memory : Buffer) (stdin : List UInt8) :
    ConsumesOnce memory stdin ↔ QuitRead (fgetsLines stdin) := by
  constructor
  · intro h
    apply quitRead_of_ends h
    intro e he
    obtain ⟨c, -, rfl⟩ := List.mem_map.1 he
    rfl
  · exact fun h => ends_of_quitRead memory [] h

def helpLine : List UInt8 := ascii ['h', 'e', 'l', 'p', '\n']

/-- The buffer after `help` was cut. -/
def helpBuffer : Buffer := (Buffer.zero.store 0 (helpLine ++ [0])).store 4 [0]

/-- The line `help` is the whole input: the next turns take it from the buffer again, and the
loop does not end. -/
theorem help_repeated :
    turn ⟨Buffer.zero, helpLine, []⟩ = .inl ⟨helpBuffer, [], [(true, .help)]⟩ ∧
      turn ⟨helpBuffer, [], [(true, .help)]⟩ =
        .inl ⟨helpBuffer, [], [(true, .help), (false, .help)]⟩ ∧
      ¬ (∃ out, Loop.Ends turn ⟨Buffer.zero, helpLine, []⟩ out) ∧
      ¬ ConsumesOnce Buffer.zero helpLine := by
  have hnever : ¬ ∃ out, Loop.Ends turn ⟨Buffer.zero, helpLine, []⟩ out := by
    rintro ⟨out, h⟩
    refine Loop.not_ends_of_invariant (I := fun s => s = ⟨Buffer.zero, helpLine, []⟩ ∨
      ∃ log, s = ⟨helpBuffer, [], log⟩) (.inl rfl) ?_ h
    rintro s (rfl | ⟨log, rfl⟩)
    · exact ⟨_, rfl, .inr ⟨[(true, .help)], rfl⟩⟩
    · exact ⟨_, rfl, .inr ⟨log ++ [(false, .help)], rfl⟩⟩
  exact ⟨rfl, rfl, hnever, fun h => hnever ⟨_, h⟩⟩

end CommandLoop

end Londa.Placement
