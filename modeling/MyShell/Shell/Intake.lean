import MyShell.Text
import Mathlib.Data.List.TakeWhile

/-! # The input loop

The loop of `main` in `myshell.c`, from a line of the standard input to the call of a parser, on the bytes
that its own calls of `fgets` and `getchar` read. `linesOf` is what a stream means to its reader. -/

namespace MyShell.Shell

def MAX_INPUT : Nat := 1024

def PROMPT : CString := "$ ".toList

def inputTooLong : CString :=
  "Error: Input too long (maximum ".toList ++ decimal (MAX_INPUT - 2 : Nat) ++ " characters).\n".toList

/-! ### Reading -/

/-- At most `n` characters, up to a newline, and the rest of the stream. -/
def readUpTo : Nat → CString → CString × CString
  | 0, stream => ([], stream)
  | _ + 1, [] => ([], [])
  | n + 1, c :: stream =>
    if c = '\n' then (['\n'], stream)
    else
      let (line, rest) := readUpTo n stream
      (c :: line, rest)

/-- `fgets` into a buffer of `size` characters: `none` is NULL. The second text is left in the stream. -/
def fgets (size : Nat) (stream : CString) : Option (CString × CString) :=
  if stream = [] then none else some (readUpTo (size - 1) stream)

/-- `while ((c = getchar()) != '\n' && c != EOF);` -/
def clearLine : CString → CString
  | [] => []
  | c :: stream => if c = '\n' then stream else clearLine stream

theorem readUpTo_length (n : Nat) (stream : CString) :
    (readUpTo n stream).1.length + (readUpTo n stream).2.length = stream.length := by
  fun_induction readUpTo n stream with
  | case1 => simp
  | case2 => rfl
  | case3 => simp; omega
  | case4 n c stream visible line rest read ih =>
    rw [read] at ih
    simp only [List.length_cons] at ih ⊢
    omega

theorem fgets_shorter {stream input rest : CString} (read : fgets MAX_INPUT stream = some (input, rest)) :
    rest.length < stream.length := by
  unfold fgets at read
  split at read
  · cases read
  · rename_i nonempty
    obtain ⟨c, stream, rfl⟩ := List.exists_cons_of_ne_nil nonempty
    have total := readUpTo_length (MAX_INPUT - 1) (c :: stream)
    have advances : (readUpTo (MAX_INPUT - 1) (c :: stream)).1 ≠ [] := by
      show (readUpTo (1022 + 1) (c :: stream)).1 ≠ []
      unfold readUpTo
      split <;> simp
    rw [Option.some.injEq] at read
    rw [read] at total advances
    have positive := List.length_pos_iff.mpr advances
    dsimp only at total positive
    omega

theorem clearLine_length (stream : CString) : (clearLine stream).length ≤ stream.length := by
  fun_induction clearLine stream with
  | case1 => exact Nat.le_refl _
  | case2 => exact Nat.le_succ _
  | case3 c stream other ih => exact Nat.le_succ_of_le ih

/-! ### The loop -/

/-- What `main` does itself: it prints, complains, and hands a line to one of its parsers. -/
inductive Act where
  | print (text : CString) | complain (text : CString)
  | parsePipeline (input : CString) | parseCommand (input : CString)
  deriving DecidableEq, Repr

def Act.handed : Act → Option CString
  | .parsePipeline input | .parseCommand input => some input
  | _ => none

def handOver (input : CString) : Act := if '|' ∈ input then .parsePipeline input else .parseCommand input

/-- `fgets` has filled the buffer without coming to the end of the line. -/
def truncated (input : CString) : Prop :=
  input.length > 0 ∧ input.getLast? ≠ some '\n' ∧ input.length = MAX_INPUT - 1

instance (input : CString) : Decidable (truncated input) := inferInstanceAs (Decidable (_ ∧ _))

def mainLoop (stream : CString) : List Act :=
  .print PROMPT ::
    match _read : fgets MAX_INPUT stream with
    | none => [.print "\n".toList]
    | some (buffer, rest) =>
      let input := buffer.takeWhile (· ≠ NUL)
      if truncated input then
        .complain inputTooLong :: mainLoop (clearLine rest)
      else
        let input := input.takeWhile (· ≠ '\n')
        if input = "exit".toList then []
        else if input = [] then mainLoop rest
        else handOver input :: mainLoop rest
termination_by stream.length
decreasing_by
  · exact Nat.lt_of_le_of_lt (clearLine_length rest) (fgets_shorter _read)
  · exact fgets_shorter _read
  · exact fgets_shorter _read

/-! ### What a stream means -/

/-- The lines of a stream; what follows the last newline is one if there is anything. -/
def linesOf (stream : CString) : List CString :=
  let pieces := stream.splitOn '\n'
  if pieces.getLast? = some [] then pieces.dropLast else pieces

/-- The lines that are commands: up to the first `exit`, without the empty and the overlong ones. -/
def commandsOf (stream : CString) : List CString :=
  ((linesOf stream).takeWhile (· ≠ "exit".toList)).filter fun line => line ≠ [] ∧ line.length ≤ MAX_INPUT - 2

variable {stream line rest : CString} {n : Nat}

theorem linesOf_cons (one : '\n' ∉ line) (rest : CString) : linesOf (line ++ '\n' :: rest) = line :: linesOf rest := by
  have pieces := List.splitOn_append_cons_self_of_not_mem one rest
  have more : rest.splitOn '\n' ≠ [] := List.splitOn_ne_nil _ _
  unfold linesOf
  rw [pieces]
  simp only [List.getLast?_cons_of_ne_nil more, List.dropLast_cons_of_ne_nil more]
  split <;> rfl

theorem linesOf_last (one : '\n' ∉ line) (nonempty : line ≠ []) : linesOf line = [line] := by
  unfold linesOf
  rw [List.splitOn_eq_singleton one]
  simp [nonempty]

theorem stream_cases (stream : CString) : stream = [] ∨ (stream ≠ [] ∧ '\n' ∉ stream) ∨
    ∃ line rest, '\n' ∉ line ∧ stream = line ++ '\n' :: rest := by
  by_cases newline : '\n' ∈ stream
  · obtain ⟨line, rest, split, one⟩ := List.eq_append_cons_of_mem newline
    exact .inr (.inr ⟨line, rest, one, split⟩)
  · by_cases empty : stream = []
    · exact .inl empty
    · exact .inr (.inl ⟨empty, newline⟩)

/-! ### Reading a line -/

theorem readUpTo_line (one : '\n' ∉ line) : readUpTo n (line ++ '\n' :: rest) =
    if line.length < n then (line ++ ['\n'], rest) else (line.take n, line.drop n ++ '\n' :: rest) := by
  induction line generalizing n with
  | nil => cases n <;> simp [readUpTo]
  | cons c line ih =>
    obtain ⟨other, one⟩ := not_or.mp (mt List.mem_cons.mpr one)
    cases n with
    | zero => simp [readUpTo]
    | succ n =>
      rw [List.cons_append, readUpTo, if_neg (Ne.symm other), ih one, List.length_cons]
      by_cases fits : line.length < n <;> simp [fits]

theorem readUpTo_last (one : '\n' ∉ line) : readUpTo n line = (line.take n, line.drop n) := by
  induction line generalizing n with
  | nil => cases n <;> rfl
  | cons c line ih =>
    obtain ⟨other, one⟩ := not_or.mp (mt List.mem_cons.mpr one)
    cases n with
    | zero => rfl
    | succ n => rw [readUpTo, if_neg (Ne.symm other), ih one]; rfl

theorem clearLine_line (one : '\n' ∉ line) : clearLine (line ++ '\n' :: rest) = rest := by
  induction line with
  | nil => simp [clearLine]
  | cons c line ih =>
    obtain ⟨other, one⟩ := not_or.mp (mt List.mem_cons.mpr one)
    rw [List.cons_append, clearLine, if_neg (Ne.symm other), ih one]

theorem clearLine_last (one : '\n' ∉ line) : clearLine line = [] := by
  induction line with
  | nil => rfl
  | cons c line ih =>
    obtain ⟨other, one⟩ := not_or.mp (mt List.mem_cons.mpr one)
    rw [clearLine, if_neg (Ne.symm other), ih one]

/-! ### An iteration -/

def actOn (line : CString) (later : List Act) : List Act :=
  if MAX_INPUT - 2 < line.length then .complain inputTooLong :: later
  else if line = "exit".toList then []
  else if line = [] then later
  else handOver line :: later

theorem takeWhile_line (one : '\n' ∉ line) (rest : CString) : (line ++ '\n' :: rest).takeWhile (· ≠ '\n') = line := by
  have before : ∀ c ∈ line, decide (c ≠ '\n') = true := fun c member =>
    decide_eq_true (ne_of_mem_of_not_mem member one)
  rw [List.takeWhile_append_of_pos before]
  simp

theorem takeWhile_visible {c : Char} (absent : c ∉ line) : line.takeWhile (· ≠ c) = line :=
  List.takeWhile_eq_self_iff.mpr fun _ member => decide_eq_true (ne_of_mem_of_not_mem member absent)

theorem mainLoop_read {buffer : CString} (read : fgets MAX_INPUT stream = some (buffer, rest)) (noNul : NUL ∉ buffer) :
    mainLoop stream = .print PROMPT ::
      if truncated buffer then .complain inputTooLong :: mainLoop (clearLine rest)
      else if buffer.takeWhile (· ≠ '\n') = "exit".toList then []
      else if buffer.takeWhile (· ≠ '\n') = [] then mainLoop rest
      else handOver (buffer.takeWhile (· ≠ '\n')) :: mainLoop rest := by
  conv => lhs; unfold mainLoop
  split
  · rename_i missing
    cases missing.symm.trans read
  · rename_i found
    cases found.symm.trans read
    simp only [takeWhile_visible noNul]

theorem truncated_take (one : '\n' ∉ line) (long : MAX_INPUT - 1 ≤ line.length) : truncated (line.take (MAX_INPUT - 1)) := by
  have length : (line.take (MAX_INPUT - 1)).length = MAX_INPUT - 1 := by
    rw [List.length_take]
    omega
  refine ⟨by rw [length]; decide, fun last => ?_, length⟩
  exact one (List.mem_of_mem_take (List.mem_of_getLast? last))

theorem mainLoop_line (one : '\n' ∉ line) (noNul : NUL ∉ line) :
    mainLoop (line ++ '\n' :: rest) = .print PROMPT :: actOn line (mainLoop rest) := by
  have read : fgets MAX_INPUT (line ++ '\n' :: rest) = some (readUpTo (MAX_INPUT - 1) (line ++ '\n' :: rest)) :=
    if_neg (by simp)
  rw [readUpTo_line one] at read
  by_cases fits : line.length < MAX_INPUT - 1
  · rw [if_pos fits] at read
    have noNul' : NUL ∉ line ++ ['\n'] := by simpa [NUL] using noNul
    have whole : ¬ truncated (line ++ ['\n']) := fun cut => cut.2.1 (by simp)
    have short : ¬ MAX_INPUT - 2 < line.length := by unfold MAX_INPUT at fits ⊢; omega
    rw [mainLoop_read read noNul', if_neg whole, takeWhile_line one, actOn, if_neg short]
  · rw [if_neg fits] at read
    have noNul' : NUL ∉ line.take (MAX_INPUT - 1) := fun member => noNul (List.mem_of_mem_take member)
    have cut := truncated_take one (Nat.not_lt.mp fits)
    have long : MAX_INPUT - 2 < line.length := by unfold MAX_INPUT at fits ⊢; omega
    have one' : '\n' ∉ line.drop (MAX_INPUT - 1) := fun member => one (List.mem_of_mem_drop member)
    rw [mainLoop_read read noNul', if_pos cut, clearLine_line one', actOn, if_pos long]

theorem mainLoop_nil : mainLoop [] = [.print PROMPT, .print "\n".toList] := by
  unfold mainLoop
  rfl

theorem mainLoop_last (one : '\n' ∉ line) (noNul : NUL ∉ line) (nonempty : line ≠ []) :
    mainLoop line = .print PROMPT :: actOn line (mainLoop []) := by
  have read : fgets MAX_INPUT line = some (readUpTo (MAX_INPUT - 1) line) := if_neg nonempty
  rw [readUpTo_last one] at read
  have noNul' : NUL ∉ line.take (MAX_INPUT - 1) := fun member => noNul (List.mem_of_mem_take member)
  have one' : '\n' ∉ line.drop (MAX_INPUT - 1) := fun member => one (List.mem_of_mem_drop member)
  by_cases fits : line.length < MAX_INPUT - 1
  · have all : line.take (MAX_INPUT - 1) = line := List.take_of_length_le (Nat.le_of_lt fits)
    have none : line.drop (MAX_INPUT - 1) = [] := List.drop_eq_nil_of_le (Nat.le_of_lt fits)
    rw [all, none] at read
    have whole : ¬ truncated line := fun cut => Nat.ne_of_lt fits cut.2.2
    have short : ¬ MAX_INPUT - 2 < line.length := by unfold MAX_INPUT at fits ⊢; omega
    rw [mainLoop_read read noNul, if_neg whole, takeWhile_visible one, actOn, if_neg short]
  · have cut := truncated_take one (Nat.not_lt.mp fits)
    have long : MAX_INPUT - 2 < line.length := by unfold MAX_INPUT at fits ⊢; omega
    rw [mainLoop_read read noNul', if_pos cut, clearLine_last one', actOn, if_pos long]

/-! ### The lines that are handed over -/

def handedLines (acts : List Act) : List CString := acts.filterMap Act.handed

theorem handed_handOver (line : CString) : (handOver line).handed = some line := by
  unfold handOver
  split <;> rfl

theorem handed_actOn {later : List Act} {lines : List CString}
    (same : handedLines later = (lines.takeWhile (· ≠ "exit".toList)).filter fun line =>
      line ≠ [] ∧ line.length ≤ MAX_INPUT - 2) :
    handedLines (.print PROMPT :: actOn line later) =
      ((line :: lines).takeWhile (· ≠ "exit".toList)).filter fun line => line ≠ [] ∧ line.length ≤ MAX_INPUT - 2 := by
  by_cases stops : line = "exit".toList
  · subst stops
    rfl
  rw [List.takeWhile_cons_of_pos (by simpa using stops)]
  unfold actOn
  by_cases long : MAX_INPUT - 2 < line.length
  · rw [if_pos long, List.filter_cons_of_neg (by simp; omega), ← same]
    rfl
  rw [if_neg long, if_neg stops]
  by_cases empty : line = []
  · rw [if_pos empty, List.filter_cons_of_neg (by simp [empty]), ← same]
    rfl
  · have command : handedLines (.print PROMPT :: handOver line :: later) = line :: handedLines later := by
      show handedLines (handOver line :: later) = _
      rw [handedLines, List.filterMap_cons_some (handed_handOver line)]
      rfl
    rw [if_neg empty, List.filter_cons_of_pos (by simp [empty]; omega), command, same]

theorem mainLoop_handed (noNul : NUL ∉ stream) : handedLines (mainLoop stream) = commandsOf stream := by
  induction size : stream.length using Nat.strongRecOn generalizing stream with
  | ind n ih =>
    rcases stream_cases stream with rfl | ⟨nonempty, one⟩ | ⟨line, rest, one, rfl⟩
    · rw [mainLoop_nil]
      rfl
    · rw [mainLoop_last one noNul nonempty, commandsOf, linesOf_last one nonempty]
      exact handed_actOn (by rw [mainLoop_nil]; rfl)
    · have noNul' : NUL ∉ line ∧ NUL ∉ rest := by
        simp only [List.mem_append, List.mem_cons, not_or] at noNul
        exact ⟨noNul.1, noNul.2.2⟩
      rw [mainLoop_line one noNul'.1, commandsOf, linesOf_cons one]
      refine handed_actOn (ih rest.length ?_ noNul'.2 rfl)
      rw [← size, List.length_append, List.length_cons]
      omega

theorem mainLoop_handed_exit : handedLines (mainLoop "ls\n\necho a|b\nexit\npwd\n".toList) =
    commandsOf "ls\n\necho a|b\nexit\npwd\n".toList :=
  mainLoop_handed (by decide)

end MyShell.Shell
