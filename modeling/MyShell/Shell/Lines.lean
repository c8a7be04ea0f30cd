import MyShell.Shell.Session

/-! # A session line by line

All lines of a session share one buffer, which is never cleared, and a parser may read past the end of its
line. `Ideal` is the session without the buffer: a list of lines, of which each is parsed on its own. A
session whose input consists of whole lines refines it. -/

namespace MyShell.Shell

open Descriptors MyShell.Parser

variable {δ : Type}

/-! ### The session without the buffer -/

structure Ideal (δ : Type) where
  rest : List CString
  table : Table (Description δ)
  running : Bool := true
  lines : List (CString × Outcome δ) := []

namespace Ideal

variable (i : Ideal δ)

def record (line : CString) (done : Outcome δ × Table (Description δ)) : Ideal δ :=
  { i with table := done.2, lines := i.lines ++ [(line, done.1)] }

def step (a : Answers) : Option (Ideal δ) :=
  if i.running then
    match i.rest with
    | [] => some ({ i with running := false }.record [] (.endOfInput, i.table))
    | line :: rest =>
      let i := { i with rest }
      if MAX_INPUT - 2 < line.length then some (i.record (line.take (MAX_INPUT - 1)) (.tooLong, i.table))
      else if line = "exit".toList then some ({ i with running := false }.record line (.exit, i.table))
      else if line = [] then some (i.record line (.empty, i.table))
      else if '|' ∈ line then some (i.record line (runPipeline a (splitPipeline line) i.table))
      else some (i.record line (runCommand a (parseAlone line).command i.table))
  else none

end Ideal

def Session.ideal (s : Session δ) : Ideal δ where
  rest := linesOf s.stdin
  table := s.table
  running := s.running
  lines := s.lines.map fun it => (it.line, it.outcome)

/-! ### Whole lines -/

def Apart (line : CString) : Prop := '|' ∈ line → Confined (splitPipes line) [NUL, NUL] 0

instance (line : CString) : Decidable (Apart line) := inferInstanceAs (Decidable (_ → _))

/-- An input of whole lines. -/
structure Clean (stream : CString) : Prop where
  noNul : NUL ∉ stream
  ended : stream = [] ∨ stream.getLast? = some '\n'
  apart : ∀ line ∈ commandsOf stream, Apart line

variable {s t : Session δ} {a : Answers} {stream line rest buffer rest' : CString}

theorem Clean.cases (clean : Clean stream) :
    stream = [] ∨ ∃ line rest, '\n' ∉ line ∧ stream = line ++ '\n' :: rest := by
  rcases stream_cases stream with empty | ⟨nonempty, one⟩ | split
  · exact .inl empty
  · exact absurd (List.mem_of_getLast? (clean.ended.resolve_left nonempty)) one
  · exact .inr split

theorem commandsOf_cons (one : '\n' ∉ line) : commandsOf (line ++ '\n' :: rest) =
    if line = "exit".toList then []
    else (if line ≠ [] ∧ line.length ≤ MAX_INPUT - 2 then [line] else []) ++ commandsOf rest := by
  unfold commandsOf
  rw [linesOf_cons one, List.takeWhile_cons]
  by_cases stops : line = "exit".toList
  · simp [stops]
  · simp only [stops, ne_eq, not_false_eq_true, decide_true, if_true, if_false, List.filter_cons]
    split <;> simp_all

theorem Clean.later (clean : Clean (line ++ '\n' :: rest)) (one : '\n' ∉ line) (goes : line ≠ "exit".toList) : Clean rest where
  noNul member := clean.noNul (List.mem_append_right _ (List.mem_cons_of_mem _ member))
  ended := by
    by_cases empty : rest = []
    · exact .inl empty
    · refine .inr ?_
      have last := clean.ended.resolve_left (by simp)
      rwa [List.getLast?_append_cons, List.getLast?_cons_of_ne_nil empty] at last
  apart line' member := clean.apart line' (by
    rw [commandsOf_cons one, if_neg goes]
    exact List.mem_append_right _ member)

theorem Clean.first (clean : Clean (line ++ '\n' :: rest)) (one : '\n' ∉ line) (goes : line ≠ "exit".toList)
    (nonempty : line ≠ []) (short : line.length ≤ MAX_INPUT - 2) : Apart line := by
  refine clean.apart line ?_
  rw [commandsOf_cons one, if_neg goes, if_pos ⟨nonempty, short⟩]
  exact List.mem_append_left _ (List.mem_singleton_self line)

/-! ### Behind a line -/

theorem bare_terminated (text stale : List Char) : Bare (text ++ NUL :: stale) ↔ Bare (text ++ [NUL]) := by
  unfold Bare dropBlanks
  induction text with
  | nil => rfl
  | cons c text ih =>
    rw [List.cons_append, List.cons_append, List.dropWhile_cons, List.dropWhile_cons]
    split
    · exact ih
    · rfl

theorem readAt_terminated (text stale : List Char) : readAt (text ++ NUL :: stale) 0 = readAt (text ++ [NUL]) 0 :=
  (takeWhile_terminated text stale).trans (takeWhile_terminated text []).symm

theorem stays_terminated (text stale : List Char) (asked : Asked) (left : Option (List Char)) :
    Stays (text ++ NUL :: stale) asked left ↔ Stays (text ++ [NUL]) asked left := by
  unfold Stays
  rw [readAt_terminated, bare_terminated]

theorem following_terminated (piece : List Char) (pieces : List (List Char)) : ∃ text : List Char, ∀ stale asked left,
    Stays (following piece pieces (NUL :: NUL :: stale)) asked left ↔ Stays text asked left := by
  unfold following
  by_cases blank : trailing piece ≠ []
  · exact ⟨[], fun _ _ _ => by rw [if_pos blank]⟩
  by_cases last : pieces = []
  · refine ⟨[NUL], fun stale asked left => ?_⟩
    rw [if_neg blank, if_pos last]
    exact stays_terminated [] stale asked left
  · refine ⟨joinPipes pieces ++ [NUL], fun stale asked left => ?_⟩
    rw [if_neg blank, if_neg last]
    exact stays_terminated (joinPipes pieces) (NUL :: stale) asked left

theorem confined_terminated (pieces : List (List Char)) (stale : List Char) (count : Nat) :
    Confined pieces (NUL :: NUL :: stale) count ↔ Confined pieces [NUL, NUL] count := by
  induction pieces generalizing count with
  | nil => rfl
  | cons piece pieces ih =>
    obtain ⟨text, same⟩ := following_terminated piece pieces
    unfold Confined
    simp only [ih, same]

theorem parsed_pipeline (noNul : NUL ∉ line) (apart : Confined (splitPipes line) [NUL, NUL] 0) (stale : List Char) :
    (parsePipeline (line ++ NUL :: NUL :: stale) 0).read = splitPipeline line :=
  (parsePipeline_split (visible_of_noNul noNul) rfl).1
    ((confined_terminated _ stale 0).mpr apart)

theorem parsed_command (noNul : NUL ∉ line) (stale : List Char) :
    (parseCommand (line ++ NUL :: NUL :: stale) 0).read = (parseAlone line).command :=
  (parseCommand_closed ⟨rfl, rfl⟩ (visible_of_noNul noNul)).1

/-! ### A line in the buffer -/

theorem fgets_line (one : '\n' ∉ line) : fgets MAX_INPUT (line ++ '\n' :: rest) = some
    (if line.length < MAX_INPUT - 1 then (line ++ ['\n'], rest)
      else (line.take (MAX_INPUT - 1), line.drop (MAX_INPUT - 1) ++ '\n' :: rest)) := by
  unfold fgets
  rw [if_neg (by simp), readUpTo_line one]

theorem textOf_visible (noNul : NUL ∉ buffer) : textOf buffer = buffer := Shell.takeWhile_visible noNul

theorem Reads.typed (reads : Reads s buffer rest') (typed : s.stdin = line ++ '\n' :: rest) (one : '\n' ∉ line)
    (noNul : NUL ∉ line) : line.length ≤ MAX_INPUT - 2 ∧ rest' = rest ∧ lineOf buffer = line ∧
      ∃ stale, s.holds buffer = line ++ NUL :: NUL :: stale := by
  have read := reads.read
  rw [typed, fgets_line one, Option.some.injEq] at read
  split at read <;> rename_i fits
  · cases read
    have noNul' : NUL ∉ line ++ ['\n'] := by simpa [NUL] using noNul
    have same : lineOf (line ++ ['\n']) = line := by
      rw [lineOf, textOf_visible noNul']
      exact takeWhile_line one []
    refine ⟨by omega, rfl, same, s.input.drop ((line ++ ['\n']).length + 1), ?_⟩
    rw [Session.holds, same]
    simp
  · cases read
    have noNul' : NUL ∉ line.take (MAX_INPUT - 1) := fun member => noNul (List.mem_of_mem_take member)
    refine absurd ?_ reads.whole
    rw [textOf_visible noNul']
    exact truncated_take one (Nat.not_lt.mp fits)

theorem long_line (read : fgets MAX_INPUT (line ++ '\n' :: rest) = some (buffer, rest')) (one : '\n' ∉ line)
    (noNul : NUL ∉ line) (long : truncated (textOf buffer)) :
    MAX_INPUT - 2 < line.length ∧ textOf buffer = line.take (MAX_INPUT - 1) ∧ clearLine rest' = rest := by
  rw [fgets_line one, Option.some.injEq] at read
  split at read <;> rename_i fits
  · cases read
    have noNul' : NUL ∉ line ++ ['\n'] := by simpa [NUL] using noNul
    rw [textOf_visible noNul'] at long
    exact absurd (by simp) long.2.1
  · cases read
    have one' : '\n' ∉ line.drop (MAX_INPUT - 1) := fun member => one (List.mem_of_mem_drop member)
    refine ⟨by unfold MAX_INPUT at fits ⊢; omega, ?_, clearLine_line one'⟩
    exact textOf_visible fun member => noNul (List.mem_of_mem_take member)

/-! ### The refinement -/

theorem ideal_line (typed : s.stdin = line ++ '\n' :: rest) (one : '\n' ∉ line) (running : s.running = true) :
    s.ideal.step a = some (
      let i := { s.ideal with rest := linesOf rest }
      if MAX_INPUT - 2 < line.length then i.record (line.take (MAX_INPUT - 1)) (.tooLong, i.table)
      else if line = "exit".toList then { i with running := false }.record line (.exit, i.table)
      else if line = [] then i.record line (.empty, i.table)
      else if '|' ∈ line then i.record line (runPipeline a (splitPipeline line) i.table)
      else i.record line (runCommand a (parseAlone line).command i.table)) := by
  have rest : s.ideal.rest = line :: linesOf rest := by rw [Session.ideal, typed, linesOf_cons one]
  unfold Ideal.step
  rw [if_pos (show s.ideal.running = true from running), rest]
  dsimp only
  simp only [apply_ite some]

theorem record_ideal (line : CString) (done : Outcome δ × Table (Description δ)) (warnings : List CString) :
    (s.record line done warnings).ideal = s.ideal.record line done := by
  simp [Session.ideal, Session.record, Ideal.record]

theorem step_ideal (clean : Clean s.stdin) (taken : s.step a = some t) :
    s.ideal.step a = some t.ideal ∧ (t.running = true → Clean t.stdin) := by
  obtain ⟨running, iterates⟩ := step_iterates taken
  rcases clean.cases with nothing | ⟨line, rest, one, typed⟩
  · have ended : fgets MAX_INPUT s.stdin = none := by rw [nothing]; rfl
    cases iterates with
    | endOfInput =>
      refine ⟨?_, nofun⟩
      have none : linesOf s.stdin = [] := by rw [nothing]; rfl
      rw [record_ideal]
      simp [Ideal.step, Session.ideal, none, running]
    | tooLong read => cases ended.symm.trans read
    | exit reads | empty reads | pipeline reads | command reads => cases ended.symm.trans reads.read
  · rw [ideal_line typed one running]
    rw [typed] at clean
    have noNul : NUL ∉ line := fun member => clean.noNul (List.mem_append_left _ member)
    cases iterates with
    | endOfInput ended =>
      rw [typed, fgets_line one] at ended
      cases ended
    | tooLong read long =>
      rw [typed] at read
      obtain ⟨overlong, text, cleared⟩ := long_line read one noNul long
      have goes : line ≠ "exit".toList := fun stops => by
        rw [stops] at overlong
        exact absurd overlong (by decide)
      dsimp only
      rw [if_pos overlong, text, record_ideal, cleared]
      exact ⟨rfl, fun _ => clean.later one goes⟩
    | exit reads stops =>
      obtain ⟨short, rfl, same, -⟩ := reads.typed typed one noNul
      rw [same] at stops ⊢
      dsimp only
      rw [if_neg (Nat.not_lt.mpr short), if_pos stops, record_ideal]
      exact ⟨rfl, nofun⟩
    | empty reads nothing =>
      obtain ⟨short, rfl, same, -⟩ := reads.typed typed one noNul
      rw [same] at nothing ⊢
      have goes : line ≠ "exit".toList := fun stops => nomatch nothing.symm.trans stops
      dsimp only
      rw [if_neg (Nat.not_lt.mpr short), if_neg goes, if_pos nothing, record_ideal]
      exact ⟨rfl, fun _ => clean.later one goes⟩
    | pipeline reads goes nonempty pipe =>
      obtain ⟨short, rfl, same, stale, holds⟩ := reads.typed typed one noNul
      rw [same] at goes nonempty pipe ⊢
      have apart := clean.first one goes nonempty short pipe
      dsimp only
      rw [if_neg (Nat.not_lt.mpr short), if_neg goes, if_neg nonempty, if_pos pipe, record_ideal, holds,
        parsed_pipeline noNul apart]
      exact ⟨rfl, fun _ => clean.later one goes⟩
    | command reads goes nonempty single =>
      obtain ⟨short, rfl, same, stale, holds⟩ := reads.typed typed one noNul
      rw [same] at goes nonempty single ⊢
      dsimp only
      rw [if_neg (Nat.not_lt.mpr short), if_neg goes, if_neg nonempty, if_neg single, record_ideal, holds,
        parsed_command noNul]
      exact ⟨rfl, fun _ => clean.later one goes⟩

/-- On an input of whole lines a session runs as if each line were parsed on its own, whatever earlier lines
have left in the buffer. -/
theorem run_ideal (run : SessionRun s t) (clean : Clean s.stdin) : Machine.Reach Ideal.step s.ideal t.ideal := by
  refine (run.simulates (I := fun t => t.running = true → Clean t.stdin) (fun _ => clean)
    (fun {t a u} held taken => ?_) fun {t a u} held taken => ?_).2
  · exact (step_ideal (held (step_iterates taken).1) taken).2
  · exact (step_ideal (held (step_iterates taken).1) taken).1

theorem run_ideal_two : ∃ t, SessionRun (fresh "cat 12345678\ncat < | wc\n".toList) t ∧ t.lines.length = 2 ∧
    Machine.Reach Ideal.step (fresh "cat 12345678\ncat < | wc\n".toList).ideal t.ideal := by
  obtain ⟨t, run, seen⟩ := sessionRun_by (fresh "cat 12345678\ncat < | wc\n".toList) [willing, willing]
    (fun t => t.lines.length = 2) (by decide +kernel)
  exact ⟨t, run, of_decide_eq_true seen, run_ideal run ⟨by decide, by decide, by decide +kernel⟩⟩

/-- A last line without its newline is read on into the line before it. -/
example : (Machine.follow Session.step Machine.always (fresh "cat 12345678\ncat <".toList) [willing, willing]).any (fun t =>
    t.lines.map (fun it => match it.outcome with | .command cmd _ => cmd.inputFile | _ => none) = [none, some "345678".toList])
    = true := by decide +kernel

end MyShell.Shell
