import MyShell.Demo

/-! # Which commands are demos

The strings that `parse_demo_command` takes for a demo, as a grammar, beside the one that the command
`demo N` suggests. They differ where the blank is missing and where the number is no `int`. -/

namespace MyShell

/-! ### Numbers in a text -/

structure Digits (digits : CString) : Prop where
  nonempty : digits ≠ []
  digit : ∀ c ∈ digits, c.isDigit = true

/-- A decimal number with its value. -/
inductive Signed : CString → Int → Prop where
  | plain {digits : CString} (ok : Digits digits) : Signed digits (Nat.ofDigitChars 10 digits 0)
  | plus {digits : CString} (ok : Digits digits) : Signed ('+' :: digits) (Nat.ofDigitChars 10 digits 0)
  | minus {digits : CString} (ok : Digits digits) : Signed ('-' :: digits) (-Nat.ofDigitChars 10 digits 0)

/-- White space, a number of this value, and only white space behind it. -/
inductive Numbered (blanks : CString) (value : Int) : CString → Prop where
  | mk {number tail : CString} (blank : ∀ c ∈ blanks, isSpace c = true) (signed : Signed number value)
      (ends : ∀ c ∈ tail, isSpace c = true) : Numbered blanks value (blanks ++ (number ++ tail))

def toLong (n : Int) : Int := max LONG_MIN (min LONG_MAX n)

def valueOf (s : CString) : Int :=
  let (negative, body) := splitSign (skipSpace s)
  let value : Int := Nat.ofDigitChars 10 (body.takeWhile Char.isDigit) 0
  if negative then -value else value

variable {s blanks blanks' number digits tail : CString} {value value' n : Int} {negative : Bool}

theorem not_isDigit_of_isSpace {c : Char} (space : isSpace c = true) : c.isDigit = false := by
  rw [Bool.eq_false_iff]
  intro digit
  rw [isSpace_of_isDigit digit] at space
  cases space

theorem Signed.head (signed : Signed number value) : ∃ c rest, number = c :: rest ∧ isSpace c = false := by
  cases signed with
  | plain ok =>
    obtain ⟨c, rest, rfl⟩ := List.exists_cons_of_ne_nil ok.nonempty
    exact ⟨c, rest, rfl, isSpace_of_isDigit (ok.digit c List.mem_cons_self)⟩
  | plus ok => exact ⟨'+', _, rfl, rfl⟩
  | minus ok => exact ⟨'-', _, rfl, rfl⟩

theorem takeWhile_digits (ok : Digits digits) (ends : ∀ c ∈ tail, isSpace c = true) :
    (digits ++ tail).takeWhile Char.isDigit = digits := by
  rw [List.takeWhile_append_of_pos ok.digit]
  cases tail with
  | nil => simp
  | cons c tail => simp [not_isDigit_of_isSpace (ends c List.mem_cons_self)]

theorem splitSign_digits (ok : Digits digits) : splitSign (digits ++ tail) = (false, digits ++ tail) := by
  obtain ⟨c, rest, rfl⟩ := List.exists_cons_of_ne_nil ok.nonempty
  have digit := ok.digit c List.mem_cons_self
  have start : splitSign (skipSpace (c :: (rest ++ tail))) = (false, c :: (rest ++ tail)) := strtol_start digit
  rwa [skipSpace_of_head (isSpace_of_isDigit digit)] at start

theorem Signed.split (signed : Signed number value) : ∃ negative digits, Digits digits ∧
    (∀ tail, splitSign (number ++ tail) = (negative, digits ++ tail)) ∧
      value = if negative then -(Nat.ofDigitChars 10 digits 0 : Int) else Nat.ofDigitChars 10 digits 0 := by
  cases signed with
  | plain ok => exact ⟨false, number, ok, fun tail => splitSign_digits ok, rfl⟩
  | @plus digits ok => exact ⟨false, digits, ok, fun tail => rfl, rfl⟩
  | @minus digits ok => exact ⟨true, digits, ok, fun tail => rfl, rfl⟩

theorem skipSpace_blanks (blank : ∀ c ∈ blanks, isSpace c = true) (signed : Signed number value) :
    skipSpace (blanks ++ (number ++ tail)) = number ++ tail := by
  obtain ⟨c, rest, rfl, visible⟩ := signed.head
  rw [skipSpace, List.dropWhile_append_of_pos blank]
  exact skipSpace_of_head visible

theorem skipSpace_eq_nil : skipSpace s = [] ↔ ∀ c ∈ s, isSpace c = true := by
  simp [skipSpace, List.dropWhile_eq_nil_iff]

theorem toLong_signed (m : Nat) : (if negative then max LONG_MIN (-(m : Int)) else min LONG_MAX m) =
    toLong (if negative then -(m : Int) else m) := by
  cases negative with
  | false =>
    show min LONG_MAX (m : Int) = max LONG_MIN (min LONG_MAX m)
    unfold LONG_MIN LONG_MAX
    omega
  | true =>
    show max LONG_MIN (-(m : Int)) = max LONG_MIN (min LONG_MAX (-m))
    unfold LONG_MIN LONG_MAX
    omega

theorem Numbered.found (numbered : Numbered blanks value s) :
    blanks = s.takeWhile isSpace ∧ value = valueOf s ∧
      ∃ tail, strtol s = some (toLong value, tail) ∧ skipSpace tail = [] := by
  obtain ⟨blank, signed, ends⟩ := numbered
  rename_i number tail
  obtain ⟨negative, digits, ok, split, same⟩ := signed.split
  have skipped : skipSpace (blanks ++ (number ++ tail)) = number ++ tail := skipSpace_blanks blank signed
  have taken := takeWhile_digits ok ends
  refine ⟨?_, ?_, tail, ?_, skipSpace_eq_nil.mpr ends⟩
  · obtain ⟨c, rest, rfl, visible⟩ := signed.head
    rw [List.takeWhile_append_of_pos blank]
    simp [visible]
  · simp only [valueOf, skipped, split, taken]
    exact same
  · simp only [strtol, skipped, split, taken, if_neg ok.nonempty, List.drop_left']
    rw [toLong_signed, same]

theorem splitSign_signed (ok : Digits digits) (split : splitSign s = (negative, digits ++ tail)) :
    ∃ number, s = number ++ tail ∧
      Signed number (if negative then -(Nat.ofDigitChars 10 digits 0 : Int) else Nat.ofDigitChars 10 digits 0) := by
  unfold splitSign at split
  split at split
  · cases split
    exact ⟨'-' :: digits, rfl, .minus ok⟩
  · cases split
    exact ⟨'+' :: digits, rfl, .plus ok⟩
  · cases split
    exact ⟨digits, rfl, .plain ok⟩

theorem numbered_of_strtol {m : Int} (found : strtol s = some (m, tail)) (ends : skipSpace tail = []) :
    ∃ blanks value, Numbered blanks value s ∧ m = toLong value := by
  obtain ⟨⟨negative, body⟩, same⟩ : ∃ split, splitSign (skipSpace s) = split := ⟨_, rfl⟩
  simp only [strtol, same] at found
  generalize taken : body.takeWhile Char.isDigit = digits at found
  split at found
  · cases found
  rename_i nonempty
  cases found
  have ok : Digits digits := ⟨nonempty, fun c member => List.mem_takeWhile_imp (taken ▸ member)⟩
  have whole : body = digits ++ body.drop digits.length := by
    rw [← taken]
    exact List.prefix_iff_eq_append.mp (List.takeWhile_prefix _) |>.symm
  rw [whole] at same
  obtain ⟨number, split, signed⟩ := splitSign_signed ok same
  have blank : ∀ c ∈ s.takeWhile isSpace, isSpace c = true := fun c member => List.mem_takeWhile_imp member
  have numbered := Numbered.mk blank signed (skipSpace_eq_nil.mp ends)
  rw [← split, skipSpace, List.takeWhile_append_dropWhile] at numbered
  exact ⟨_, _, numbered, toLong_signed _⟩

/-! ### Demo commands -/

/-- `demo` or `./demo`, the blanks behind it, and a number of this value. -/
inductive DemoLike (blanks : CString) (value : Int) : CString → Prop where
  | plain {rest : CString} (numbered : Numbered blanks value rest) : DemoLike blanks value ("demo".toList ++ rest)
  | path {rest : CString} (numbered : Numbered blanks value rest) : DemoLike blanks value ("./demo".toList ++ rest)

/-- The command `demo N` for the `N` of this value. -/
def DemoCommand (n : Int) (command : CString) : Prop :=
  ∃ blanks, blanks ≠ [] ∧ DemoLike blanks n command ∧ 0 < n ∧ n ≤ INT_MAX

variable {command : CString}

theorem DemoLike.unique (like : DemoLike blanks value command) (like' : DemoLike blanks' value' command) :
    blanks = blanks' ∧ value = value' := by
  have rest {s s' : CString} (numbered : Numbered blanks value s) (numbered' : Numbered blanks' value' s')
      (same : s' = s) : blanks = blanks' ∧ value = value' := by
    subst same
    exact ⟨numbered.found.1.trans numbered'.found.1.symm, numbered.found.2.1.trans numbered'.found.2.1.symm⟩
  generalize whole : command = command' at like'
  cases like with
  | plain numbered =>
    cases like' with
    | plain numbered' => exact rest numbered numbered' (List.append_cancel_left whole).symm
    | path => cases whole
  | path numbered =>
    cases like' with
    | plain => cases whole
    | path numbered' => exact rest numbered numbered' (List.append_cancel_left whole).symm

theorem scan_other {word : CString} (other : word.isPrefixOf command = false) : scanWordInt word command = (0, 0) := by
  simp [scanWordInt, other]

theorem scan_numbered {word rest : CString} (numbered : Numbered blanks value rest) :
    scanWordInt word (word ++ rest) = (1, toInt (toLong value)) := by
  obtain ⟨-, -, tail, found, ends⟩ := numbered.found
  have starts : word.isPrefixOf (word ++ rest) = true := by simp
  rw [scanWordInt, if_pos starts, List.drop_left' rfl, found]
  simp [ends]

theorem numbered_of_scan {word : CString} (once : (scanWordInt word command).1 = 1) :
    ∃ rest blanks value, command = word ++ rest ∧ Numbered blanks value rest := by
  unfold scanWordInt at once
  split at once
  · rename_i starts
    obtain ⟨rest, rfl⟩ := List.isPrefixOf_iff_prefix.mp starts
    rw [List.drop_left' rfl] at once
    split at once
    · cases once
    · rename_i value tail found
      have ends : skipSpace tail = [] := by
        by_contra more
        simp [more] at once
      obtain ⟨blanks, value', numbered, -⟩ := numbered_of_strtol found ends
      exact ⟨rest, blanks, value', rfl, numbered⟩
  · cases once

theorem parse_like (like : DemoLike blanks value command) : parseDemoCommand command =
    if 0 < toInt (toLong value) then some (toInt (toLong value)) else none := by
  cases like with
  | plain numbered =>
    simp only [parseDemoCommand, scan_numbered numbered, true_or, true_and, if_true, gt_iff_lt]
  | @path rest numbered =>
    have other : scanWordInt "demo".toList ("./demo".toList ++ rest) = (0, 0) := scan_other rfl
    have path : scanWordInt "./demo".toList ("./demo".toList ++ rest) = _ := scan_numbered numbered
    simp only [parseDemoCommand, other, path, Nat.zero_ne_one, false_or, true_and, if_false, gt_iff_lt]

theorem parse_iff : parseDemoCommand command = some n ↔
    ∃ blanks value, DemoLike blanks value command ∧ toInt (toLong value) = n ∧ 0 < n := by
  constructor
  · intro parsed
    have like : ∃ blanks value, DemoLike blanks value command := by
      simp only [parseDemoCommand, Option.ite_none_right_eq_some] at parsed
      rcases parsed.1.1 with once | once
      · obtain ⟨rest, blanks, value, rfl, numbered⟩ := numbered_of_scan once
        exact ⟨blanks, value, .plain numbered⟩
      · obtain ⟨rest, blanks, value, rfl, numbered⟩ := numbered_of_scan once
        exact ⟨blanks, value, .path numbered⟩
    obtain ⟨blanks, value, like⟩ := like
    rw [parse_like like, Option.ite_none_right_eq_some] at parsed
    obtain ⟨positive, same⟩ := parsed
    cases same
    exact ⟨blanks, value, like, rfl, positive⟩
  · rintro ⟨blanks, value, like, rfl, positive⟩
    rw [parse_like like, if_pos positive]

/-! ### What is made of a command -/

structure Task.IsDemo (task : Task) (n : Int) : Prop where
  type : task.type = .demoProgram
  burst : task.burstTime = n
  remaining : task.remainingTime = n

structure Task.IsShell (task : Task) : Prop where
  type : task.type = .shell
  burst : task.burstTime = -1
  remaining : task.remainingTime = -1

/-- The task is a demo of `n` slices just for the command `demo N`, and else a shell command. -/
structure MadeOf (task : Task) (command : CString) : Prop where
  demo : ∀ n, task.IsDemo n ↔ DemoCommand n command
  shell : (∀ n, ¬ DemoCommand n command) → task.IsShell

variable {ctx : ClientContext} {taskId arrivalOrder : Int}

theorem create_isDemo : (createTaskFromCommand ctx taskId arrivalOrder command).IsDemo n ↔ parseDemoCommand command = some n := by
  unfold createTaskFromCommand
  dsimp only
  split
  · rename_i m parsed
    rw [parsed, Option.some.injEq]
    exact ⟨fun made => made.burst, fun same => ⟨rfl, same, same⟩⟩
  · rename_i parsed
    rw [parsed]
    refine iff_of_false (fun made => ?_) (Option.some_ne_none n).symm
    cases made.type

theorem create_isShell (parsed : parseDemoCommand command = none) :
    (createTaskFromCommand ctx taskId arrivalOrder command).IsShell := by
  unfold createTaskFromCommand
  rw [parsed]
  exact ⟨rfl, rfl, rfl⟩

theorem toInt_toLong (positive : 0 < value) (small : value ≤ INT_MAX) : toInt (toLong value) = value := by
  have inside : toLong value = value := by
    unfold toLong LONG_MIN LONG_MAX
    unfold INT_MAX at small
    omega
  rw [inside, toInt_of_bounds (Int.le_of_lt positive) small]

theorem madeOf_like (made : MadeOf (createTaskFromCommand ctx taskId arrivalOrder command) command)
    (like : DemoLike blanks value command) (positive : 0 < toInt (toLong value)) :
    blanks ≠ [] ∧ 0 < value ∧ value ≤ INT_MAX := by
  have parsed := parse_iff.mpr ⟨blanks, value, like, rfl, positive⟩
  obtain ⟨blanks', blank, like', above, below⟩ := (made.demo _).mp (create_isDemo.mpr parsed)
  obtain ⟨rfl, same⟩ := like.unique like'
  rw [← same] at above below
  exact ⟨blank, above, below⟩

/-- A command is treated as the grammar says, unless the number stands right behind the word or is out
of range and positive after all when it is cut to `int`. -/
theorem create_madeOf (ctx : ClientContext) (taskId arrivalOrder : Int) (command : CString) :
    MadeOf (createTaskFromCommand ctx taskId arrivalOrder command) command ↔
      ∀ blanks value, DemoLike blanks value command → 0 < toInt (toLong value) →
        blanks ≠ [] ∧ 0 < value ∧ value ≤ INT_MAX := by
  refine ⟨fun made blanks value => madeOf_like made, fun proper => ?_⟩
  have demo : ∀ n, parseDemoCommand command = some n ↔ DemoCommand n command := fun n => by
    constructor
    · intro parsed
      obtain ⟨blanks, value, like, rfl, positive⟩ := parse_iff.mp parsed
      obtain ⟨blank, above, below⟩ := proper blanks value like positive
      rw [toInt_toLong above below]
      exact ⟨blanks, blank, like, above, below⟩
    · rintro ⟨blanks, -, like, above, below⟩
      exact parse_iff.mpr ⟨blanks, n, like, toInt_toLong above below, above⟩
  refine ⟨fun n => create_isDemo.trans (demo n), fun none => create_isShell ?_⟩
  exact Option.eq_none_iff_forall_ne_some.mpr fun n parsed => none n ((demo n).mp parsed)

/-- `demo5` is a demo of 5 slices, and `demo 4294967297` one of a single slice. -/
theorem demos_by_accident : ¬ MadeOf (createTaskFromCommand ⟨5, 1⟩ 1 1 "demo5".toList) "demo5".toList ∧
    ¬ MadeOf (createTaskFromCommand ⟨5, 1⟩ 1 1 "demo 4294967297".toList) "demo 4294967297".toList := by
  have demo (blanks digits : CString) (n : Nat) (blank : blanks.all isSpace = true) (nonempty : digits ≠ [])
      (digit : digits.all Char.isDigit = true) (value : Nat.ofDigitChars 10 digits 0 = n) :
      DemoLike blanks n ("demo".toList ++ (blanks ++ (digits ++ []))) :=
    .plain (.mk (List.all_eq_true.mp blank) (value ▸ .plain ⟨nonempty, List.all_eq_true.mp digit⟩) (List.forall_mem_nil _))
  have glued : DemoLike [] 5 "demo5".toList := demo [] "5".toList 5 rfl (by decide) (by decide) (by decide)
  have large : DemoLike [' '] 4294967297 "demo 4294967297".toList :=
    demo [' '] "4294967297".toList 4294967297 (by decide) (by decide) (by decide) (by decide)
  refine ⟨fun made => ?_, fun made => ?_⟩
  · exact (madeOf_like made glued (by decide)).1 rfl
  · exact absurd (madeOf_like made large (by decide)).2.2 (by decide)

end MyShell
