import MyShell.Text

/-! # What the builtins print

`execute_builtin` of `builtins.c`, with the answers of the system to `getenv`, `chdir` and `getcwd`. The
escapes that `echo -e` understands are those that `escape` writes. -/

namespace MyShell.Shell

/-- `getenv("HOME")`, the error of `chdir` to a path, if any, and `getcwd` or its error. -/
structure Environment where
  home : Option CString
  chdir : CString → Option CString
  getcwd : Except CString CString

/-- What a builtin returns and writes, and where it has changed the directory to. -/
structure BuiltinExit where
  status : Int
  stdout : CString := []
  stderr : CString := []
  directory : Option CString := none
  deriving DecidableEq, Repr

def perror (name error : CString) : CString := name ++ ": ".toList ++ error ++ "\n".toList

def escaped : Char → Char
  | 'n' => '\n'
  | 't' => '\t'
  | 'r' => '\r'
  | '\\' => '\\'
  | c => c

def interpretEscapes : CString → CString
  | [] => []
  | '\\' :: c :: rest => escaped c :: interpretEscapes rest
  | c :: rest => c :: interpretEscapes rest

def echoLoop (interpret : Bool) (startArg : Nat) (args : List CString) (i : Nat) : CString :=
  match _found : args[i]? with
  | none => []
  | some str =>
    (if i > startArg then " ".toList else []) ++ (if interpret then interpretEscapes str else str) ++
      echoLoop interpret startArg args (i + 1)
termination_by args.length - i
decreasing_by
  have := (List.getElem?_eq_some_iff.mp _found).1
  omega

def echo (args : List CString) : CString :=
  let interpret : Bool := args[1]? = some "-e".toList
  let startArg := if interpret then 2 else 1
  echoLoop interpret startArg args startArg ++ "\n".toList

def executeBuiltin (env : Environment) (command : CString) (args : List CString) : BuiltinExit :=
  if command = "cd".toList then
    let path := match args[1]? with
      | none => env.home
      | some path => some path
    match path with
    | none => { status := 1, stderr := "cd: HOME not set\n".toList }
    | some path =>
      match env.chdir path with
      | some error => { status := 1, stderr := perror "cd".toList error }
      | none => { status := 0, directory := some path }
  else if command = "pwd".toList then
    match env.getcwd with
    | .error error => { status := 1, stderr := perror "pwd".toList error }
    | .ok cwd => { status := 0, stdout := cwd ++ "\n".toList }
  else if command = "echo".toList then { status := 0, stdout := echo args }
  else { status := 1, stderr := "Unknown built-in: ".toList ++ command ++ "\n".toList }

/-- How a character is written for `echo -e`. -/
def escapeChar : Char → CString
  | '\\' => "\\\\".toList
  | '\n' => "\\n".toList
  | '\t' => "\\t".toList
  | '\r' => "\\r".toList
  | c => [c]

def escape (s : CString) : CString := s.flatMap escapeChar

variable {interpret : Bool} {startArg i : Nat} {args : List CString} {s : CString}

theorem interpretEscapes_plain {c : Char} (plain : c ≠ '\\') : interpretEscapes (c :: s) = c :: interpretEscapes s := by
  simp [interpretEscapes, plain]

theorem interpretEscapes_escapeChar (c : Char) (s : CString) :
    interpretEscapes (escapeChar c ++ s) = c :: interpretEscapes s := by
  unfold escapeChar
  split
  · rfl
  · rfl
  · rfl
  · rfl
  · rename_i plain _ _ _
    exact interpretEscapes_plain plain

theorem interpretEscapes_escape (s : CString) : interpretEscapes (escape s) = s := by
  induction s with
  | nil => rfl
  | cons c s ih =>
    have split : escape (c :: s) = escapeChar c ++ escape s := List.flatMap_cons
    rw [split, interpretEscapes_escapeChar, ih]

def shown (interpret : Bool) (str : CString) : CString := if interpret then interpretEscapes str else str

theorem echoLoop_none (beyond : args.length ≤ i) : echoLoop interpret startArg args i = [] := by
  unfold echoLoop
  split
  · rfl
  · rename_i found
    exact absurd (List.getElem?_eq_some_iff.mp found).1 (Nat.not_lt.mpr beyond)

theorem echoLoop_some (inside : i < args.length) : echoLoop interpret startArg args i =
    (if i > startArg then " ".toList else []) ++ shown interpret args[i] ++ echoLoop interpret startArg args (i + 1) := by
  conv => lhs; unfold echoLoop
  split
  · rename_i missing
    exact absurd (List.getElem?_eq_none_iff.mp missing) (Nat.not_le.mpr inside)
  · rename_i str found
    obtain ⟨_, rfl⟩ := List.getElem?_eq_some_iff.mp found
    rfl

theorem echoLoop_behind (behind : startArg < i) : echoLoop interpret startArg args i =
    (args.drop i).flatMap fun str => ' ' :: shown interpret str := by
  induction left : args.length - i generalizing i with
  | zero =>
    have beyond : args.length ≤ i := by omega
    rw [echoLoop_none beyond, List.drop_eq_nil_of_le beyond]
    rfl
  | succ n ih =>
    have inside : i < args.length := by omega
    rw [echoLoop_some inside, if_pos behind, ih (by omega) (by omega), List.drop_eq_getElem_cons inside]
    rfl

theorem intercalate_eq (str : CString) (strs : List CString) :
    [' '].intercalate (str :: strs) = str ++ strs.flatMap fun str => ' ' :: str := by
  induction strs generalizing str with
  | nil => simp
  | cons str' strs ih =>
    rw [List.intercalate_cons_cons, ih]
    simp

theorem echoLoop_eq : echoLoop interpret i args i = [' '].intercalate ((args.drop i).map (shown interpret)) := by
  rcases Nat.lt_or_ge i args.length with inside | beyond
  · rw [echoLoop_some inside, if_neg (Nat.lt_irrefl i), echoLoop_behind (Nat.lt_succ_self i),
      List.drop_eq_getElem_cons inside, List.map_cons, intercalate_eq, List.flatMap_map]
    rfl
  · rw [echoLoop_none beyond, List.drop_eq_nil_of_le beyond]
    rfl

/-- `echo` prints its arguments, and `echo -e` those whose escaped forms it is given. -/
theorem echo_reproduces (env : Environment) : (∀ args : List CString, args.head? ≠ some "-e".toList →
      executeBuiltin env "echo".toList ("echo".toList :: args) =
        { status := 0, stdout := [' '].intercalate args ++ ['\n'] }) ∧
    ∀ strs : List CString, executeBuiltin env "echo".toList ("echo".toList :: "-e".toList :: strs.map escape) =
      { status := 0, stdout := [' '].intercalate strs ++ ['\n'] } := by
  have run (args : List CString) :
      executeBuiltin env "echo".toList args = { status := 0, stdout := echo args } := rfl
  refine ⟨fun args other => ?_, fun strs => ?_⟩
  · have plain : decide (("echo".toList :: args)[1]? = some "-e".toList) = false := by
      rw [decide_eq_false_iff_not, List.getElem?_cons_succ, ← List.head?_eq_getElem?]
      exact other
    have same : shown false = id := rfl
    rw [run, echo, plain]
    simp only [Bool.false_eq_true, if_false, echoLoop_eq, same, List.map_id, List.drop_succ_cons, List.drop_zero]
    rfl
  · have same : shown true ∘ escape = id := funext interpretEscapes_escape
    have flag : decide (("echo".toList :: "-e".toList :: strs.map escape)[1]? = some "-e".toList) = true := rfl
    rw [run, echo, flag]
    simp only [if_true, echoLoop_eq, List.drop_succ_cons, List.drop_zero, List.map_map, same, List.map_id]
    rfl

theorem echo_reproduces_words : executeBuiltin ⟨none, fun _ => none, .ok "/".toList⟩ "echo".toList
    ["echo".toList, "a".toList, "b c".toList] = { status := 0, stdout := "a b c\n".toList } :=
  (echo_reproduces _).1 ["a".toList, "b c".toList] (by decide)

end MyShell.Shell
