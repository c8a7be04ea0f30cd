import MyShell.Lib.Machine
import MyShell.Shell.Intake
import MyShell.Shell.Validate

/-! # A session

The whole of `main` in `myshell.c`: the loop of `Intake` with what becomes of each line, on the one buffer
that every line is read into and parsed in, and with the descriptors of the shell. An iteration of the loop
is a step; the calls of it may go any way. -/

namespace MyShell.Shell

open Descriptors MyShell.Parser

variable {δ : Type}

/-! ### execute_command -/

section Execute

variable (sys : System)

def commandSetup (cmd : Command CString) (t : Table (Description δ)) : Except CString (Table (Description δ)) := do
  let t ← childRedirect sys 0 cmd .input "dup2 input".toList t
  let t ← childRedirect sys 0 cmd .output "dup2 output".toList t
  childRedirect sys 0 cmd .error "dup2 error".toList t

def executeCommand (cmd : Command CString) (t : Table (Description δ)) : Execution δ :=
  match sys.fork 0 with
  | none => { table := t, waiting := none, children := [], waited := [], errors := ["fork failed".toList] }
  | some pid =>
    { table := t, waiting := some t, children := [⟨pid, cmd, false, commandSetup sys cmd t⟩], waited := [pid],
      errors := [] }

end Execute

/-! ### The loop -/

structure Answers where
  look : Lookup := {}
  sys : System := {}
  env : Environment

inductive Outcome (δ : Type) where
  | endOfInput | tooLong | exit | empty
  | rejected (message : CString)
  | builtin (cmd : Command CString) (run : BuiltinRun (Description δ)) (exit : Option BuiltinExit)
  | command (cmd : Command CString) (run : Execution δ)
  | pipeline (p : Pipeline CString) (run : Execution δ)

structure Iteration (δ : Type) where
  line : CString
  warnings : List CString := []
  outcome : Outcome δ

section Branches

variable (a : Answers)

def opens (r : Redirection) (path : CString) : Option (Description δ) :=
  if a.sys.opens 0 r path then some (.file r path) else none

def runPipeline (p : Pipeline CString) (t : Table (Description δ)) : Outcome δ × Table (Description δ) :=
  match validatePipeline a.look p t with
  | .error message => (.rejected message, t)
  | .ok t =>
    let run := executePipeline a.sys p t
    (.pipeline p run, run.table)

def runCommand (cmd : Command CString) (t : Table (Description δ)) : Outcome δ × Table (Description δ) :=
  match validateCommand a.look cmd t with
  | .error message => (.rejected message, t)
  | .ok t =>
    if isBuiltin cmd.command then
      let run := runBuiltin (opens a) cmd t
      (.builtin cmd run (run.ran.map fun _ => executeBuiltin a.env (cmd.command.getD []) cmd.args), run.table)
    else
      let run := executeCommand a.sys cmd t
      (.command cmd run, run.table)

end Branches

/-- `stdin` is what the loop's own calls read, and `input` the buffer, also where nothing was written to it yet. -/
structure Session (δ : Type) where
  stdin : CString
  input : List Char
  table : Table (Description δ)
  running : Bool := true
  lines : List (Iteration δ) := []

namespace Session

variable (s : Session δ) (a : Answers)

def record (line : CString) (done : Outcome δ × Table (Description δ)) (warnings : List CString) : Session δ :=
  { s with table := done.2, lines := s.lines ++ [{ line, warnings, outcome := done.1 }] }

def step : Option (Session δ) :=
  if s.running then
    match fgets MAX_INPUT s.stdin with
    | none => some ({ s with running := false }.record [] (.endOfInput, s.table) [])
    | some (buffer, rest) =>
      let input := buffer ++ NUL :: s.input.drop (buffer.length + 1)
      let text := input.takeWhile (· ≠ NUL)
      if truncated text then some ({ s with input, stdin := clearLine rest }.record text (.tooLong, s.table) [])
      else
        let line := text.takeWhile (· ≠ '\n')
        let s := { s with input := input.set line.length NUL, stdin := rest }
        if line = "exit".toList then some ({ s with running := false }.record line (.exit, s.table) [])
        else if line = [] then some (s.record line (.empty, s.table) [])
        else if '|' ∈ line then
          let parsed := parsePipeline s.input 0
          some ({ s with input := parsed.buf }.record line (runPipeline a parsed.read s.table) parsed.stderr)
        else
          let parsed := parseCommand s.input 0
          some ({ s with input := parsed.state.buf }.record line (runCommand a parsed.read s.table) parsed.stderr)
  else none

end Session

abbrev SessionRun (s t : Session δ) : Prop := Machine.Reach Session.step s t

variable {s t : Session δ} {a : Answers} {o : Outcome δ} {cmd : Command CString} {p : Pipeline CString}
  {u v : Table (Description δ)}

/-! ### An iteration -/

def textOf (buffer : List Char) : CString := buffer.takeWhile (· ≠ NUL)

def lineOf (buffer : List Char) : CString := (textOf buffer).takeWhile (· ≠ '\n')

/-- The buffer that a line is parsed in, with what earlier lines have left behind it. -/
def Session.holds (s : Session δ) (buffer : List Char) : List Char :=
  (buffer ++ NUL :: s.input.drop (buffer.length + 1)).set (lineOf buffer).length NUL

structure Reads (s : Session δ) (buffer rest : List Char) : Prop where
  read : fgets MAX_INPUT s.stdin = some (buffer, rest)
  whole : ¬truncated (textOf buffer)

inductive Iterates (s : Session δ) (a : Answers) : Session δ → Prop where
  | endOfInput (ended : fgets MAX_INPUT s.stdin = none) :
      Iterates s a ({ s with running := false }.record [] (.endOfInput, s.table) [])
  | tooLong {buffer rest input : List Char} (read : fgets MAX_INPUT s.stdin = some (buffer, rest))
      (long : truncated (textOf buffer)) :
      Iterates s a ({ s with input, stdin := clearLine rest }.record (textOf buffer) (.tooLong, s.table) [])
  | exit {buffer rest input : List Char} (reads : Reads s buffer rest) (stops : lineOf buffer = "exit".toList) :
      Iterates s a ({ s with input, stdin := rest, running := false }.record (lineOf buffer) (.exit, s.table) [])
  | empty {buffer rest input : List Char} (reads : Reads s buffer rest) (nothing : lineOf buffer = []) :
      Iterates s a ({ s with input, stdin := rest }.record (lineOf buffer) (.empty, s.table) [])
  | pipeline {buffer rest input : List Char} {warnings : List CString} (reads : Reads s buffer rest)
      (goes : lineOf buffer ≠ "exit".toList) (nonempty : lineOf buffer ≠ []) (pipe : '|' ∈ lineOf buffer) :
      Iterates s a ({ s with input, stdin := rest }.record (lineOf buffer)
        (runPipeline a (parsePipeline (s.holds buffer) 0).read s.table) warnings)
  | command {buffer rest input : List Char} {warnings : List CString} (reads : Reads s buffer rest)
      (goes : lineOf buffer ≠ "exit".toList) (nonempty : lineOf buffer ≠ []) (single : '|' ∉ lineOf buffer) :
      Iterates s a ({ s with input, stdin := rest }.record (lineOf buffer)
        (runCommand a (parseCommand (s.holds buffer) 0).read s.table) warnings)

theorem takeWhile_terminated (buffer stale : List Char) :
    (buffer ++ NUL :: stale).takeWhile (· ≠ NUL) = textOf buffer := by
  unfold textOf
  induction buffer with
  | nil => rfl
  | cons c buffer ih => rw [List.cons_append, List.takeWhile_cons, List.takeWhile_cons, ih]

theorem step_iterates (taken : s.step a = some t) : s.running = true ∧ Iterates s a t := by
  unfold Session.step at taken
  split at taken
  case isFalse => cases taken
  case isTrue running =>
    refine ⟨running, ?_⟩
    split at taken
    · rename_i ended
      cases taken
      exact .endOfInput ended
    · rename_i buffer rest read
      simp only [takeWhile_terminated] at taken
      split at taken <;> rename_i long
      · cases taken
        exact .tooLong read long
      have reads : Reads s buffer rest := ⟨read, long⟩
      split at taken <;> rename_i stops
      · cases taken
        exact .exit reads stops
      split at taken <;> rename_i nothing
      · cases taken
        exact .empty reads nothing
      split at taken <;> rename_i pipe
      · cases taken
        exact .pipeline reads stops nothing pipe
      · cases taken
        exact .command reads stops nothing pipe

/-! ### What a parser hands over -/

def Headed {τ : Type} (cmd : Command τ) : Prop := cmd.command = cmd.args.head?

theorem headed_empty {τ : Type} : Headed ({} : Command τ) := rfl

theorem Headed.map {τ τ' : Type} {cmd : Command τ} (headed : Headed cmd) (f : τ → τ') : Headed (cmd.map f) := by
  unfold Headed at headed ⊢
  simp [Command.map, headed, List.head?_map]

theorem Headed.addArg {τ : Type} {cmd : Command τ} (headed : Headed cmd) (token : τ)
    (room : cmd.args.length < MAX_ARGS - 1) : Headed (cmd.addArg token room) := by
  unfold Headed at headed ⊢
  cases args : cmd.args <;> simp [Command.addArg, headed, args]

theorem Headed.setFile {τ : Type} {cmd : Command τ} (headed : Headed cmd) (r : Redirection) (token : τ) :
    Headed (cmd.setFile r token) := by
  unfold Headed at headed ⊢
  simpa using headed

theorem parseLoop_headed {σ τ : Type} (tokens : Tokenizer σ τ) (state : σ) {cmd : Command τ} (headed : Headed cmd) :
    Headed (tokens.parseLoop state cmd).command := by
  have finish (state : σ) {cmd : Command τ} (headed : Headed cmd) : Headed (tokens.finish state cmd).command := by
    rw [Tokenizer.finish_command]
    exact headed
  fun_induction tokens.parseLoop state cmd with
  | case2 | case7 => exact finish _ headed
  | case5 _ _ _ _ _ _ _ _ _ _ _ _ ih => exact ih (headed.setFile _ _)
  | case6 _ _ _ _ _ room _ ih => exact ih (headed.addArg _ room)
  | _ => exact headed

theorem pipelineLoop_headed {b : List Char} {segmentStart : Nat} {p : Pipeline Nat} (headed : ∀ c ∈ p.cmds, Headed c) :
    ∀ c ∈ (pipelineLoop b segmentStart p).pipeline.cmds, Headed c := by
  have add {p : Pipeline Nat} (headed : ∀ c ∈ p.cmds, Headed c) (room : p.count < MAX_CMDS) (b : List Char) (seg : Nat) :
      ∀ c ∈ (p.add (parseCommand b seg).command room).cmds, Headed c := by
    intro c member
    rcases List.mem_append.mp member with old | new
    · exact headed c old
    · rw [List.mem_singleton.mp new]
      exact parseLoop_headed _ _ headed_empty
  fun_induction pipelineLoop b segmentStart p with
  | case3 => exact add headed ‹_› _ _
  | case4 _ _ _ _ _ _ _ _ _ _ _ _ _ _ ih => exact ih (add headed ‹_› _ _)
  | _ => exact headed

theorem parseCommand_headed (b : List Char) (start : Nat) : Headed (parseCommand b start).read :=
  (parseLoop_headed _ _ headed_empty).map _

theorem parsePipeline_headed (b : List Char) (start : Nat) : ∀ c ∈ (parsePipeline b start).read.cmds, Headed c := by
  intro c member
  obtain ⟨c, inside, rfl⟩ := List.mem_map.mp member
  exact (pipelineLoop_headed (p := {}) (List.forall_mem_nil _) c inside).map _

/-! ### What an iteration can do -/

def Outcome.ran : Outcome δ → Bool
  | .builtin _ _ _ | .command _ _ | .pipeline _ _ => true
  | _ => false

inductive Effect (a : Answers) (u : Table (Description δ)) : Outcome δ → Table (Description δ) → Prop where
  | quiet {o : Outcome δ} (idle : o.ran = false) : Effect a u o u
  | builtin {cmd : Command CString} (ready : Ready a.look u.free cmd) (headed : Headed cmd) (builtin : isBuiltin cmd.command = true) :
      Effect a u (.builtin cmd (runBuiltin (opens a) cmd u)
        ((runBuiltin (opens a) cmd u).ran.map fun _ => executeBuiltin a.env (cmd.command.getD []) cmd.args))
        (runBuiltin (opens a) cmd u).table
  | command {cmd : Command CString} (ready : Ready a.look u.free cmd) (headed : Headed cmd) (external : isBuiltin cmd.command = false) :
      Effect a u (.command cmd (executeCommand a.sys cmd u)) (executeCommand a.sys cmd u).table
  | pipeline {p : Pipeline CString} (some : 0 < p.count) (ready : ∀ c ∈ p.cmds, Ready a.look u.free c ∧
      (isBuiltin c.command = true ∨ commandExists a.look c.command = true)) (headed : ∀ c ∈ p.cmds, Headed c) :
      Effect a u (.pipeline p (executePipeline a.sys p u)) (executePipeline a.sys p u).table

def Outcome.handed : Outcome δ → Bool
  | .endOfInput | .tooLong | .exit | .empty => false
  | _ => true

def Iteration.acts (it : Iteration δ) : List Act :=
  .print PROMPT :: if it.outcome.handed then [handOver it.line] else match it.outcome with
    | .endOfInput => [.print "\n".toList]
    | .tooLong => [.complain inputTooLong]
    | _ => []

theorem runPipeline_effect (headed : ∀ c ∈ p.cmds, Headed c) (u : Table (Description δ)) :
    Effect a u (runPipeline a p u).1 (runPipeline a p u).2 ∧ (runPipeline a p u).1.handed = true := by
  unfold runPipeline
  cases accepted : validatePipeline a.look p u with
  | error message => exact ⟨.quiet rfl, rfl⟩
  | ok table =>
    obtain ⟨rfl, -, more, ready⟩ := validatePipeline_ok.mp accepted
    exact ⟨.pipeline more ready headed, rfl⟩

theorem runCommand_effect (headed : Headed cmd) (u : Table (Description δ)) :
    Effect a u (runCommand a cmd u).1 (runCommand a cmd u).2 ∧ (runCommand a cmd u).1.handed = true := by
  unfold runCommand
  cases accepted : validateCommand a.look cmd u with
  | error message => exact ⟨.quiet rfl, rfl⟩
  | ok table =>
    obtain ⟨rfl, ready⟩ := validateCommand_ok.mp accepted
    dsimp only
    split <;> rename_i builtin
    · exact ⟨.builtin ready headed builtin, rfl⟩
    · exact ⟨.command ready headed (Bool.of_not_eq_true builtin), rfl⟩

theorem mainLoop_some {stream buffer rest : CString} (read : fgets MAX_INPUT stream = some (buffer, rest)) :
    mainLoop stream = .print PROMPT ::
      if truncated (textOf buffer) then .complain inputTooLong :: mainLoop (clearLine rest)
      else if lineOf buffer = "exit".toList then []
      else if lineOf buffer = [] then mainLoop rest
      else handOver (lineOf buffer) :: mainLoop rest := by
  conv => lhs; unfold mainLoop
  split
  · rename_i missing
    cases missing.symm.trans read
  · rename_i found
    cases found.symm.trans read
    rfl

theorem step_effect (taken : s.step a = some t) : ∃ it, t.lines = s.lines ++ [it] ∧
    Effect a s.table it.outcome t.table ∧
      mainLoop s.stdin = it.acts ++ if t.running then mainLoop t.stdin else [] := by
  obtain ⟨running, iterates⟩ := step_iterates taken
  cases iterates with
  | endOfInput ended =>
    refine ⟨_, rfl, .quiet rfl, ?_⟩
    unfold mainLoop
    split
    · rfl
    · rename_i found
      cases ended.symm.trans found
  | tooLong read long =>
    refine ⟨_, rfl, .quiet rfl, ?_⟩
    rw [mainLoop_some read, if_pos long]
    simp [Iteration.acts, Session.record, Outcome.handed, running]
  | exit reads stops =>
    refine ⟨_, rfl, .quiet rfl, ?_⟩
    rw [mainLoop_some reads.read, if_neg reads.whole, if_pos stops]
    simp [Iteration.acts, Session.record, Outcome.handed]
  | @empty buffer _ _ reads nothing =>
    refine ⟨_, rfl, .quiet rfl, ?_⟩
    have goes : ¬lineOf buffer = "exit".toList := by
      rw [nothing]
      decide
    rw [mainLoop_some reads.read, if_neg reads.whole, if_neg goes, if_pos nothing]
    simp [Iteration.acts, Session.record, Outcome.handed, running]
  | pipeline reads goes nonempty pipe =>
    obtain ⟨effect, handed⟩ := runPipeline_effect (a := a) (parsePipeline_headed (s.holds _) 0) s.table
    refine ⟨_, rfl, effect, ?_⟩
    rw [mainLoop_some reads.read, if_neg reads.whole, if_neg goes, if_neg nonempty]
    simp [Iteration.acts, Session.record, handed, running]
  | command reads goes nonempty single =>
    obtain ⟨effect, handed⟩ := runCommand_effect (a := a) (parseCommand_headed (s.holds _) 0) s.table
    refine ⟨_, rfl, effect, ?_⟩
    rw [mainLoop_some reads.read, if_neg reads.whole, if_neg goes, if_neg nonempty]
    simp [Iteration.acts, Session.record, handed, running]

/-! ### The descriptors -/

structure Kept (u v : Table (Description δ)) : Prop where
  limit : v.limit = u.limit
  file : ∀ fd d, u.file fd = some d → v.file fd = some d
  left : ∀ fd d, u.file fd = none → v.file fd = some d → ∃ k, d = .readEnd k ∨ d = .writeEnd k

theorem Kept.refl (u : Table (Description δ)) : Kept u u :=
  ⟨rfl, fun _ _ held => held, fun _ _ none held => nomatch none.symm.trans held⟩

theorem Kept.trans {w : Table (Description δ)} (first : Kept u v) (second : Kept v w) : Kept u w where
  limit := second.limit.trans first.limit
  file fd d held := second.file fd d (first.file fd d held)
  left fd d none held := by
    cases between : v.file fd with
    | none => exact second.left fd d between held
    | some d' =>
      have same := (second.file fd d' between).symm.trans held
      exact first.left fd d none (between.trans same)

def Outcome.pipeFailed : Outcome δ → Bool
  | .pipeline _ run => run.errors = ["pipe".toList]
  | _ => false

theorem runBuiltin_table {opens : Redirection → CString → Option (Description δ)}
    (opened : ∀ fd < 3, (u.file fd).isSome = true) : (runBuiltin opens cmd u).table = u := by
  have saves := (Steps.run opens cmd opened).saves
  unfold runBuiltin
  dsimp only
  generalize redirectError opens cmd (redirectOutput opens cmd (redirectInput opens cmd { table := u })) = made at saves ⊢
  have back := ((saves.restored .input).restored .output).restored .error
  have all : Function.update (Function.update (Function.update made.saved .input none) .output none) .error none
      = fun _ => none := funext fun r => by cases r <;> rfl
  rw [all] at back
  exact back.same

theorem executeCommand_table {sys : System} : (executeCommand sys cmd u).table = u := by
  unfold executeCommand
  split <;> rfl

theorem Made.kept {made : Pipes δ} (all : Made 0 u made) : Kept u made.table where
  limit := all.limit
  file fd d held := by
    have outside : fd ∉ ends made.pipes := fun member => nomatch (all.free fd member).symm.trans held
    exact (all.other fd outside).trans held
  left fd d none held := by
    by_cases inside : fd ∈ ends made.pipes
    · obtain ⟨k, pair, found, rfl | rfl⟩ := mem_ends.mp inside
      · exact ⟨_, .inl (Option.some.inj (held.symm.trans (all.entries k pair found).1))⟩
      · exact ⟨_, .inr (Option.some.inj (held.symm.trans (all.entries k pair found).2))⟩
    · exact nomatch none.symm.trans ((all.other fd inside).symm.trans held)

theorem executePipeline_kept {sys : System} : Kept u (executePipeline sys p u).table ∧
    ((executePipeline sys p u).errors ≠ ["pipe".toList] → (executePipeline sys p u).table = u) := by
  have made := createPipes_made sys 0 (p.count - 1) u
  unfold executePipeline
  dsimp only
  split
  · exact ⟨made.kept, fun failed => absurd rfl failed⟩
  · rw [made.closed]
    split <;> exact ⟨Kept.refl u, fun _ => rfl⟩

theorem Effect.kept (effect : Effect a u o v) (opened : ∀ fd < 3, (u.file fd).isSome = true) :
    Kept u v ∧ (o.pipeFailed = false → v = u) := by
  cases effect with
  | quiet => exact ⟨Kept.refl u, fun _ => rfl⟩
  | builtin =>
    rw [runBuiltin_table opened]
    exact ⟨Kept.refl u, fun _ => rfl⟩
  | command =>
    rw [executeCommand_table]
    exact ⟨Kept.refl u, fun _ => rfl⟩
  | pipeline =>
    obtain ⟨kept, same⟩ := executePipeline_kept (p := ‹_›) (u := u)
    exact ⟨kept, fun fine => same fun failed => by simp [Outcome.pipeFailed, failed] at fine⟩

structure KeptSince (s t : Session δ) : Prop where
  kept : Kept s.table t.table
  same : (∀ it ∈ t.lines, it.outcome.pipeFailed = false) → t.table = s.table

theorem KeptSince.start (s : Session δ) : KeptSince s s := ⟨Kept.refl _, fun _ => rfl⟩

theorem KeptSince.step {u : Session δ} (since : KeptSince s t) (opened : ∀ fd < 3, (s.table.file fd).isSome = true)
    (taken : t.step a = some u) : KeptSince s u := by
  obtain ⟨kept, same⟩ := since
  obtain ⟨it, lines, effect, -⟩ := step_effect taken
  have streams : ∀ fd < 3, (t.table.file fd).isSome = true := fun fd below => by
    obtain ⟨d, held⟩ := Option.isSome_iff_exists.mp (opened fd below)
    exact Option.isSome_iff_exists.mpr ⟨d, kept.file fd d held⟩
  obtain ⟨later, fine⟩ := effect.kept streams
  refine ⟨kept.trans later, fun never => ?_⟩
  rw [lines] at never
  rw [fine (never it (List.mem_append_right _ (List.mem_singleton_self it)))]
  exact same fun it member => never it (List.mem_append_left _ member)

/-- Over a whole session the shell keeps its streams and all that was open when it started. What it leaves
open are ends of pipes, and none unless a call of `pipe` has failed. -/
theorem run_kept (run : SessionRun s t) (opened : ∀ fd < 3, (s.table.file fd).isSome = true) :
    Kept s.table t.table ∧ ((∀ it ∈ t.lines, it.outcome.pipeFailed = false) → t.table = s.table) := by
  have since : KeptSince s t := run.invariant (KeptSince.start s) fun since _ taken => since.step opened taken
  exact ⟨since.kept, since.same⟩

def standard : Table Nat := ⟨8, fun fd => if fd < 3 then some fd else none⟩

def fresh (stdin : CString) : Session Nat where
  stdin := stdin
  input := List.replicate MAX_INPUT NUL
  table := standard.map .shell

def willing : Answers where
  look := { path := some "/bin".toList }
  env := ⟨none, fun _ => none, .ok "/".toList⟩

theorem sessionRun_by (s : Session δ) (answers : List Answers) (test : Session δ → Bool)
    (passed : (Machine.follow Session.step Machine.always s answers).any test = true) : ∃ t, SessionRun s t ∧ test t = true :=
  Machine.exists_run answers passed

/-- In `ls | sort | wc` the second call of `pipe` fails. -/
theorem run_kept_pipe : ∃ t, SessionRun (fresh "pwd > f\nls | sort | wc\n".toList) t ∧
    t.table.file 3 = some (.readEnd 0) ∧ Kept (fresh []).table t.table := by
  obtain ⟨t, run, seen⟩ := sessionRun_by (fresh "pwd > f\nls | sort | wc\n".toList)
    [willing, { willing with sys := { pipe := fun k => k = 0 } }] (fun t => t.table.file 3 = some (.readEnd 0)) (by decide +kernel)
  exact ⟨t, run, of_decide_eq_true seen, (run_kept run (by decide)).1⟩

/-! ### The lines -/

/-- The iterations of a session are those of the loop on its input, in their order. -/
theorem run_acts (run : SessionRun s t) (start : s.lines = []) (running : s.running = true) :
    mainLoop s.stdin = t.lines.flatMap Iteration.acts ++ if t.running then mainLoop t.stdin else [] := by
  refine run.invariant (I := fun t => mainLoop s.stdin =
    t.lines.flatMap Iteration.acts ++ if t.running then mainLoop t.stdin else [])
    (by rw [start, if_pos running]; rfl) fun {t a u} same _ taken => ?_
  obtain ⟨it, lines, -, acts⟩ := step_effect taken
  rw [if_pos (step_iterates taken).1, acts] at same
  rw [same, lines, List.flatMap_append, List.append_assoc, List.flatMap_singleton]

theorem run_acts_exit : ∃ t, SessionRun (fresh "pwd\nls | wc\nexit\nls\n".toList) t ∧ t.running = false ∧
    mainLoop "pwd\nls | wc\nexit\nls\n".toList = t.lines.flatMap Iteration.acts := by
  obtain ⟨t, run, seen⟩ := sessionRun_by (fresh "pwd\nls | wc\nexit\nls\n".toList) [willing, willing, willing]
    (fun t => t.running = false) (by decide +kernel)
  have stopped : t.running = false := of_decide_eq_true seen
  have same := run_acts run rfl rfl
  rw [stopped, if_neg Bool.false_ne_true, List.append_nil] at same
  exact ⟨t, run, stopped, same⟩

end MyShell.Shell
