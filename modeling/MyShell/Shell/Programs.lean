import MyShell.Shell.Session

/-! # The programs of a session

What the shell calls, with which streams, and what it waits for. A command of its own is a pipeline of one,
but for the process that a builtin runs in. -/

namespace MyShell.Shell

open Descriptors MyShell.Parser

variable {δ : Type} {s t : Session δ} {a : Answers} {o : Outcome δ} {cmd : Command CString} {p : Pipeline CString}
  {u v : Table (Description δ)} {sys : System} {child : Child δ} {k : Nat}

/-! ### The children -/

theorem commandSetup_single : commandSetup sys cmd u = childSetup sys 1 [] 0 cmd u := rfl

theorem executeCommand_child (member : child ∈ (executeCommand sys cmd u).children) :
    child = ⟨child.pid, cmd, false, childSetup sys 1 [] 0 cmd u⟩ := by
  unfold executeCommand at member
  split at member
  · cases member
  · rw [List.mem_singleton.mp member, commandSetup_single]

theorem forkChildren_child {n i : Nat} {pipes : List (Nat × Nat)} {cmds : List (Command CString)}
    (forked : (forkChildren sys n pipes u i cmds).1[k]? = some child) :
    ∃ cmd, cmds[k]? = some cmd ∧
      child = ⟨child.pid, cmd, isBuiltin cmd.command, childSetup sys n pipes (i + k) cmd u⟩ := by
  induction cmds generalizing i k with
  | nil => cases forked
  | cons cmd cmds ih =>
    rw [forkChildren] at forked
    cases called : sys.fork i with
    | none =>
      rw [called] at forked
      cases forked
    | some pid =>
      rw [called] at forked
      cases k with
      | zero =>
        cases forked
        exact ⟨cmd, rfl, rfl⟩
      | succ k =>
        obtain ⟨cmd, here, same⟩ := ih forked
        rw [Nat.add_assoc, Nat.add_comm 1] at same
        exact ⟨cmd, here, same⟩

theorem createPipes_length {left : Nat} (created : ¬(createPipes sys 0 left u).failed = true) :
    (createPipes sys 0 left u).pipes.length = left := by
  refine (createPipes_all fun k below => ?_).2
  obtain ⟨may, room⟩ := not_or.mp fun fails => created (createPipes_failed_iff.mpr ⟨k, below, fails⟩)
  rw [Nat.zero_add]
  exact ⟨Bool.of_not_eq_false may, Nat.not_lt.mp room⟩

theorem executePipeline_child (forked : (executePipeline sys p u).children[k]? = some child) :
    ∃ (made : Pipes δ) (cmd : Command CString), Made 0 u made ∧ made.pipes.length = p.count - 1 ∧ p.cmds[k]? = some cmd ∧
      child = ⟨child.pid, cmd, isBuiltin cmd.command, childSetup sys p.count made.pipes k cmd made.table⟩ := by
  have made := createPipes_made sys 0 (p.count - 1) u
  unfold executePipeline at forked
  dsimp only at forked
  split at forked
  · cases forked
  rename_i created
  have children : (forkChildren sys p.count (createPipes sys 0 (p.count - 1) u).pipes
      (createPipes sys 0 (p.count - 1) u).table 0 p.cmds).1[k]? = some child := by
    split at forked <;> exact forked
  obtain ⟨cmd, here, same⟩ := forkChildren_child children
  rw [Nat.zero_add] at same
  exact ⟨_, cmd, made, createPipes_length created, here, same⟩

/-! ### What is called -/

/-- The command was parsed without an error, and its name is its first argument. -/
structure Callable (cmd : Command CString) : Prop where
  parsed : cmd.hasError = false
  named : ∃ name args, cmd.command = some name ∧ cmd.args = name :: args

theorem Ready.callable {look : Lookup} {free : Nat} (ready : Ready look free cmd) (headed : Headed cmd) : Callable cmd := by
  obtain ⟨name, named⟩ := Option.ne_none_iff_exists'.mp ready.named
  obtain ⟨args, split⟩ := List.head?_eq_some_iff.mp (headed.symm.trans named)
  exact ⟨ready.parsed, name, args, named, split⟩

def Execution.Waits (run : Execution δ) (cmds : List (Command CString)) : Prop :=
  run.children.map Child.command = cmds ∧ run.waited = run.children.map Child.pid

/-- Only what was found sound is called, and where it belongs: a builtin in the shell unless it is part of
a pipeline, and anything else in a child. -/
def Outcome.Sound : Outcome δ → Prop
  | .builtin cmd run result => Callable cmd ∧ isBuiltin cmd.command = true ∧ result.isSome = run.ran.isSome ∧
      ∀ e, result = some e → ¬"Unknown built-in: ".toList <+: e.stderr
  | .command cmd run => Callable cmd ∧ isBuiltin cmd.command = false ∧
      (run.errors = [] → run.Waits [cmd]) ∧ ∀ child ∈ run.children, child.command = cmd ∧ child.builtin = false
  | .pipeline p run => 0 < p.count ∧ (run.errors = [] → run.Waits p.cmds) ∧
      ∀ child ∈ run.children, child.command ∈ p.cmds ∧ Callable child.command ∧ child.builtin = isBuiltin child.command.command
  | _ => True

theorem executeBuiltin_known (env : Environment) (args : List CString) {name : CString} (known : isBuiltin (some name) = true) :
    ¬"Unknown built-in: ".toList <+: (executeBuiltin env name args).stderr := by
  have cases : name = "cd".toList ∨ name = "pwd".toList ∨ name = "echo".toList := by
    simpa [isBuiltin, or_assoc] using known
  have head {text : CString} {c : Char} (other : c ≠ 'U') : ¬"Unknown built-in: ".toList <+: c :: text := fun ahead =>
    other (List.cons_prefix_cons.mp ahead).1.symm
  have silent : ¬"Unknown built-in: ".toList <+: ([] : CString) := by decide
  unfold executeBuiltin
  rcases cases with rfl | rfl | rfl
  · rw [if_pos rfl]
    dsimp only
    split
    · exact head (by decide)
    · split
      · exact head (by decide)
      · exact silent
  · rw [if_neg (by decide), if_pos rfl]
    split
    · exact head (by decide)
    · exact silent
  · rw [if_neg (by decide), if_neg (by decide), if_pos rfl]
    exact silent

theorem executeCommand_waits (fine : (executeCommand sys cmd u).errors = []) : (executeCommand sys cmd u).Waits [cmd] := by
  unfold executeCommand at fine ⊢
  split at fine
  · cases fine
  · exact ⟨rfl, rfl⟩

theorem executePipeline_waits (fine : (executePipeline sys p u).errors = []) : (executePipeline sys p u).Waits p.cmds := by
  obtain ⟨-, forked, -, children⟩ := executePipeline_forked fine
  refine ⟨?_, ?_⟩
  · rw [children]
    refine List.ext_getElem? fun k => ?_
    have same := forkChildren_get (k := k) forked
    rw [List.getElem?_map]
    generalize (forkChildren sys p.count _ _ 0 p.cmds).1[k]? = child at same ⊢
    have command := congrArg (Option.map Prod.fst) same
    simpa [Option.map_map, Function.comp_def] using command
  · unfold executePipeline at fine ⊢
    dsimp only at fine ⊢
    split at fine
    · cases fine
    rename_i created
    rw [if_neg created, if_pos forked]

theorem Effect.sound (effect : Effect a u o v) : o.Sound := by
  cases effect with
  | quiet idle => cases o <;> trivial
  | builtin ready headed builtin =>
    have callable := ready.callable headed
    obtain ⟨name, args, named, -⟩ := callable.named
    refine ⟨callable, builtin, by simp, fun e result => ?_⟩
    obtain ⟨_, -, rfl⟩ := Option.map_eq_some_iff.mp result
    rw [named] at builtin
    rw [named]
    exact executeBuiltin_known _ _ builtin
  | command ready headed external =>
    refine ⟨ready.callable headed, external, executeCommand_waits, fun child member => ?_⟩
    rw [executeCommand_child member]
    exact ⟨rfl, rfl⟩
  | pipeline more ready headed =>
    refine ⟨more, executePipeline_waits, fun child member => ?_⟩
    obtain ⟨k, forked⟩ := List.mem_iff_getElem?.mp member
    obtain ⟨_, cmd, -, -, here, same⟩ := executePipeline_child forked
    have inside := List.mem_of_getElem? here
    rw [same]
    exact ⟨inside, (ready cmd inside).1.callable (headed cmd inside), rfl⟩

theorem run_lines {P : Outcome δ → Prop} (each : ∀ {a o} {u v : Table (Description δ)}, Effect a u o v → P o)
    (run : SessionRun s t) (start : s.lines = []) : ∀ it ∈ t.lines, P it.outcome := by
  refine run.invariant (I := fun t => ∀ it ∈ t.lines, P it.outcome)
    (by rw [start]; exact List.forall_mem_nil _) fun {t a u} before _ taken => ?_
  obtain ⟨it, lines, effect, -⟩ := step_effect taken
  rw [lines]
  exact List.forall_mem_append.mpr ⟨before, List.forall_mem_singleton.mpr (each effect)⟩

/-- Whatever is typed and whatever the calls answer, all that a session runs is sound. -/
theorem run_sound (run : SessionRun s t) (start : s.lines = []) : ∀ it ∈ t.lines, it.outcome.Sound :=
  run_lines Effect.sound run start

/-- A builtin, a command of which the `fork` fails, and a pipeline. -/
theorem run_sound_three : ∃ t, SessionRun (fresh "pwd > f\ncat\nls | sort 2> e\n".toList) t ∧
    t.lines.map (·.outcome.ran) = [true, true, true] ∧ ∀ it ∈ t.lines, it.outcome.Sound := by
  obtain ⟨t, run, seen⟩ := sessionRun_by (fresh "pwd > f\ncat\nls | sort 2> e\n".toList)
    [willing, { willing with sys := { fork := fun _ => none } }, willing]
    (fun t => t.lines.map (·.outcome.ran) = [true, true, true]) (by decide +kernel)
  exact ⟨t, run, of_decide_eq_true seen, run_sound run rfl⟩

/-! ### The streams -/

/-- What is run finds on its streams its redirections, then the pipes, and else what the shell was started with. -/
def Outcome.Wires (base : Table δ) : Outcome δ → Prop
  | .builtin cmd run _ => ∀ u, run.ran = some u → ∀ r, u.file (stream r) = wired 1 0 cmd (base.file (stream r)) r
  | .command cmd run => ∀ child ∈ run.children, ∀ u, child.setup = .ok u → Wired 1 0 cmd base u
  | .pipeline p run => ∀ k child u, run.children[k]? = some child → child.setup = .ok u →
      ∃ cmd, p.cmds[k]? = some cmd ∧ Wired p.count k cmd base u
  | _ => True

variable {base : Table δ}

theorem map_opened (opened : ∀ fd < 3, (base.file fd).isSome = true) :
    ∀ fd < 3, ((base.map Description.shell).file fd).isSome = true := fun fd below => by
  rw [Table.map_file, Option.isSome_map]
  exact opened fd below

theorem streams_opened (opened : ∀ fd < 3, (base.file fd).isSome = true) (r : Redirection) :
    (base.file (stream r)).isSome = true :=
  opened _ (by cases r <;> decide)

theorem runBuiltin_wires (opened : ∀ fd < 3, (base.file fd).isSome = true)
    (ran : (runBuiltin (opens a) cmd (base.map .shell)).ran = some u) (r : Redirection) :
    u.file (stream r) = wired 1 0 cmd (base.file (stream r)) r := by
  have opened' := map_opened opened
  have stream := builtin_streams opened' ran r
  have held : (u.file (Shell.stream r)).isSome = true := by
    obtain ⟨-, same⟩ := Option.ite_none_right_eq_some.mp ran
    cases same
    exact (Steps.run (opens a) cmd opened').saves.stream r
  rw [stream] at held ⊢
  unfold streamOf wired at *
  cases named : cmd.file r with
  | none =>
    simp only [Table.map_file]
    cases r <;> rfl
  | some path =>
    simp only [named, opens] at held ⊢
    split at held
    · rw [if_pos ‹_›]
    · cases held

theorem Effect.wires (effect : Effect a (base.map .shell) o v) (opened : ∀ fd < 3, (base.file fd).isSome = true) :
    o.Wires base := by
  cases effect with
  | quiet idle => cases o <;> trivial
  | builtin => exact fun u ran r => runBuiltin_wires opened ran r
  | command =>
    intro child member u ready
    rw [executeCommand_child member] at ready
    have alone : Made 0 (base.map .shell) ⟨[], base.map .shell, false⟩ := createPipes_made a.sys 0 0 _
    exact childSetup_wired alone rfl (streams_opened opened) Nat.zero_lt_one ready
  | pipeline =>
    intro k child u forked ready
    obtain ⟨made, cmd, all, length, here, same⟩ := executePipeline_child forked
    rw [same] at ready
    exact ⟨cmd, here, childSetup_wired all length (streams_opened opened) (List.getElem?_eq_some_iff.mp here).1 ready⟩

/-- As long as no call of `pipe` has failed, every program of a session finds the streams that its line asks
for, whatever went wrong with the lines before. -/
theorem run_wired (run : SessionRun s t) (start : s.lines = []) (shell : s.table = base.map .shell)
    (opened : ∀ fd < 3, (base.file fd).isSome = true) (made : ∀ it ∈ t.lines, it.outcome.pipeFailed = false) :
    ∀ it ∈ t.lines, it.outcome.Wires base := by
  have streams : ∀ fd < 3, (s.table.file fd).isSome = true := by
    rw [shell]
    exact map_opened opened
  have kept {t : Session δ} (run : SessionRun s t) : KeptSince s t :=
    run.invariant (KeptSince.start s) fun since _ taken => since.step streams taken
  have both : (∀ it ∈ t.lines, it.outcome.pipeFailed = false) → ∀ it ∈ t.lines, it.outcome.Wires base := by
    refine run.invariant_of (I := fun t => (∀ it ∈ t.lines, it.outcome.pipeFailed = false) → ∀ it ∈ t.lines, it.outcome.Wires base)
      kept (fun _ => by rw [start]; exact List.forall_mem_nil _) fun {t a u} same _ before _ taken fine => ?_
    obtain ⟨it, lines, effect, -⟩ := step_effect taken
    rw [lines] at fine ⊢
    obtain ⟨earlier, -⟩ := List.forall_mem_append.mp fine
    rw [same.same earlier, shell] at effect
    exact List.forall_mem_append.mpr ⟨before earlier, List.forall_mem_singleton.mpr (effect.wires opened)⟩
  exact both made

/-- After a `cat` that could not be forked. -/
theorem run_wired_three : ∃ t, SessionRun (fresh "cat\npwd > f\nls | sort 2> e\n".toList) t ∧
    t.lines.map (·.outcome.ran) = [true, true, true] ∧ ∀ it ∈ t.lines, it.outcome.Wires standard := by
  obtain ⟨t, run, seen⟩ := sessionRun_by (fresh "cat\npwd > f\nls | sort 2> e\n".toList)
    [{ willing with sys := { fork := fun _ => none } }, willing, willing]
    (fun t => t.lines.map (·.outcome.ran) = [true, true, true] ∧ ∀ it ∈ t.lines, it.outcome.pipeFailed = false)
    (by decide +kernel)
  obtain ⟨ran, made⟩ := of_decide_eq_true seen
  exact ⟨t, run, ran, run_wired run rfl rfl (by decide) made⟩

end MyShell.Shell
