import MyShell.Server.Ownership
import Mathlib.Computability.RegularExpressions

/-! # The log of a task

The lines that the log holds about one task, in the order in which they were written. The client's
worker writes the first of them and the scheduler the others, each after its own section, so that
only the order of the two threads' steps decides which line comes first. -/

namespace MyShell

open State
open RegularExpression (char)

def events (p : Ptr) (log : List LogLine) : List Decision :=
  log.filterMap fun
    | .decision event _ _ q => if q = p then some event else none
    | _ => none

def pause : RegularExpression Decision := (char .waiting + char .preempted) * char .running

/-- What the log is to say about a task from its creation to its end. -/
def eventPattern : TaskType → RegularExpression Decision
  | .shell => char .created * char .started * char .ended
  | _ => char .created * char .started * pause.star * char .ended

/-! ### What was said last -/

/-- What the lines about a task tell about it. -/
inductive Phase where
  | fresh | created | running | paused | ended
  deriving DecidableEq

/-- The lines about a task, and the phase that they lead to. -/
inductive Tells (type : TaskType) : Phase → List Decision → Prop where
  | fresh : Tells type .fresh []
  | created {word} (told : Tells type .fresh word) : Tells type .created (word ++ [.created])
  | started {word} (told : Tells type .created word) : Tells type .running (word ++ [.started])
  | paused {word event} (told : Tells type .running word) (goesOn : type ≠ .shell)
      (fits : event = .waiting ∨ event = .preempted) : Tells type .paused (word ++ [event])
  | resumed {word} (told : Tells type .paused word) : Tells type .running (word ++ [.running])
  | ended {word} (told : Tells type .running word) : Tells type .ended (word ++ [.ended])

def rounds (type : TaskType) : Language Decision := if type = .shell then 1 else pause.star.matches'

theorem nil_mem_rounds (type : TaskType) : [] ∈ rounds type := by
  unfold rounds
  split
  · exact rfl
  · exact Language.nil_mem_kstar _

theorem rounds_snoc {type : TaskType} {word : List Decision} {event : Decision} (goesOn : type ≠ .shell)
    (fits : event = .waiting ∨ event = .preempted) (member : word ∈ rounds type) :
    word ++ [event, .running] ∈ rounds type := by
  rw [rounds, if_neg goesOn, RegularExpression.matches'_star] at member ⊢
  obtain ⟨blocks, rfl, each⟩ := Language.mem_kstar.mp member
  refine Language.mem_kstar.mpr ⟨blocks ++ [[event, .running]], by simp, fun block inside => ?_⟩
  rcases List.mem_append.mp inside with old | new
  · exact each block old
  · obtain rfl := List.mem_singleton.mp new
    rw [pause, RegularExpression.matches'_mul, Language.mem_mul]
    exact ⟨[event], fits.imp (congrArg (fun ev => [ev])) (congrArg (fun ev => [ev])), [.running], rfl, rfl⟩

theorem mem_pattern {type : TaskType} {word : List Decision} (member : word ∈ rounds type) :
    .created :: .started :: (word ++ [.ended]) ∈ (eventPattern type).matches' := by
  have opening : [.created, .started] ∈ ({[Decision.created]} : Language Decision) * {[Decision.started]} :=
    Language.mem_mul.mpr ⟨_, rfl, _, rfl, rfl⟩
  cases type with
  | shell =>
    obtain rfl : word = [] := by simpa [rounds, Language.mem_one] using member
    simp only [eventPattern, RegularExpression.matches'_mul, RegularExpression.matches'_char]
    exact Language.mem_mul.mpr ⟨_, opening, _, rfl, rfl⟩
  | demoProgram | unknownProgram =>
    simp only [eventPattern, RegularExpression.matches'_mul, RegularExpression.matches'_char]
    exact Language.mem_mul.mpr ⟨_, Language.mem_mul.mpr ⟨_, opening, word, by simpa [rounds] using member, rfl⟩, _, rfl,
      by simp⟩

theorem created_first {type : TaskType} {word : List Decision} (member : word ∈ (eventPattern type).matches') :
    ∃ rest, word = .created :: rest := by
  have shape : ∃ u v w, word = ([.created] ++ u) ++ v ++ w := by
    cases type <;> simp only [eventPattern, RegularExpression.matches'_mul, RegularExpression.matches'_char] at member
    · obtain ⟨_, ⟨_, rfl, u, _, rfl⟩, w, _, rfl⟩ := member
      exact ⟨u, [], w, by simp⟩
    all_goals
      obtain ⟨_, ⟨_, ⟨_, rfl, u, _, rfl⟩, v, _, rfl⟩, w, _, rfl⟩ := member
      exact ⟨u, v, w, rfl⟩
  obtain ⟨u, v, w, rfl⟩ := shape
  exact ⟨u ++ v ++ w, by simp⟩

def Phase.words (type : TaskType) : Phase → Set (List Decision)
  | .fresh => {[]}
  | .created => {[.created]}
  | .running => {word | ∃ round ∈ rounds type, word = .created :: .started :: round}
  | .paused => {word | type ≠ .shell ∧ ∃ round ∈ rounds type, ∃ event, (event = .waiting ∨ event = .preempted) ∧
      word = .created :: .started :: (round ++ [event])}
  | .ended => {word | ∃ round ∈ rounds type, word = .created :: .started :: (round ++ [.ended])}

theorem Tells.mem_words {type : TaskType} {word : List Decision} {φ : Phase} (told : Tells type φ word) :
    word ∈ φ.words type := by
  induction told with
  | fresh => rfl
  | created told ih =>
    obtain rfl : _ = [] := ih
    rfl
  | started told ih =>
    obtain rfl : _ = [Decision.created] := ih
    exact ⟨[], nil_mem_rounds type, rfl⟩
  | paused told goesOn fits ih =>
    obtain ⟨round, member, rfl⟩ := ih
    exact ⟨goesOn, round, member, _, fits, rfl⟩
  | resumed told ih =>
    obtain ⟨goesOn, round, member, event, fits, rfl⟩ := ih
    exact ⟨_, rounds_snoc goesOn fits member, by simp⟩
  | ended told ih =>
    obtain ⟨round, member, rfl⟩ := ih
    exact ⟨round, member, rfl⟩

theorem Tells.eq_fresh {type : TaskType} {word : List Decision} {φ : Phase} (told : Tells type φ word)
    (first : Tells type .fresh word) : φ = .fresh := by
  obtain rfl : word = [] := first.mem_words
  generalize same : ([] : List Decision) = word at told
  cases told with
  | fresh => rfl
  | _ => simp at same

theorem Tells.completes {type : TaskType} {word : List Decision} {φ : Phase} (told : Tells type φ word) :
    ∃ whole ∈ (eventPattern type).matches', word <+: whole := by
  have word' := told.mem_words
  cases φ with
  | fresh =>
    obtain rfl : word = [] := word'
    exact ⟨_, mem_pattern (nil_mem_rounds type), List.nil_prefix⟩
  | created =>
    obtain rfl : word = [.created] := word'
    exact ⟨_, mem_pattern (nil_mem_rounds type), ⟨_, rfl⟩⟩
  | running =>
    obtain ⟨round, member, rfl⟩ := word'
    exact ⟨_, mem_pattern member, ⟨[.ended], by simp⟩⟩
  | paused =>
    obtain ⟨goesOn, round, member, event, fits, rfl⟩ := word'
    exact ⟨_, mem_pattern (rounds_snoc goesOn fits member), ⟨[.running, .ended], by simp⟩⟩
  | ended =>
    obtain ⟨round, member, rfl⟩ := word'
    exact ⟨_, mem_pattern member, List.prefix_refl _⟩

/-! ### What the program points say about it -/

/-- The held task before its start is logged. -/
def SchedPc.starts : SchedPc → Option Ptr
  | .setCurrent t | .clearPreempt t | .logStart t => some t
  | _ => none

/-- The held task between the line of its start and the line of its end. -/
def SchedPc.logs : SchedPc → Option Ptr
  | .setCurrent _ | .clearPreempt _ | .logStart _ | .complete _ _ | .release _ _ | .setLast _ | .requeue _ => none
  | pc => pc.held

def SchedPc.pauses : SchedPc → Option Ptr
  | .setLast t | .requeue t => some t
  | _ => none

def SchedPc.counted : SchedPc → Option Ptr
  | .logRequeue t _ | .setLast t | .requeue t => some t
  | _ => none

/-- The next line about the task is one of its start, if there is any. -/
def State.waits (s : State) (p : Ptr) : Prop :=
  s.status p = .created ∨ s.status p = .queued ∨ s.pc.starts = some p

/-- The task's client has still to log its creation. -/
def State.passes (s : State) (p : Ptr) : Prop := (s.worker (s.task p).clientId).task = some p

def State.Told (s : State) (p : Ptr) (φ : Phase) : Prop := Tells (s.task p).type φ (events p s.log)

structure LogOk (s : State) (p : Ptr) : Prop where
  known : ∃ φ, s.Told p φ
  nonneg : 0 ≤ (s.task p).roundCount
  passed : s.passes p → s.Told p .fresh ∧ (s.task p).roundCount = 0
  first : s.waits p → (s.task p).roundCount = 0 → s.passes p ∨ s.Told p .created
  again : s.waits p → (s.task p).roundCount ≠ 0 → s.Told p .paused
  running : s.pc.logs = some p → s.Told p .running
  paused : s.pc.pauses = some p → s.Told p .paused
  counted : s.pc.counted = some p → (s.task p).roundCount ≠ 0

/-- The scheduler does not log the start of a task whose creation the client's worker has still to
log. -/
def logsInOrder (s : State) : Event → Bool
  | .sched _ =>
    match s.pc with
    | .logStart t => (s.worker (s.task t).clientId).task ≠ some t
    | _ => true
  | _ => true

variable {s t : State} {a : Answer} {c : ClientId} {e : Event} {p q : Ptr}

@[simp] theorem events_append (log log' : List LogLine) : events p (log ++ log') = events p log ++ events p log' :=
  List.filterMap_append

@[simp] theorem events_decision (event : Decision) (c : ClientId) (value : Int) :
    events p [.decision event c value q] = if q = p then [event] else [] := by
  by_cases same : q = p <;> simp [events, same]

@[simp] theorem events_silent {line : LogLine} (silent : ∀ event c value q, line ≠ .decision event c value q) :
    events p [line] = [] := by
  cases line with
  | decision event c value q => exact absurd rfl (silent event c value q)
  | _ => rfl

theorem SchedStep.roundCount (taken : SchedStep s a t) (other : ∀ o, s.pc ≠ .countRound p o) :
    (t.task p).roundCount = (s.task p).roundCount := by
  cases taken with
  | @countRound q o here =>
    have different : p ≠ q := fun same => other o (same ▸ here)
    simp [different]
  | @slice r | @relay q | @update r =>
    simp only [setPc_task, sendOutput, modifyTask_task, Function.update_apply, onDispatch_task,
      schedulerUpdateTaskAfterExecution, modifySched_task]
    split <;> simp_all
  | _ => simp

theorem held_of_logs {pc : SchedPc} (here : pc.logs = some p) : pc.held = some p := by
  cases pc <;> first | exact here | cases here

theorem held_of_counted {pc : SchedPc} (here : pc.counted = some p) : pc.held = some p := by
  cases pc <;> first | exact here | cases here

theorem counted_of_pauses {pc : SchedPc} (here : pc.pauses = some p) : pc.counted = some p := by
  cases pc <;> first | exact here | cases here

theorem LogOk.move (ok : LogOk s p) (later : (s.task p).Later (t.task p)) (passes : t.passes p ↔ s.passes p)
    (log : events p t.log = events p s.log) (rounds : (t.task p).roundCount = (s.task p).roundCount)
    (waits : t.waits p → s.waits p) (logs : t.pc.logs = some p → s.pc.logs = some p)
    (pauses : t.pc.pauses = some p → s.pc.pauses = some p)
    (counted : t.pc.counted = some p → s.pc.counted = some p) : LogOk t p := by
  have told (φ : Phase) : t.Told p φ ↔ s.Told p φ := by rw [State.Told, State.Told, later.type, log]
  constructor
  · simpa only [told] using ok.known
  · rw [rounds]; exact ok.nonneg
  · rw [passes, told, rounds]; exact ok.passed
  · rw [passes, told, rounds]; exact fun here => ok.first (waits here)
  · rw [told, rounds]; exact fun here => ok.again (waits here)
  · rw [told]; exact fun here => ok.running (logs here)
  · rw [told]; exact fun here => ok.paused (pauses here)
  · rw [rounds]; exact fun here => ok.counted (counted here)

theorem LogOk.not_passes (ok : LogOk s p) {φ : Phase} (told : s.Told p φ) (later : φ ≠ .fresh) : ¬ s.passes p :=
  fun passes => later (told.eq_fresh (ok.passed passes).1)

theorem not_waits_of_held (status : t.status p = .held) (away : t.pc.starts = none) : ¬ t.waits p := by
  simp [State.waits, status, away]

theorem logOk_tell {φ : Phase} (told : t.Told p φ) (nonneg : 0 ≤ (t.task p).roundCount) (passes : ¬ t.passes p)
    (waits : ¬ t.waits p) (logs : t.pc.logs = some p → φ = .running) (pauses : t.pc.pauses = some p → φ = .paused)
    (counted : t.pc.counted = some p → (t.task p).roundCount ≠ 0) : LogOk t p where
  known := ⟨φ, told⟩
  nonneg := nonneg
  passed here := absurd here passes
  first here := absurd here waits
  again here := absurd here waits
  running here := logs here ▸ told
  paused here := pauses here ▸ told
  counted := counted

theorem LogOk.start (ok : LogOk s p) (here : s.pc = .logStart p) (met : logsInOrder s (.sched a) = true) :
    ¬ s.passes p ∧ Tells (s.task p).type .running
      (events p s.log ++ [if (s.task p).roundCount = 0 then .started else .running]) := by
  have waits : s.waits p := .inr (.inr (by rw [here]; rfl))
  have passes : ¬ s.passes p := by simpa [logsInOrder, here, State.passes] using met
  refine ⟨passes, ?_⟩
  split
  · rename_i first
    exact .started ((ok.first waits first).resolve_left passes)
  · rename_i again
    exact .resumed (ok.again waits again)

theorem schedStep_log (ok : LogOk s p) (inv : Inv s) (met : logsInOrder s (.sched a) = true)
    (taken : SchedStep s a t) : LogOk t p := by
  have frame := taken.frame
  have passes : t.passes p ↔ s.passes p := by rw [State.passes, State.passes, frame.worker, (frame.later p).clientId]
  have rounds := taken.roundCount (p := p)
  have move := fun log other => ok.move (frame.later p) passes log (rounds other)
  cases taken with
  | idle here =>
    refine move ?_ (by simp [here]) (by simp [State.waits, here, SchedPc.starts]) (by simp [SchedPc.logs, SchedPc.held])
      (by simp [SchedPc.pauses]) (by simp [SchedPc.counted])
    simp only [setPc_log, printSummary_log]
    split <;> simp
  | @dequeue q id removed rest here found =>
    obtain ⟨rfl, queued, -⟩ := inv.owned.dequeue inv.tasks here found
    refine move rfl (by simp [here]) (fun waits => ?_) (by simp [SchedPc.logs]) (by simp [SchedPc.pauses])
      (by simp [SchedPc.counted])
    by_cases mine : p = removed
    · exact .inr (.inl (mine ▸ (inv.owned.queued removed queued).2))
    · simpa [State.waits, SchedPc.starts, mine, Ne.symm mine, here] using waits
  | @logShell q event here type known | @logDemo q event quantum here type known =>
    by_cases mine : p = q
    · subst mine
      obtain ⟨unpassed, told⟩ := ok.start here met
      have held := (inv.owned.held p (by rw [here]; rfl)).2
      exact logOk_tell (by simpa [State.Told, known] using told) ok.nonneg (by rwa [passes])
        (not_waits_of_held held rfl) (fun _ => rfl) (by simp [SchedPc.pauses]) (by simp [SchedPc.counted])
    · exact move (by simp [Ne.symm mine]) (by simp [here]) (by simp [State.waits, here, SchedPc.starts, Ne.symm mine])
        (by simp [SchedPc.logs, SchedPc.held, Ne.symm mine]) (by simp [SchedPc.pauses]) (by simp [SchedPc.counted])
  | @update r done here =>
    cases done <;> exact move (by simp) (by simp [here]) (by simp [State.waits, here, afterUpdate, SchedPc.starts])
      (by simp [here, afterUpdate, SchedPc.logs, SchedPc.held]) (by simp [afterUpdate, SchedPc.pauses])
      (by simp [afterUpdate, SchedPc.counted])
  | @check r here =>
    rcases afterCheck_cases r s.preemptFlag with ⟨o, -, same⟩ | same <;> rw [same] at move ⊢ <;>
      exact move (by simp) (by simp [here]) (by simp [State.waits, here, SchedPc.starts])
        (by simp [here, SchedPc.logs, SchedPc.held]) (by simp [SchedPc.pauses]) (by simp [SchedPc.counted])
  | @countRound q o here =>
    by_cases mine : p = q
    · subst mine
      have told := ok.running (by rw [here]; rfl)
      have held := (inv.owned.held p (by rw [here]; rfl)).2
      have nonneg := ok.nonneg
      refine logOk_tell (φ := .running) (by simpa [State.Told] using told) ?_ ?_ (not_waits_of_held held ?_)
        (fun _ => rfl) ?_ ?_
      · simp only [setPc_task, modifyTask_task, Function.update_self]
        omega
      · rw [passes]
        exact ok.not_passes told (by simp)
      · cases o <;> rfl
      · cases o <;> simp [afterQuantum, SchedPc.pauses]
      · simp only [setPc_task, modifyTask_task, Function.update_self]
        omega
    · exact move (by simp) (by simpa [here] using Ne.symm mine) (by cases o <;> simp [State.waits, here, afterQuantum, SchedPc.starts])
        (by cases o <;> simp [here, afterQuantum, SchedPc.logs, SchedPc.held])
        (by cases o <;> simp [afterQuantum, SchedPc.pauses]) (by cases o <;> simp [afterQuantum, SchedPc.counted, Ne.symm mine])
  | @logEnded q ending here =>
    by_cases mine : p = q
    · subst mine
      have told := ok.running (by rw [here]; rfl)
      have held := (inv.owned.held p (by rw [here]; rfl)).2
      exact logOk_tell (φ := .ended) (by simpa [State.Told] using told.ended) ok.nonneg
        (by rw [passes]; exact ok.not_passes told (by simp)) (not_waits_of_held held rfl) (by simp [SchedPc.logs])
        (by simp [SchedPc.pauses]) (by simp [SchedPc.counted])
    · exact move (by simp [Ne.symm mine]) (by simp [here]) (by simp [State.waits, here, SchedPc.starts])
        (by simp [SchedPc.logs]) (by simp [SchedPc.pauses]) (by simp [SchedPc.counted])
  | @logRequeue q o event here known =>
    by_cases mine : p = q
    · subst mine
      have told := ok.running (by rw [here]; rfl)
      have held := (inv.owned.held p (by rw [here]; rfl)).2
      have goesOn := inv.runs.demo p (by rw [here]; rfl)
      have fits : event = .waiting ∨ event = .preempted := by rw [known]; split <;> simp
      exact logOk_tell (φ := .paused) (by simpa [State.Told] using told.paused goesOn fits) ok.nonneg
        (by rw [passes]; exact ok.not_passes told (by simp)) (not_waits_of_held held rfl) (by simp [SchedPc.logs])
        (fun _ => rfl) (fun _ => ok.counted (by rw [here]; rfl))
    · exact move (by simp [Ne.symm mine]) (by simp [here]) (by simp [State.waits, here, SchedPc.starts])
        (by simp [SchedPc.logs]) (by simp [SchedPc.pauses, Ne.symm mine]) (by simp [SchedPc.counted, Ne.symm mine])
  | @requeue q here =>
    by_cases mine : p = q
    · subst mine
      have told := ok.paused (by rw [here]; rfl)
      have counted := ok.counted (by rw [here]; rfl)
      have unpassed : ¬ s.passes p := ok.not_passes told (by simp)
      exact ⟨⟨_, told⟩, ok.nonneg, fun passing => absurd (passes.mp passing) unpassed,
        fun _ first => absurd first counted, fun _ _ => told, by simp [SchedPc.logs, SchedPc.held],
        by simp [SchedPc.pauses], by simp [SchedPc.counted]⟩
    · exact move (by simp) (by simp [here]) (by simp [State.waits, here, SchedPc.starts, mine])
        (by simp [SchedPc.logs, SchedPc.held]) (by simp [SchedPc.pauses]) (by simp [SchedPc.counted])
  | @release q ending here =>
    refine move (by simp) (by simp [here]) (fun waits => ?_) (by simp [SchedPc.logs, SchedPc.held])
      (by simp [SchedPc.pauses]) (by simp [SchedPc.counted])
    by_cases mine : p = q
    · simp [State.waits, SchedPc.starts, mine] at waits
    · simpa [State.waits, SchedPc.starts, mine, here] using waits
  | _ =>
    have here := ‹s.pc = _›
    exact move (by simp) (by simp [here]) (by simp [State.waits, here, SchedPc.starts])
      (by simp [here, SchedPc.logs, SchedPc.held]) (by simp [here, SchedPc.pauses]) (by simp [here, SchedPc.counted])

theorem workerStep_log (ok : LogOk s p) (inv : Inv s) (old : p < s.allocated) (taken : WorkerStep s c a t) :
    LogOk t p := by
  have frame := taken.frame
  have later := frame.later p old
  have same := frame.task p old
  have passes (mine : (t.worker c).task = some p ↔ (s.worker c).task = some p) : t.passes p ↔ s.passes p := by
    rw [State.passes, State.passes, later.clientId]
    by_cases own : (s.task p).clientId = c
    · rw [own]; exact mine
    · rw [frame.worker _ own]
  have move := fun mine log waits => ok.move later (passes mine) log (congrArg Task.roundCount same) waits
    (by rw [frame.pc]; exact id) (by rw [frame.pc]; exact id) (by rw [frame.pc]; exact id)
  cases taken with
  | create here => exact move (by simp [here, WorkerPc.task, Nat.ne_of_gt old]) (by simp) (by simp [State.waits, Nat.ne_of_lt old])
  | @enqueue q here =>
    refine move (by simp [here, WorkerPc.task]) (by simp) fun waits => ?_
    by_cases mine : p = q
    · exact .inl (mine ▸ (inv.owned.created c q here).2)
    · simpa [State.waits, mine] using waits
  | notify here => exact move (by simp [here, WorkerPc.task]) (by simp) (by simp [State.waits])
  | @logCreated q here =>
    by_cases mine : p = q
    · subst mine
      have passing : (s.worker c).task = some p := by rw [here]; rfl
      have client := (inv.owned.passed c p passing).2
      obtain ⟨told, first⟩ := ok.passed (by rwa [State.passes, client])
      have created : Tells (s.task p).type .created (events p s.log ++ [.created]) := told.created
      have away {φ : Phase} (other : s.Told p φ) : φ = .fresh := other.eq_fresh told
      refine ⟨⟨.created, by simpa [State.Told] using created⟩, ok.nonneg, fun passing => ?_, fun _ _ => .inr ?_,
        fun _ again => absurd first again, fun here => ?_, fun here => ?_, fun here => ?_⟩
      · simp [State.passes, client, WorkerPc.task] at passing
      · simpa [State.Told] using created
      · cases away (ok.running here)
      · cases away (ok.paused here)
      · exact absurd first (ok.counted here)
    · exact move (by simp [here, WorkerPc.task, Ne.symm mine]) (by simp [Ne.symm mine]) (by simp [State.waits])
  | remove here =>
    refine move (by simp [here, WorkerPc.task]) (by simp) fun waits => ?_
    simp only [State.waits, setWorker_status, removeTasksForClient_status, setWorker_pc, removeTasksForClient_pc] at waits
    split at waits
    · exact .inr (.inr (by simpa using waits))
    · exact waits
  | exit here => exact move (by simp [here, WorkerPc.task]) (by simp [events]) (by simp [State.waits])
  | _ =>
    have here := ‹s.worker c = _›
    exact move (by simp [here, WorkerPc.task]) (by simp) (by simp [State.waits])

theorem logOk_create (inv : Inv s) (command : CString) (unborn : events s.allocated s.log = []) :
    LogOk ((s.createTask c command).setWorker c (.enqueue s.allocated)) s.allocated := by
  have told : ((s.createTask c command).setWorker c (.enqueue s.allocated)).Told s.allocated .fresh := by
    simpa [State.Told, unborn] using Tells.fresh
  have client : (s.context c).clientId = c := inv.clients.clientId c
  have held : s.pc.held ≠ some s.allocated := fun here => Nat.lt_irrefl _ (inv.owned.held _ here).1
  refine ⟨⟨_, told⟩, by simp, fun _ => ⟨told, by simp⟩, fun _ _ => .inl ?_, fun _ again => absurd (by simp) again,
    fun here => ?_, fun here => ?_, fun here => ?_⟩
  · simp [State.passes, client, WorkerPc.task]
  · exact absurd (held_of_logs here) held
  · exact absurd (held_of_counted (counted_of_pauses here)) held
  · exact absurd (held_of_counted here) held

theorem mainStep_log (ok : LogOk s p) (inv : Inv s) (taken : MainStep s a t) : LogOk t p := by
  have frame := taken.frame
  have worker : (t.worker (s.task p).clientId).task = (s.worker (s.task p).clientId).task := by
    cases taken with
    | @spawn c here =>
      have absent := (inv.clients.spawning c here).2
      by_cases mine : (s.task p).clientId = c <;> simp [mine, absent, WorkerPc.task]
    | _ => simp
  have log : events p t.log = events p s.log := by cases taken <;> simp
  exact ok.move (frame.task ▸ .refl _) (by rw [State.passes, State.passes, frame.task, worker]) log (by rw [frame.task])
    (by rw [State.waits, State.waits, frame.status, frame.pc]; exact id) (by rw [frame.pc]; exact id)
    (by rw [frame.pc]; exact id) (by rw [frame.pc]; exact id)

theorem step_unborn (inv : Inv s) (taken : Step s e t) (above : s.allocated ≤ p) (unborn : events p s.log = []) :
    events p t.log = [] := by
  have born {q : Ptr} (old : q < s.allocated) : q ≠ p := Nat.ne_of_lt (Nat.lt_of_lt_of_le old above)
  cases taken with
  | sched taken =>
    cases taken with
    | idle =>
      simp only [setPc_log, printSummary_log]
      split <;> simp [unborn]
    | logShell here | logDemo here | logEnded here | logRequeue here =>
      have held := (inv.owned.held _ (by rw [here]; rfl)).1
      simp [unborn, born held]
    | _ => simp [unborn]
  | worker taken =>
    cases taken with
    | logCreated here =>
      have passed := (inv.owned.passed _ _ (by rw [here]; rfl)).1
      simp [unborn, born passed]
    | exit => simp [events] at unborn ⊢; exact unborn
    | _ => simp [unborn]
  | main taken => cases taken <;> simp [unborn]

structure LogsOk (s : State) : Prop where
  unborn : ∀ p, s.allocated ≤ p → events p s.log = []
  task : ∀ p < s.allocated, LogOk s p

theorem step_logs (ok : LogsOk s) (inv : Inv s) (met : logsInOrder s e = true) (taken : Step s e t) : LogsOk t where
  unborn p above :=
    have before := Nat.le_trans (step_allocated taken) above
    step_unborn inv taken before (ok.unborn p before)
  task p old := by
    cases taken with
    | sched taken => exact schedStep_log (ok.task p (taken.frame.allocated ▸ old)) inv met taken
    | main taken => exact mainStep_log (ok.task p (taken.frame.allocated ▸ old)) inv taken
    | @worker c a t taken =>
      rcases Nat.lt_or_ge p s.allocated with known | new
      · exact workerStep_log (ok.task p known) inv known taken
      · cases taken with
        | @create command =>
          obtain rfl : p = s.allocated := Nat.le_antisymm (Nat.le_of_lt_succ old) new
          exact logOk_create inv command (ok.unborn _ new)
        | _ => exact absurd (Nat.lt_of_lt_of_le old (by simpa using new)) (Nat.lt_irrefl p)

theorem run_logs (run : ServerRun (logsInOrder · ·) s) : LogsOk s :=
  run.invariant_of run_inv ⟨fun _ _ => rfl, fun p old => absurd old (Nat.not_lt_zero p)⟩
    fun inv _ ok met taken => step_logs ok inv met (step_cases taken)

/-- Where the scheduler waits with the start of a task for the line of its creation, the lines about
every task follow the pattern. -/
theorem run_log_ordered (run : ServerRun (logsInOrder · ·) s) (p : Ptr) (old : p < s.allocated) :
    ∃ word ∈ (eventPattern (s.task p).type).matches', events p s.log <+: word := by
  obtain ⟨φ, told⟩ := ((run_logs run).task p old).known
  exact told.completes

theorem run_log_ordered_demo : ∃ s, ServerRun (logsInOrder · ·) s ∧
    events 0 s.log = [.created, .started, .waiting, .running] ∧
    ∃ word ∈ (eventPattern (s.task 0).type).matches', events 0 s.log <+: word := by
  obtain ⟨s, run, seen⟩ := serverRun_by (logsInOrder · ·)
    (Event.connect 5 ++ Event.submit 1 "demo 4" ++ Event.schedule 29)
    (fun s => events 0 s.log = [.created, .started, .waiting, .running] ∧ 0 < s.allocated) (by decide +kernel)
  obtain ⟨logged, old⟩ := of_decide_eq_true seen
  exact ⟨s, run, logged, run_log_ordered run 0 old⟩

/-- The scheduler starts the task before its worker comes to log the creation. -/
theorem started_before_created : ¬ ∀ s, ServerRun Machine.always s → ∀ p < s.allocated,
    ∃ word ∈ (eventPattern (s.task p).type).matches', events p s.log <+: word := by
  intro claimed
  obtain ⟨s, run, seen⟩ := serverRun_by Machine.always
    (Event.connect 5 ++ Event.receive 1 "ls" ++ Event.schedule 7)
    (fun s => events 0 s.log = [.started] ∧ 0 < s.allocated) (by decide +kernel)
  obtain ⟨logged, old⟩ := of_decide_eq_true seen
  obtain ⟨word, member, ⟨rest, same⟩⟩ := claimed s run 0 old
  obtain ⟨rest', created⟩ := created_first member
  rw [logged, created] at same
  simp at same

end MyShell
