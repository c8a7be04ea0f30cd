import MyShell.Scheduler
import MyShell.Lib.Locking

/-! # Mutexes

What every function of `scheduler.c` and `scheduler_queue.c` locks and unlocks, and what the handler
of SIGINT adds at the point where it runs. -/

namespace MyShell

open Locking

inductive Mutex where
  | scheduler | queue | log
  deriving DecidableEq, Repr

abbrev Locks := List (Action Mutex)

/-! ### server.c -/

def logPrintfLocked : Locks := bracket .log []

def handleSigint (traceEmpty : Bool) : Locks := if traceEmpty then [] else logPrintfLocked

namespace Locks

/-! ### scheduler.c and scheduler_queue.c -/

def underScheduler : Locks := bracket .scheduler []

def underQueue : Locks := bracket .queue []

def schedulerInit : Locks := underScheduler
def schedulerUpdateTaskAfterExecution (task : Option Ptr) : Locks := if task.isNone then [] else underScheduler

/-- The events with no line of their own write nothing. -/
def schedulerLogDecision (event : Option Decision) (task : Option Ptr) : Locks :=
  if task.isNone ∨ event.isNone then [] else logPrintfLocked

def schedulerPrintSummary : Locks := bracket .scheduler logPrintfLocked
def schedulerNotifyNewTask : Locks := underScheduler
def schedulerAppendTrace : Locks := underScheduler
def schedulerSetCurrentTask : Locks := underScheduler
def schedulerClearCurrentTask : Locks := underScheduler
def schedulerCheckPreempt : Locks := underScheduler
def schedulerClearPreempt : Locks := underScheduler
def schedulerAddQuantumConsumed : Locks := underScheduler

/-- The counters are drawn only when `malloc` succeeded. -/
def createTaskFromCommand (malloc : Bool) : Locks := if malloc then underQueue else []

def enqueueTask (task : Option Ptr) : Locks :=
  if task.isNone then [] else underQueue ++ schedulerNotifyNewTask

def enqueueTaskRequeue (task : Option Ptr) : Locks := if task.isNone then [] else underQueue

/-- `dequeue_task`, when it finds the queue empty so many times. -/
def dequeueTask (waits : Nat) : Locks :=
  bracket .queue ((List.range waits).flatMap fun _ => [.unlock .queue, .lock .queue])

def dequeueTaskById : Locks := underQueue
def peekBestTaskSjrf : Locks := underQueue
def removeTasksForClient : Locks := underQueue
def queueIsEmpty : Locks := underQueue

def printQueueSnapshot (queue : List Ptr) : Locks :=
  bracket .queue (logPrintfLocked ++ (if queue = [] then logPrintfLocked else []) ++
    queue.flatMap fun _ => logPrintfLocked)

/-- What `scheduler_select_next_task` finds: an empty queue, or the tasks it drains, each with the
number of times that `dequeue_task` waits for it. -/
abbrev Found := Option (List (Ptr × Nat))

/-- `scheduler_select_next_task` up to where it has put a task back and notifies the scheduler of it. -/
def beforeNotify (drained : List (Ptr × Nat)) : Locks :=
  .lock .scheduler :: queueIsEmpty ++ (drained.flatMap fun task => queueIsEmpty ++ dequeueTask task.2) ++
    queueIsEmpty ++ underQueue

def schedulerSelectNextTask (found : Found) : Locks :=
  bracket .scheduler (queueIsEmpty ++
    match found with
    | none => []
    | some drained =>
      (drained.flatMap fun task => queueIsEmpty ++ dequeueTask task.2) ++ queueIsEmpty ++
        drained.flatMap fun task => enqueueTask (some task.1))

end Locks

/-! ### Calls -/

/-- A call of an exported function, with what it finds in the queue while it runs. The functions that
touch no mutex are `unlocked`. -/
inductive LockCall where
  | unlocked
  | schedulerInit
  | schedulerSelectNextTask (found : Locks.Found)
  | schedulerUpdateTaskAfterExecution (task : Option Ptr)
  | schedulerLogDecision (event : Option Decision) (task : Option Ptr)
  | schedulerPrintSummary | schedulerNotifyNewTask | schedulerAppendTrace
  | schedulerSetCurrentTask | schedulerClearCurrentTask
  | schedulerCheckPreempt | schedulerClearPreempt | schedulerAddQuantumConsumed
  | createTaskFromCommand (malloc : Bool)
  | enqueueTask (task : Option Ptr) | enqueueTaskRequeue (task : Option Ptr)
  | dequeueTask (waits : Nat) | dequeueTaskById | peekBestTaskSjrf | removeTasksForClient
  | queueIsEmpty | printQueueSnapshot (queue : List Ptr)

def LockCall.locks : LockCall → Locks
  | .unlocked => []
  | .schedulerInit => Locks.schedulerInit
  | .schedulerSelectNextTask found => Locks.schedulerSelectNextTask found
  | .schedulerUpdateTaskAfterExecution task => Locks.schedulerUpdateTaskAfterExecution task
  | .schedulerLogDecision event task => Locks.schedulerLogDecision event task
  | .schedulerPrintSummary => Locks.schedulerPrintSummary
  | .schedulerNotifyNewTask => Locks.schedulerNotifyNewTask
  | .schedulerAppendTrace => Locks.schedulerAppendTrace
  | .schedulerSetCurrentTask => Locks.schedulerSetCurrentTask
  | .schedulerClearCurrentTask => Locks.schedulerClearCurrentTask
  | .schedulerCheckPreempt => Locks.schedulerCheckPreempt
  | .schedulerClearPreempt => Locks.schedulerClearPreempt
  | .schedulerAddQuantumConsumed => Locks.schedulerAddQuantumConsumed
  | .createTaskFromCommand malloc => Locks.createTaskFromCommand malloc
  | .enqueueTask task => Locks.enqueueTask task
  | .enqueueTaskRequeue task => Locks.enqueueTaskRequeue task
  | .dequeueTask waits => Locks.dequeueTask waits
  | .dequeueTaskById => Locks.dequeueTaskById
  | .peekBestTaskSjrf => Locks.peekBestTaskSjrf
  | .removeTasksForClient => Locks.removeTasksForClient
  | .queueIsEmpty => Locks.queueIsEmpty
  | .printQueueSnapshot queue => Locks.printQueueSnapshot queue

abbrev Signal := Option (Nat × Bool)

/-- What the thread does in a call, up to the end of the process when a signal arrives. -/
def LockCall.steps (call : LockCall) : Signal → Locks
  | none => call.locks
  | some (point, traceEmpty) => call.locks.take point ++ handleSigint traceEmpty

/-- `scheduler_select_next_task` has drained a task and comes to notify the scheduler of it. -/
def LockCall.NotifiesItself (call : LockCall) (signal : Signal) : Prop :=
  match call, signal with
  | .schedulerSelectNextTask (some (_ :: _)), none => True
  | .schedulerSelectNextTask (some (task :: drained)), some (point, _) =>
    (Locks.beforeNotify (task :: drained)).length < point
  | _, _ => False

/-- The signal reaches the thread inside `log_printf_locked`, and there is a trace to print. -/
def LockCall.InterruptsLog (call : LockCall) (signal : Signal) : Prop :=
  match signal with
  | some (point, false) => (call.locks.take point).getLast? = some (.lock .log)
  | _ => False

/-! ### The log mutex -/

inductive Paired : Locks → Prop where
  | nil : Paired []
  | log {rest} (paired : Paired rest) : Paired (.lock .log :: .unlock .log :: rest)
  | other {action rest} (noLock : action ≠ .lock .log) (noUnlock : action ≠ .unlock .log)
      (paired : Paired rest) : Paired (action :: rest)

variable {held : List Mutex} {actions more : Locks} {m : Mutex}

theorem Paired.append (first : Paired actions) (second : Paired more) : Paired (actions ++ more) := by
  induction first with
  | nil => exact second
  | log _ ih => exact .log ih
  | other noLock noUnlock _ ih => exact .other noLock noUnlock ih

theorem Paired.bracket (different : m ≠ .log) (inside : Paired actions) : Paired (bracket m actions) := by
  refine .other (by simpa using different) (by simp) (inside.append ?_)
  exact .other (by simp) (by simpa using different) .nil

theorem Paired.flatMap {α : Type} {list : List α} {f : α → Locks} (each : ∀ x, Paired (f x)) :
    Paired (list.flatMap f) := by
  induction list with
  | nil => exact .nil
  | cons x list ih => exact (each x).append ih

theorem paired_logPrintf : Paired logPrintfLocked := .log .nil

theorem Paired.held_log (paired : Paired actions) (free : .log ∉ held) (k : Nat) :
    .log ∈ after held (actions.take k) ↔ (actions.take k).getLast? = some (.lock .log) := by
  induction paired generalizing held k with
  | nil => simpa [after] using free
  | @log rest _ ih =>
    rcases k with _ | _ | k
    · simpa [after] using free
    · simp [after]
    · have unlocked : (Mutex.log :: held).erase .log = held := by simp
      simp only [List.take_succ_cons, after, unlocked, ih free k]
      cases rest.take k <;> simp [List.getLast?_cons]
  | @other action rest noLock noUnlock _ ih =>
    cases k with
    | zero => simpa [after] using free
    | succ k =>
      cases action with
      | lock m =>
        have different : m ≠ .log := fun same => noLock (same ▸ rfl)
        have still : Mutex.log ∉ m :: held := by simp [free, different.symm]
        simp only [List.take_succ_cons, after, ih still k]
        cases rest.take k <;> simp [List.getLast?_cons, different]
      | unlock m =>
        have still : Mutex.log ∉ held.erase m := fun member => free (List.mem_of_mem_erase member)
        simp only [List.take_succ_cons, after, ih still k]
        cases rest.take k <;> simp [List.getLast?_cons]

/-! ### The calls -/

theorem keeps_section (free : m ∉ held) : Keeps held (bracket m []) := Keeps.bracket free .nil

theorem keeps_dequeueTask (free : .queue ∉ held) (waits : Nat) : Keeps held (Locks.dequeueTask waits) :=
  Keeps.bracket free (Keeps.flatMap fun _ _ => Keeps.wait free)

theorem paired_section (different : m ≠ .log) : Paired (bracket m []) := Paired.bracket different .nil

theorem paired_dequeueTask (waits : Nat) : Paired (Locks.dequeueTask waits) :=
  Paired.bracket (by decide) (Paired.flatMap fun _ =>
    .other (by simp) (by simp) (.other (by simp) (by simp) .nil))

theorem paired_enqueueTask (task : Option Ptr) : Paired (Locks.enqueueTask task) := by
  unfold Locks.enqueueTask
  split
  · exact .nil
  · exact (paired_section (by decide)).append (paired_section (by decide))

theorem paired_locks (call : LockCall) : Paired call.locks := by
  cases call with
  | unlocked => exact .nil
  | schedulerSelectNextTask found =>
    refine Paired.bracket (by decide) ((paired_section (by decide)).append ?_)
    cases found with
    | none => exact .nil
    | some drained =>
      refine ((Paired.flatMap fun task => ?_).append (paired_section (by decide))).append
        (Paired.flatMap fun task => paired_enqueueTask _)
      exact (paired_section (by decide)).append (paired_dequeueTask _)
  | schedulerUpdateTaskAfterExecution task | enqueueTaskRequeue task =>
    cases task with
    | none => exact .nil
    | some => exact paired_section (by decide)
  | schedulerLogDecision event task =>
    simp only [LockCall.locks, Locks.schedulerLogDecision]
    split
    · exact .nil
    · exact paired_logPrintf
  | schedulerPrintSummary => exact Paired.bracket (by decide) paired_logPrintf
  | createTaskFromCommand malloc =>
    cases malloc with
    | false => exact .nil
    | true => exact paired_section (by decide)
  | enqueueTask task => exact paired_enqueueTask task
  | dequeueTask waits => exact paired_dequeueTask waits
  | printQueueSnapshot queue =>
    refine Paired.bracket (by decide) ((paired_logPrintf.append ?_).append (Paired.flatMap fun _ => paired_logPrintf))
    split
    · exact paired_logPrintf
    · exact .nil
  | _ => exact paired_section (by decide)

theorem keeps_locks {call : LockCall} (quiet : ¬ call.NotifiesItself none) : Keeps [] call.locks := by
  cases call with
  | unlocked => exact .nil
  | schedulerSelectNextTask found =>
    refine Keeps.bracket (by decide) ((keeps_section (by decide)).append ?_)
    cases found with
    | none => exact .nil
    | some drained =>
      cases drained with
      | nil => exact (keeps_section (by decide)).append .nil
      | cons => exact absurd trivial quiet
  | schedulerUpdateTaskAfterExecution task | enqueueTaskRequeue task =>
    cases task with
    | none => exact .nil
    | some => exact keeps_section (by decide)
  | schedulerLogDecision event task =>
    simp only [LockCall.locks, Locks.schedulerLogDecision]
    split
    · exact .nil
    · exact keeps_section (by decide)
  | schedulerPrintSummary => exact Keeps.bracket (by decide) (keeps_section (by decide))
  | createTaskFromCommand malloc =>
    cases malloc with
    | false => exact .nil
    | true => exact keeps_section (by decide)
  | enqueueTask task =>
    simp only [LockCall.locks, Locks.enqueueTask]
    split
    · exact .nil
    · exact (keeps_section (by decide)).append (keeps_section (by decide))
  | dequeueTask waits => exact keeps_dequeueTask (by decide) waits
  | printQueueSnapshot queue =>
    refine Keeps.bracket (by decide) (((keeps_section (by decide)).append ?_).append
      (Keeps.flatMap fun _ _ => keeps_section (by decide)))
    split
    · exact keeps_section (by decide)
    · exact .nil
  | _ => exact keeps_section (by decide)

/-! ### scheduler_select_next_task -/

def afterNotify (drained : List (Ptr × Nat)) : Locks :=
  .unlock .scheduler :: (drained.flatMap fun task => Locks.enqueueTask (some task.1)) ++ [.unlock .scheduler]

theorem select_split (task : Ptr × Nat) (drained : List (Ptr × Nat)) :
    Locks.schedulerSelectNextTask (some (task :: drained)) =
      Locks.beforeNotify (task :: drained) ++ .lock .scheduler :: afterNotify drained := by
  simp [Locks.schedulerSelectNextTask, Locks.beforeNotify, afterNotify, bracket, Locks.enqueueTask,
    Locks.schedulerNotifyNewTask, Locks.underScheduler]

theorem beforeNotify_clean (drained : List (Ptr × Nat)) :
    Clean [] (Locks.beforeNotify drained) ∧ after [] (Locks.beforeNotify drained) = [.scheduler] := by
  have inside : Keeps [Mutex.scheduler] (Locks.queueIsEmpty ++
      (drained.flatMap fun task => Locks.queueIsEmpty ++ Locks.dequeueTask task.2) ++
        Locks.queueIsEmpty ++ Locks.underQueue) := by
    refine (((keeps_section (by decide)).append (Keeps.flatMap fun task _ => ?_)).append
      (keeps_section (by decide))).append (keeps_section (by decide))
    exact (keeps_section (by decide)).append (keeps_dequeueTask (by decide) _)
  exact ⟨⟨List.not_mem_nil, inside.clean⟩, inside.after⟩

/-- Up to the notification of a drained task the function is clean, with it no longer. -/
theorem select_clean_iff (task : Ptr × Nat) (drained : List (Ptr × Nat)) (k : Nat) :
    Clean [] ((Locks.schedulerSelectNextTask (some (task :: drained))).take k) ↔
      k ≤ (Locks.beforeNotify (task :: drained)).length := by
  obtain ⟨clean, holds⟩ := beforeNotify_clean (task :: drained)
  rw [select_split]
  constructor
  · intro cleanTake
    by_contra late
    have more : k = (Locks.beforeNotify (task :: drained)).length +
        (k - (Locks.beforeNotify (task :: drained)).length - 1 + 1) := by omega
    rw [more, List.take_length_add_append, List.take_succ_cons, clean_append, holds] at cleanTake
    exact cleanTake.2.1 (List.mem_cons_self ..)
  · intro early
    rw [List.take_append_of_le_length early]
    exact clean.take k

theorem handleSigint_clean (traceEmpty : Bool) :
    Clean held (handleSigint traceEmpty) ↔ ¬(traceEmpty = false ∧ .log ∈ held) := by
  cases traceEmpty <;> simp [handleSigint, logPrintfLocked, bracket, Clean]

theorem take_clean_iff (call : LockCall) (point : Nat) (traceEmpty : Bool) :
    Clean [] (call.locks.take point) ↔ ¬ call.NotifiesItself (some (point, traceEmpty)) := by
  by_cases quiet : call.NotifiesItself none
  · cases call with
    | schedulerSelectNextTask found =>
      rcases found with _ | _ | ⟨task, drained⟩
      · cases quiet
      · cases quiet
      · rw [LockCall.locks, select_clean_iff]
        exact Nat.not_lt.symm
    | _ => cases quiet
  · refine iff_of_true ((keeps_locks quiet).clean.take point) ?_
    cases call with
    | schedulerSelectNextTask found =>
      rcases found with _ | _ | ⟨task, drained⟩
      · exact id
      · exact id
      · exact absurd trivial quiet
    | _ => exact id

/-- A thread locks no mutex that it holds, in a call of an exported function and in the handler that
may interrupt it, exactly when `scheduler_select_next_task` does not come to notify the scheduler of a
task that it drained, and no signal with a trace to print arrives inside `log_printf_locked`. -/
theorem steps_clean_iff (call : LockCall) (signal : Signal) :
    Clean [] (call.steps signal) ↔ ¬ call.NotifiesItself signal ∧ ¬ call.InterruptsLog signal := by
  rcases signal with _ | ⟨point, traceEmpty⟩
  · by_cases quiet : call.NotifiesItself none
    · cases call with
      | schedulerSelectNextTask found =>
        rcases found with _ | _ | ⟨task, drained⟩
        · cases quiet
        · cases quiet
        · refine iff_of_false (fun clean => ?_) fun both => both.1 trivial
          have early := (select_clean_iff task drained _).mp
            (clean.take ((Locks.beforeNotify (task :: drained)).length + 1))
          exact absurd early (Nat.not_succ_le_self _)
      | _ => cases quiet
    · exact iff_of_true (keeps_locks quiet).clean ⟨quiet, id⟩
  · rw [LockCall.steps, clean_append, take_clean_iff call point traceEmpty, handleSigint_clean,
      (paired_locks call).held_log List.not_mem_nil]
    cases traceEmpty <;> simp [LockCall.InterruptsLog]

/-- With one task in the queue `scheduler_select_next_task` locks `scheduler_mutex` twice. -/
theorem select_relocks : ¬ ∀ (call : LockCall) (signal : Signal), Clean [] (call.steps signal) := by
  intro clean
  have select := clean (.schedulerSelectNextTask (some [(0, 0)])) none
  exact absurd select (by decide)

example : ¬ Clean [] (LockCall.schedulerPrintSummary.steps (some (2, false))) := by decide

end MyShell
