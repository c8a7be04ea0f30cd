import Mathlib.Data.Fintype.Order
import Mathlib.Data.Fin.Basic
import MyShell.Locks
import MyShell.Lib.Threads

/-! # Threads and mutexes

The calls of `scheduler.c` and `scheduler_queue.c` take `scheduler_mutex` before `queue_mutex` and that
before `g_log_mutex`. So threads that make them never wait for each other in a circle, unless one of
them waits for itself. -/

namespace MyShell

open Locking

def Mutex.rank : Mutex → Fin 3
  | .scheduler => 0
  | .queue => 1
  | .log => 2

def Locks.Made (calls : LockCall → Prop) (actions : Locks) : Prop :=
  actions = logPrintfLocked ∨ ∃ call, calls call ∧ call.locks = actions

/-- The functions that `scheduler_thread`, the workers and the accept loop call. -/
def LockCall.ofServer : LockCall → Prop
  | .schedulerInit | .peekBestTaskSjrf | .dequeueTaskById | .schedulerSetCurrentTask | .schedulerClearPreempt
  | .schedulerLogDecision _ _ | .schedulerUpdateTaskAfterExecution _ | .schedulerCheckPreempt | .schedulerAppendTrace
  | .enqueueTaskRequeue _ | .schedulerClearCurrentTask | .createTaskFromCommand _ | .enqueueTask _
  | .removeTasksForClient | .unlocked => True
  | _ => False

def LockCall.Waits : LockCall → Prop
  | .dequeueTask _ | .schedulerSelectNextTask _ => True
  | _ => False

variable {held : List Mutex} {actions more : Locks} {m : Mutex}

theorem nested_section (later : ∀ k ∈ held, k.rank < m.rank) : Nested Mutex.rank held (bracket m []) :=
  Nested.bracket later .nil

theorem nested_dequeueTask (later : ∀ k ∈ held, k.rank < Mutex.queue.rank) (waits : Nat) :
    Nested Mutex.rank held (Locks.dequeueTask waits) :=
  Nested.bracket later (Nested.flatMap fun _ _ => Nested.wait later)

theorem nested_locks {call : LockCall} (goesOn : ¬ call.Waits) : Nested Mutex.rank [] call.locks := by
  cases call with
  | unlocked => exact .nil
  | schedulerSelectNextTask | dequeueTask => exact absurd trivial goesOn
  | schedulerUpdateTaskAfterExecution task | enqueueTaskRequeue task =>
    cases task with
    | none => exact .nil
    | some => exact nested_section (by decide)
  | schedulerLogDecision event task =>
    simp only [LockCall.locks, Locks.schedulerLogDecision]
    split
    · exact .nil
    · exact nested_section (by decide)
  | schedulerPrintSummary => exact Nested.bracket (by decide) (nested_section (by decide))
  | createTaskFromCommand malloc =>
    cases malloc with
    | false => exact .nil
    | true => exact nested_section (by decide)
  | enqueueTask task =>
    simp only [LockCall.locks, Locks.enqueueTask]
    split
    · exact .nil
    · exact (nested_section (by decide)).append (nested_section (by decide))
  | printQueueSnapshot queue =>
    refine Nested.bracket (by decide) (((nested_section (by decide)).append ?_).append
      (Nested.flatMap fun _ _ => nested_section (by decide)))
    split
    · exact nested_section (by decide)
    · exact .nil
  | _ => exact nested_section (by decide)

theorem beforeNotify_ordered (drained : List (Ptr × Nat)) : Ordered Mutex.rank [] (Locks.beforeNotify drained) := by
  have inside : Nested Mutex.rank [.scheduler] (Locks.queueIsEmpty ++
      (drained.flatMap fun task => Locks.queueIsEmpty ++ Locks.dequeueTask task.2) ++
        Locks.queueIsEmpty ++ Locks.underQueue) := by
    refine (((nested_section (by decide)).append (Nested.flatMap fun task _ => ?_)).append
      (nested_section (by decide))).append (nested_section (by decide))
    exact (nested_section (by decide)).append (nested_dequeueTask (by decide) _)
  exact ⟨by decide, inside.ordered⟩

section Deadlock

variable {ι : Type} [DecidableEq ι] {calls : LockCall → Prop}

/-- A call that puts a drained task back blocks a thread that is alone, with `scheduler_mutex` held. -/
theorem select_blocks (i : ι) (task : Ptr × Nat) (drained : List (Ptr × Nat))
    (called : calls (.schedulerSelectNextTask (some (task :: drained)))) :
    ∃ s : Threads ι Mutex, Machine.Run Threads.step (Threads.Begins (Locks.Made calls)) {} s ∧ s.Stuck ∧
      s.rest i ≠ [] := by
  let select := Locks.schedulerSelectNextTask (some (task :: drained))
  let begun : Threads ι Mutex := { rest := Function.update (fun _ => []) i select }
  have first : Machine.Run Threads.step (Threads.Begins (Locks.Made calls)) {} begun :=
    .next (e := .enter i select) .refl (.inr ⟨_, called, rfl⟩) rfl
  have whole : begun.rest i = Locks.beforeNotify (task :: drained) ++ .lock .scheduler :: afterNotify drained := by
    rw [← select_split]
    simp [begun, select]
  obtain ⟨s, run, rest, owner⟩ :=
    Threads.run_alone (beforeNotify_ordered (task :: drained)) (fun _ => rfl) List.nodup_nil whole
  rw [(beforeNotify_clean _).2] at owner
  refine ⟨s, first.trans run, fun j => ?_, by simp [rest]⟩
  by_cases same : j = i
  · subst same
    simp [Threads.step, rest, owner]
  · simp [Threads.step, rest, same, begun]

/-- However many threads there are and however their calls interleave, they never wait for each other in a circle. -/
theorem threads_stuck (goesOn : ∀ call, calls call → ¬ call.Waits) {s : Threads ι Mutex}
    (run : Machine.Run Threads.step (Threads.Begins (Locks.Made calls)) {} s) (stuck : s.Stuck) :
    (∀ i, s.rest i = []) ∧ ∀ m, s.owner m = none := by
  have nested : ∀ actions, Locks.Made calls actions → Nested Mutex.rank [] actions := by
    rintro actions (rfl | ⟨call, called, rfl⟩)
    · exact nested_section (by decide)
    · exact nested_locks (goesOn call called)
  exact Threads.run_stuck nested run stuck

end Deadlock

theorem threads_stuck_server : (∀ call, LockCall.ofServer call → ¬ call.Waits) ∧
    ∀ s : Threads Nat Mutex, Machine.Run Threads.step (Threads.Begins (Locks.Made LockCall.ofServer)) {} s → s.Stuck →
      (∀ i, s.rest i = []) ∧ ∀ m, s.owner m = none := by
  have goesOn : ∀ call, LockCall.ofServer call → ¬ call.Waits := by
    intro call called
    cases call with
    | schedulerSelectNextTask | dequeueTask => exact absurd called id
    | _ => exact id
  exact ⟨goesOn, fun _ => threads_stuck goesOn⟩

end MyShell
