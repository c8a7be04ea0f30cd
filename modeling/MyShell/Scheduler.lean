import MyShell.Queue

/-! # The variables of `scheduler.c`, and the decisions that rest on them alone -/

namespace MyShell

structure SchedulerState where
  currentTask : Option Ptr := none
  quantumConsumed : Int := 0
  roundNumber : Int := 0
  quantumSize : Int := 0
  lastSelectedTaskId : Int := 0
  totalCompleted : Int := 0
  totalTimeUsed : Int := 0

inductive Decision where
  | created | started | waiting | running | ended | preempted
  deriving DecidableEq, Repr

/-- Whether a new task preempts the running one; `none` is the null pointer. -/
def schedulerShouldPreempt (newTask currentTask : Option Task) : Bool :=
  match currentTask with
  | none => false
  | some current =>
    if current.type = .shell then false
    else
      match newTask with
      | none => false
      | some new => if new.type = .shell then true else decide (new.remainingTime < current.remainingTime)

/-- `scheduler_update_task_after_execution` on the task: its new remaining time. -/
def remainingAfter (remaining timeUsed : Int) : Int :=
  if remaining > 0 then
    if remaining - timeUsed < 0 then 0 else remaining - timeUsed
  else remaining

def schedulerAppendTrace (trace : CString) (taskId secondsRun : Int) : CString :=
  if trace.length + 32 < 4096 then
    (if trace.length ≠ 0 then trace ++ "-".toList else trace) ++
      ("P".toList ++ decimal taskId ++ "-(".toList ++ decimal secondsRun ++ ")".toList)
  else trace

def demoLine (iteration burst : Int) : CString :=
  "Demo ".toList ++ decimal iteration ++ "/".toList ++ decimal burst ++ "\n".toList

theorem shouldPreempt_of_less {new current current' : Task} (type : current.type = current'.type)
    (less : current'.remainingTime ≤ current.remainingTime)
    (preempts : schedulerShouldPreempt (some new) (some current') = true) :
    schedulerShouldPreempt (some new) (some current) = true := by
  simp only [schedulerShouldPreempt, type] at preempts ⊢
  split at preempts
  · cases preempts
  · split at preempts
    · simp_all
    · have shorter := of_decide_eq_true preempts
      simp_all
      omega

theorem remainingAfter_one {remaining : Int} (nonneg : 0 ≤ remaining) :
    remainingAfter remaining 1 = max 0 (remaining - 1) := by
  unfold remainingAfter
  split
  · split <;> omega
  · omega

end MyShell
