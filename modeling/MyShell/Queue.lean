import MyShell.Task

/-! # The task queue: its pointers from the head on, where `mem` reads the task at a pointer -/

namespace MyShell

variable (mem : Ptr → Task)

structure Selection where
  shortestTime : Int := INT_MAX
  selected : Option Ptr := none

def selectStep (lastSelectedTaskId : Int) (demoCount : Nat) (acc : Selection) (curr : Ptr) : Selection :=
  if (mem curr).type = .demoProgram then
    -- the previously selected task is passed over only when another demo exists
    if (mem curr).taskId = lastSelectedTaskId ∧ demoCount > 1 then acc
    else
      match acc.selected with
      | none => ⟨(mem curr).remainingTime, some curr⟩
      | some selected =>
        if (mem curr).remainingTime < acc.shortestTime ∨
            ((mem curr).remainingTime = acc.shortestTime ∧
              (mem curr).arrivalOrder < (mem selected).arrivalOrder) then
          ⟨(mem curr).remainingTime, some curr⟩
        else acc
  else acc

/-- Shell commands come before demos, and demos by their remaining time. -/
def peekBestTaskSjrf (queue : List Ptr) (lastSelectedTaskId : Int) : Option Ptr :=
  match queue.find? fun curr => (mem curr).type = .shell ∧ (mem curr).burstTime = -1 with
  | some selected => some selected
  | none =>
    let demoCount := queue.countP fun curr => (mem curr).type = .demoProgram
    (queue.foldl (selectStep mem lastSelectedTaskId demoCount) {}).selected

def dequeueTaskById (taskId : Int) : List Ptr → Option (Ptr × List Ptr)
  | [] => none
  | curr :: rest =>
    if (mem curr).taskId = taskId then some (curr, rest)
    else (dequeueTaskById taskId rest).map fun found => (found.1, curr :: found.2)

def removeTasksForClient (clientId : ClientId) (queue : List Ptr) : List Ptr :=
  queue.filter fun curr => (mem curr).clientId ≠ clientId

def tasksOfClient (clientId : ClientId) (queue : List Ptr) : List Ptr :=
  queue.filter fun curr => (mem curr).clientId = clientId

variable {mem} {queue rest : List Ptr} {taskId : Int} {t : Ptr}

theorem dequeue_split (found : dequeueTaskById mem taskId queue = some (t, rest)) :
    (mem t).taskId = taskId ∧ ∃ before after, queue = before ++ t :: after ∧ rest = before ++ after := by
  induction queue generalizing rest with
  | nil => cases found
  | cons curr queue ih =>
    unfold dequeueTaskById at found
    split at found
    · rename_i matched
      cases found
      exact ⟨matched, [], _, rfl, rfl⟩
    · obtain ⟨⟨t', rest'⟩, removed, same⟩ := Option.map_eq_some_iff.mp found
      cases same
      obtain ⟨matched, before, after, split, joined⟩ := ih removed
      exact ⟨matched, curr :: before, after, by simp [split], by simp [joined]⟩

theorem dequeue_perm (found : dequeueTaskById mem taskId queue = some (t, rest)) :
    (t :: rest).Perm queue := by
  obtain ⟨_, before, after, rfl, rfl⟩ := dequeue_split found
  exact List.perm_middle.symm

theorem dequeue_mem (found : dequeueTaskById mem taskId queue = some (t, rest)) (p : Ptr) :
    p ∈ queue ↔ p = t ∨ p ∈ rest := by
  rw [← (dequeue_perm found).mem_iff, List.mem_cons]

end MyShell
