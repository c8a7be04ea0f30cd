import MyShell.Text

/-! # Tasks, and their creation from a command line; a pointer is the number of its allocation -/

namespace MyShell

abbrev Fd := Nat
abbrev ClientId := Nat
abbrev Ptr := Nat

inductive TaskType where
  | shell | demoProgram | unknownProgram
  deriving DecidableEq, Repr

structure Task where
  taskId : Int := 0
  clientId : ClientId := 0
  clientFd : Fd := 0
  command : CString := []
  type : TaskType := .shell
  burstTime : Int := 0
  remainingTime : Int := 0
  roundCount : Int := 0
  /-- first come first served among equals -/
  arrivalOrder : Int := 0
  bytesSent : Int := 0
  deriving DecidableEq, Repr

structure ClientContext where
  clientFd : Fd
  clientId : ClientId

def parseDemoCommand (command : CString) : Option Int :=
  let plain := scanWordInt "demo".toList command
  let path := scanWordInt "./demo".toList command
  let n := if plain.1 = 1 then plain.2 else path.2
  if (plain.1 = 1 ∨ path.1 = 1) ∧ n > 0 then some n else none

/-- The task for a command, with the two numbers drawn from the counters under `queue_mutex`. -/
def createTaskFromCommand (ctx : ClientContext) (taskId arrivalOrder : Int) (command : CString) : Task :=
  let task : Task :=
    { taskId, arrivalOrder
      clientId := ctx.clientId
      clientFd := ctx.clientFd
      command := command.take (BUFFER_SIZE - 1) }
  match parseDemoCommand command with
  | some n => { task with type := .demoProgram, burstTime := n, remainingTime := n }
  | none => { task with type := .shell, burstTime := -1, remainingTime := -1 }

theorem parseDemoCommand_pos {command : CString} {n : Int} (parsed : parseDemoCommand command = some n) :
    0 < n := by
  simp only [parseDemoCommand, Option.ite_none_right_eq_some, Option.some.injEq] at parsed
  obtain ⟨⟨_, positive⟩, same⟩ := parsed
  exact same ▸ positive

/-- What `create_task_from_command` and the scheduler's updates leave true of a task: it is a shell
command without a burst, or a demo with its remaining time within its burst. -/
inductive Task.WellFormed (task : Task) : Prop where
  | shell (type : task.type = .shell) (burst : task.burstTime = -1) (remaining : task.remainingTime = -1)
  | demo (type : task.type = .demoProgram) (burst : 0 < task.burstTime)
      (nonneg : 0 ≤ task.remainingTime) (bounded : task.remainingTime ≤ task.burstTime)

section Create
variable {ctx : ClientContext} {taskId arrivalOrder : Int} {command : CString}

@[simp] theorem create_taskId : (createTaskFromCommand ctx taskId arrivalOrder command).taskId = taskId := by
  unfold createTaskFromCommand; dsimp only; split <;> rfl

@[simp] theorem create_arrivalOrder :
    (createTaskFromCommand ctx taskId arrivalOrder command).arrivalOrder = arrivalOrder := by
  unfold createTaskFromCommand; dsimp only; split <;> rfl

@[simp] theorem create_clientId :
    (createTaskFromCommand ctx taskId arrivalOrder command).clientId = ctx.clientId := by
  unfold createTaskFromCommand; dsimp only; split <;> rfl

@[simp] theorem create_clientFd :
    (createTaskFromCommand ctx taskId arrivalOrder command).clientFd = ctx.clientFd := by
  unfold createTaskFromCommand; dsimp only; split <;> rfl

@[simp] theorem create_roundCount :
    (createTaskFromCommand ctx taskId arrivalOrder command).roundCount = 0 := by
  unfold createTaskFromCommand; dsimp only; split <;> rfl

@[simp] theorem create_bytesSent :
    (createTaskFromCommand ctx taskId arrivalOrder command).bytesSent = 0 := by
  unfold createTaskFromCommand; dsimp only; split <;> rfl

@[simp] theorem create_remaining :
    (createTaskFromCommand ctx taskId arrivalOrder command).remainingTime =
      (createTaskFromCommand ctx taskId arrivalOrder command).burstTime := by
  unfold createTaskFromCommand; dsimp only; split <;> rfl

theorem create_parsed (ctx : ClientContext) (taskId arrivalOrder : Int) (fits : command.length ≤ BUFFER_SIZE - 1) :
    (createTaskFromCommand ctx taskId arrivalOrder command).command = command ∧ parseDemoCommand command =
      if (createTaskFromCommand ctx taskId arrivalOrder command).type = .demoProgram then
        some (createTaskFromCommand ctx taskId arrivalOrder command).burstTime else none := by
  have whole := List.take_of_length_le fits
  unfold createTaskFromCommand
  dsimp only
  split
  · rename_i n parsed
    exact ⟨whole, parsed⟩
  · rename_i parsed
    exact ⟨whole, parsed⟩

theorem create_wellFormed : (createTaskFromCommand ctx taskId arrivalOrder command).WellFormed := by
  unfold createTaskFromCommand
  dsimp only
  split
  · rename_i n parsed
    have positive := parseDemoCommand_pos parsed
    exact .demo rfl positive (Int.le_of_lt positive) (Int.le_refl n)
  · exact .shell rfl rfl rfl

end Create

end MyShell
