import MyShell.Server.State

/-! # The steps of the server

`schedStep` is `scheduler_thread`, `workerStep` is `client_worker_thread` with
`handle_client_session`, and `mainStep` is the accept loop of `main`: one step for every section
under a mutex and for every statement between them. -/

namespace MyShell

/-- What the operating system answers to the call that a step makes. A step looks only at the
answer to its own call. -/
structure Answer where
  /-- `pipe`: the numbers of the read and the write end -/
  pipe : Option (Fd × Fd) := none
  fork : Bool := true
  /-- `read` and `recv`: `none` on an error, no byte at the end -/
  read : Option CString := some []
  sent : Sent := .all
  /-- `accept`: the number that it reserves before it waits, and whether a connection comes -/
  accept : Option Fd := none
  connected : Bool := true
  malloc : Bool := true
  thread : Bool := true

inductive Event where
  | sched (a : Answer)
  | worker (c : ClientId) (a : Answer)
  | main (a : Answer)

namespace State

variable (s : State)

/-! ### scheduler.c -/

@[simp] def schedulerInit : State :=
  ((s.modifySched fun _ => { roundNumber := 1, quantumSize := 3, lastSelectedTaskId := -1 }).setFlag
    false (-1)).setTrace []

@[simp] def schedulerSetCurrentTask (t : Ptr) : State := s.modifySched ({ · with currentTask := some t })
@[simp] def schedulerClearCurrentTask : State := s.modifySched ({ · with currentTask := none })
def schedulerCheckPreempt : Bool := s.preemptFlag
@[simp] def schedulerClearPreempt : State := s.setFlag false (-1)

@[simp] def schedulerLogDecision (event : Decision) (t : Ptr) : State :=
  s.addLog (.decision event (s.task t).clientId
    (if event = .created then (s.task t).burstTime else (s.task t).remainingTime) t)

@[simp] def schedulerUpdateTaskAfterExecution (t : Ptr) (timeUsed : Int) : State :=
  (s.modifyTask t fun task => { task with remainingTime := remainingAfter task.remainingTime timeUsed }).modifySched
    fun sched => { sched with
      totalTimeUsed := sched.totalTimeUsed + (if (s.task t).remainingTime > 0 then timeUsed else 0) }

def schedulerNotifyNewTask (t : Ptr) : State :=
  if schedulerShouldPreempt (some (s.task t)) (s.sched.currentTask.map s.task) then
    s.setFlag true (s.task t).taskId
  else s.setFlag s.preemptFlag s.preemptingTaskId

/-! ### scheduler_queue.c -/

/-- `peek_best_task_sjrf` leaves the queue alone; history keeps what it saw. -/
@[simps -fullyApplied] def recordPeek : State := { s with peeked := s.queue.map s.task, arrivals := [] }

@[simps -fullyApplied] def enqueueTask (t : Ptr) : State :=
  { s with
    queue := s.queue ++ [t]
    status := Function.update s.status t .queued
    arrivals := s.arrivals ++ [t] }

@[simp] def enqueueTaskRequeue (t : Ptr) : State :=
  ((s.setQueue (s.queue ++ [t])).setStatus t .queued).onDispatch fun d => { d with requeues := d.requeues + 1 }

/-- `dequeue_task_by_id` has removed the task `t`: a dispatch begins. -/
@[simps -fullyApplied] def dequeued (t : Ptr) (rest : List Ptr) : State :=
  { s with
    queue := rest
    status := Function.update s.status t .held
    dispatches := { task := t, picked := s.task t, queue := s.peeked } :: s.dispatches }

@[simps -fullyApplied] def removeTasksForClient (c : ClientId) : State :=
  { s with
    queue := MyShell.removeTasksForClient s.task c s.queue
    status := fun p => if p ∈ tasksOfClient s.task c s.queue then .released else s.status p }

/-- `create_task_from_command`, with its section under `queue_mutex`. -/
@[simps -fullyApplied] def createTask (c : ClientId) (command : CString) : State :=
  { s with
    nextTaskId := s.nextTaskId + 1
    nextArrivalOrder := s.nextArrivalOrder + 1
    allocated := s.allocated + 1
    task := Function.update s.task s.allocated
      (createTaskFromCommand (s.context c) s.nextTaskId s.nextArrivalOrder command)
    status := Function.update s.status s.allocated .created
    jobs := Function.update s.jobs c (s.jobs c ++ [.task s.allocated]) }

/-! ### server.c -/

/-- The idle branch of `scheduler_thread`. -/
@[simps -fullyApplied] def printSummary : State :=
  { s with
    log := if s.sched.totalCompleted > s.lastPrintedTotal ∧ s.trace ≠ [] then s.log ++ [.trace s.trace] else s.log
    lastPrintedTotal := if s.sched.totalCompleted > s.lastPrintedTotal then s.sched.totalCompleted
      else s.lastPrintedTotal }

@[simp] def sendForTask (t : Ptr) (endMarker : Bool) (data : CString) (sent : Sent) : State :=
  s.addWrite (s.task t).clientId (some t) (s.task t).clientFd endMarker data sent

/-- Output of a task, counted in `bytes_sent` when the whole of it was accepted. -/
@[simp] def sendOutput (t : Ptr) (data : CString) (sent : Sent) : State :=
  (s.sendForTask t false data sent).modifyTask t fun task =>
    { task with bytesSent := if sent = .all then toInt (task.bytesSent + data.length) else task.bytesSent }

@[simp] def sendForWorker (c : ClientId) (endMarker : Bool) (data : CString) (sent : Sent) : State :=
  s.addWrite c none (s.context c).clientFd endMarker data sent

@[simps -fullyApplied] def refuse (c : ClientId) : State :=
  { s with jobs := Function.update s.jobs c (s.jobs c ++ [.refused]) }

@[simps -fullyApplied] def acceptConnection (fd : Fd) : State :=
  { s with fds := Function.update s.fds fd (some (.conn s.nextConn)), nextConn := s.nextConn + 1 }

@[simps -fullyApplied] def addClient (fd : Fd) (k : ConnId) : State :=
  { s with
    nextClientId := s.nextClientId + 1
    context := Function.update s.context s.nextClientId ⟨fd, s.nextClientId⟩
    conn := Function.update s.conn s.nextClientId k
    log := s.log ++ [.connected s.nextClientId] }

end State

def refusal : CString := "Error: could not create task\n".toList

/-- The command in what `recv` returned: the text up to a newline or a NUL. -/
def commandOf (chunk : CString) : CString := chunk.takeWhile fun c => c ≠ '\n' ∧ c ≠ NUL

def afterUpdate (r : Round) (done : Bool) : SchedPc :=
  if done then .appendTrace r .completed else .check r

def afterCheck (r : Round) (preempted : Bool) : SchedPc :=
  if preempted then .appendTrace r .preempted
  else if r.q + 1 < r.quantum then .slice { r with q := r.q + 1 }
  else .appendTrace r .expired

def afterQuantum (t : Ptr) : Outcome → SchedPc
  | .completed => .sendMarker t .demoDone
  | o => .logRequeue t o

def afterCurrent (t : Ptr) : Ending → SchedPc
  | .shellDone | .shellFailed => .peek
  | e => .clearFlag t e

def schedStep (s : State) (a : Answer) : Option State :=
  match s.pc with
  | .init => some (s.schedulerInit.setPc .peek)
  | .peek =>
    match peekBestTaskSjrf s.task s.queue s.sched.lastSelectedTaskId with
    | none => some (s.recordPeek.setPc .idle)
    | some t => some (s.recordPeek.setPc (.readId t))
  | .idle => some (s.printSummary.setPc .peek)
  | .readId t => some (s.setPc (.dequeue t (s.task t).taskId))
  | .dequeue t id =>
    match dequeueTaskById s.task id s.queue with
    | none => some (s.setPc .peek)
    | some (removed, rest) => some ((s.dequeued removed rest).setPc (.setCurrent t))
  | .setCurrent t => some ((s.schedulerSetCurrentTask t).setPc (.clearPreempt t))
  | .clearPreempt t => some (s.schedulerClearPreempt.setPc (.logStart t))
  | .logStart t =>
    let first := (s.task t).roundCount = 0
    let s' := s.schedulerLogDecision (if first then .started else .running) t
    if (s.task t).type = .shell then some (s'.setPc (.pipe t))
    else some (s'.setPc (.slice ⟨t, 0, if first then 3 else 7, s.sched.totalTimeUsed⟩))
  -- scheduler_execute_task on a shell command
  | .pipe t =>
    match a.pipe with
    | none => some ((s.onDispatch ({ · with spawned := false })).setPc (.clearCurrent t .shellFailed))
    | some (r, w) =>
      if lowestFree s.fds r ∧ lowestFree (Function.update s.fds r (some .pipe)) w then
        some (((s.setFd r (some .pipe)).setFd w (some .pipe)).setPc (.fork t r w))
      else none
  | .fork t r w =>
    if a.fork then some (s.setPc (.closeWrite t r w))
    else
      some ((((s.setFd r none).setFd w none).onDispatch ({ · with spawned := false })).setPc
        (.clearCurrent t .shellFailed))
  | .closeWrite t r w => some ((s.setFd w none).setPc (.relay t r))
  | .relay t r =>
    match a.read with
    | none => some (s.setPc (.closeRead t r))
    | some chunk =>
      if chunk = [] then some (s.setPc (.closeRead t r))
      else if chunk.length ≤ BUFFER_SIZE ∧ canSend (s.fds (s.task t).clientFd) chunk a.sent then
        some (s.sendOutput t chunk a.sent)
      else none
  | .closeRead t r => some ((s.setFd r none).setPc (.sendMarker t .shellDone))
  -- the quantum loop on a demo
  | .slice r =>
    if (s.task r.task).type = .demoProgram then
      let line := demoLine ((s.task r.task).burstTime - (s.task r.task).remainingTime) (s.task r.task).burstTime
      if canSend (s.fds (s.task r.task).clientFd) line a.sent then
        some ((s.sendOutput r.task line a.sent).setPc (.update r ((s.task r.task).remainingTime = 0)))
      else none
    else some (s.setPc (.update r false))
  | .update r done =>
    some (((s.schedulerUpdateTaskAfterExecution r.task 1).onDispatch fun d =>
      { d with units := d.units + (if (s.task r.task).remainingTime > 0 then 1 else 0) }).setPc
        (afterUpdate r done))
  | .check r => some (s.setPc (afterCheck r s.schedulerCheckPreempt))
  | .appendTrace r o =>
    let s' :=
      if s.sched.totalTimeUsed > r.timeBeforeRun then
        s.setTrace (schedulerAppendTrace s.trace (s.task r.task).clientId s.sched.totalTimeUsed)
      else s
    some (s'.setPc (.countRound r.task o))
  | .countRound t o =>
    some ((s.modifyTask t fun task => { task with roundCount := task.roundCount + 1 }).setPc (afterQuantum t o))
  -- the end of a completed task, of a shell command or a demo alike
  | .sendMarker t e =>
    if canSend (s.fds (s.task t).clientFd) END_MARKER a.sent then
      some (((s.sendForTask t true END_MARKER a.sent).onDispatch fun d =>
        { d with endMarkers := d.endMarkers + 1 }).setPc (.logBytes t e))
    else none
  | .logBytes t e => some ((s.addLog (.bytesSent (s.task t).clientId (s.task t).bytesSent)).setPc (.logEnded t e))
  | .logEnded t e => some ((s.schedulerLogDecision .ended t).setPc (.complete t e))
  | .complete t e =>
    some (((s.modifySched fun sched =>
      { sched with totalCompleted := sched.totalCompleted + 1, lastSelectedTaskId := -1 }).onDispatch fun d =>
        { d with completions := d.completions + 1 }).setPc (.release t e))
  | .release t e =>
    some (((s.setStatus t .released).onDispatch fun d => { d with releases := d.releases + 1 }).setPc
      (.clearCurrent t e))
  -- the end of a demo that goes on later
  | .logRequeue t o =>
    some ((s.schedulerLogDecision (if o = .preempted then .preempted else .waiting) t).setPc (.setLast t))
  | .setLast t =>
    some ((s.modifySched ({ · with lastSelectedTaskId := (s.task t).taskId })).setPc (.requeue t))
  | .requeue t => some ((s.enqueueTaskRequeue t).setPc (.clearCurrent t .demoRequeued))
  | .clearCurrent t e =>
    let s' := s.schedulerClearCurrentTask.setPc (afterCurrent t e)
    some (if afterCurrent t e = .peek then s'.onDispatch ({ · with finished := true }) else s')
  | .clearFlag _ _ => some ((s.schedulerClearPreempt.onDispatch ({ · with finished := true })).setPc .peek)

def workerStep (s : State) (c : ClientId) (a : Answer) : Option State :=
  match s.worker c with
  | .absent | .done => none
  | .recv =>
    match a.read with
    | none => some (s.setWorker c .remove)
    | some chunk =>
      if chunk = [] then some (s.setWorker c .remove)
      else if chunk.length ≤ BUFFER_SIZE - 1 then some (s.setWorker c (.logCommand (commandOf chunk)))
      else none
  | .logCommand command =>
    let s' := s.addLog (.command c command)
    if command = [] then some (s'.setWorker c .emptyMarker)
    else if command = "exit".toList then some ((s'.addLog (.disconnectRequest c)).setWorker c .remove)
    else some (s'.setWorker c (.create command))
  | .emptyMarker =>
    if canSend (s.fds (s.context c).clientFd) END_MARKER a.sent then
      some ((s.sendForWorker c true END_MARKER a.sent).setWorker c .recv)
    else none
  | .create command =>
    if a.malloc then some ((s.createTask c command).setWorker c (.enqueue s.allocated))
    else some ((s.refuse c).setWorker c .refuse)
  | .refuse =>
    if canSend (s.fds (s.context c).clientFd) refusal a.sent then
      some ((s.sendForWorker c false refusal a.sent).setWorker c .refuseMarker)
    else none
  | .refuseMarker =>
    if canSend (s.fds (s.context c).clientFd) END_MARKER a.sent then
      some ((s.sendForWorker c true END_MARKER a.sent).setWorker c .recv)
    else none
  | .enqueue t => some ((s.enqueueTask t).setWorker c (.notify t))
  | .notify t => some ((s.schedulerNotifyNewTask t).setWorker c (.logCreated t))
  | .logCreated t =>
    some ((s.addLog (.decision .created c (s.task t).burstTime t)).setWorker c .recv)
  | .remove => some ((s.removeTasksForClient c).setWorker c .close)
  | .close => some ((s.setFd (s.context c).clientFd none).setWorker c .logDisconnected)
  | .logDisconnected => some ((s.addLog (.disconnected c)).setWorker c .done)

def mainStep (s : State) (a : Answer) : Option State :=
  match s.main with
  | .accept =>
    match a.accept with
    | none => some s
    | some fd => if lowestFree s.fds fd then some ((s.setFd fd (some .reserved)).setMain (.accepting fd)) else none
  | .accepting fd =>
    if a.connected then some ((s.acceptConnection fd).setMain (.setup fd s.nextConn))
    else some ((s.setFd fd none).setMain .accept)
  | .setup fd k =>
    if a.malloc then some ((s.addClient fd k).setMain (.spawn s.nextClientId))
    else some ((s.setFd fd none).setMain .accept)
  | .spawn c =>
    if a.thread then some ((s.setWorker c .recv).setMain .accept)
    else some ((s.setFd (s.context c).clientFd none).setMain .accept)

def step (s : State) : Event → Option State
  | .sched a => schedStep s a
  | .worker c a => workerStep s c a
  | .main a => mainStep s a

end MyShell
