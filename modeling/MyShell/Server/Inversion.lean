import MyShell.Server.Step

/-! # What a step can do

The steps of the three kinds of threads as relations, one constructor for each way a step can go.
Every invariant is proved by cases on these. -/

namespace MyShell

open State

inductive SchedStep (s : State) (a : Answer) : State → Prop where
  | init (here : s.pc = .init) : SchedStep s a (s.schedulerInit.setPc .peek)
  | peekNone (here : s.pc = .peek)
      (found : peekBestTaskSjrf s.task s.queue s.sched.lastSelectedTaskId = none) :
      SchedStep s a (s.recordPeek.setPc .idle)
  | peek {t} (here : s.pc = .peek)
      (found : peekBestTaskSjrf s.task s.queue s.sched.lastSelectedTaskId = some t) :
      SchedStep s a (s.recordPeek.setPc (.readId t))
  | idle (here : s.pc = .idle) : SchedStep s a (s.printSummary.setPc .peek)
  | readId {t} (here : s.pc = .readId t) : SchedStep s a (s.setPc (.dequeue t (s.task t).taskId))
  | dequeueNone {t id} (here : s.pc = .dequeue t id) (found : dequeueTaskById s.task id s.queue = none) :
      SchedStep s a (s.setPc .peek)
  | dequeue {t id removed rest} (here : s.pc = .dequeue t id)
      (found : dequeueTaskById s.task id s.queue = some (removed, rest)) :
      SchedStep s a ((s.dequeued removed rest).setPc (.setCurrent t))
  | setCurrent {t} (here : s.pc = .setCurrent t) :
      SchedStep s a ((s.schedulerSetCurrentTask t).setPc (.clearPreempt t))
  | clearPreempt {t} (here : s.pc = .clearPreempt t) :
      SchedStep s a (s.schedulerClearPreempt.setPc (.logStart t))
  | logShell {t event} (here : s.pc = .logStart t) (type : (s.task t).type = .shell)
      (known : event = if (s.task t).roundCount = 0 then Decision.started else .running) :
      SchedStep s a ((s.schedulerLogDecision event t).setPc (.pipe t))
  | logDemo {t event quantum} (here : s.pc = .logStart t) (type : (s.task t).type ≠ .shell)
      (known : event = if (s.task t).roundCount = 0 then Decision.started else .running)
      (length : quantum = if (s.task t).roundCount = 0 then 3 else 7) :
      SchedStep s a ((s.schedulerLogDecision event t).setPc (.slice ⟨t, 0, quantum, s.sched.totalTimeUsed⟩))
  | pipeFailed {t} (here : s.pc = .pipe t) (answer : a.pipe = none) :
      SchedStep s a ((s.onDispatch ({ · with spawned := false })).setPc (.clearCurrent t .shellFailed))
  | pipe {t r w} (here : s.pc = .pipe t) (answer : a.pipe = some (r, w)) (first : lowestFree s.fds r = true)
      (second : lowestFree (Function.update s.fds r (some .pipe)) w = true) :
      SchedStep s a (((s.setFd r (some .pipe)).setFd w (some .pipe)).setPc (.fork t r w))
  | fork {t r w} (here : s.pc = .fork t r w) (answer : a.fork = true) :
      SchedStep s a (s.setPc (.closeWrite t r w))
  | forkFailed {t r w} (here : s.pc = .fork t r w) (answer : a.fork = false) :
      SchedStep s a ((((s.setFd r none).setFd w none).onDispatch ({ · with spawned := false })).setPc
        (.clearCurrent t .shellFailed))
  | closeWrite {t r w} (here : s.pc = .closeWrite t r w) :
      SchedStep s a ((s.setFd w none).setPc (.relay t r))
  | relayEnd {t r} (here : s.pc = .relay t r) (answer : a.read = none ∨ a.read = some []) :
      SchedStep s a (s.setPc (.closeRead t r))
  | relay {t r chunk} (here : s.pc = .relay t r) (answer : a.read = some chunk) (nonempty : chunk ≠ [])
      (fits : chunk.length ≤ BUFFER_SIZE)
      (sent : canSend (s.fds (s.task t).clientFd) chunk a.sent = true) :
      SchedStep s a (s.sendOutput t chunk a.sent)
  | closeRead {t r} (here : s.pc = .closeRead t r) :
      SchedStep s a ((s.setFd r none).setPc (.sendMarker t .shellDone))
  | slice {r line done} (here : s.pc = .slice r) (type : (s.task r.task).type = .demoProgram)
      (text : line = demoLine ((s.task r.task).burstTime - (s.task r.task).remainingTime)
        (s.task r.task).burstTime)
      (sent : canSend (s.fds (s.task r.task).clientFd) line a.sent = true)
      (last : done = decide ((s.task r.task).remainingTime = 0)) :
      SchedStep s a ((s.sendOutput r.task line a.sent).setPc (.update r done))
  | sliceNothing {r} (here : s.pc = .slice r) (type : (s.task r.task).type ≠ .demoProgram) :
      SchedStep s a (s.setPc (.update r false))
  | update {r done} (here : s.pc = .update r done) :
      SchedStep s a (((s.schedulerUpdateTaskAfterExecution r.task 1).onDispatch fun d =>
        { d with units := d.units + (if (s.task r.task).remainingTime > 0 then 1 else 0) }).setPc
          (afterUpdate r done))
  | check {r} (here : s.pc = .check r) : SchedStep s a (s.setPc (afterCheck r s.preemptFlag))
  | appendTrace {r o trace} (here : s.pc = .appendTrace r o)
      (text : trace = if s.sched.totalTimeUsed > r.timeBeforeRun then
        schedulerAppendTrace s.trace (s.task r.task).clientId s.sched.totalTimeUsed else s.trace) :
      SchedStep s a ((s.setTrace trace).setPc (.countRound r.task o))
  | countRound {t o} (here : s.pc = .countRound t o) :
      SchedStep s a ((s.modifyTask t fun task => { task with roundCount := task.roundCount + 1 }).setPc
        (afterQuantum t o))
  | sendMarker {t e} (here : s.pc = .sendMarker t e)
      (sent : canSend (s.fds (s.task t).clientFd) END_MARKER a.sent = true) :
      SchedStep s a (((s.sendForTask t true END_MARKER a.sent).onDispatch fun d =>
        { d with endMarkers := d.endMarkers + 1 }).setPc (.logBytes t e))
  | logBytes {t e} (here : s.pc = .logBytes t e) :
      SchedStep s a ((s.addLog (.bytesSent (s.task t).clientId (s.task t).bytesSent)).setPc (.logEnded t e))
  | logEnded {t e} (here : s.pc = .logEnded t e) :
      SchedStep s a ((s.schedulerLogDecision .ended t).setPc (.complete t e))
  | complete {t e} (here : s.pc = .complete t e) :
      SchedStep s a (((s.modifySched fun sched =>
        { sched with totalCompleted := sched.totalCompleted + 1, lastSelectedTaskId := -1 }).onDispatch fun d =>
          { d with completions := d.completions + 1 }).setPc (.release t e))
  | release {t e} (here : s.pc = .release t e) :
      SchedStep s a (((s.setStatus t .released).onDispatch fun d =>
        { d with releases := d.releases + 1 }).setPc (.clearCurrent t e))
  | logRequeue {t o event} (here : s.pc = .logRequeue t o)
      (known : event = if o = .preempted then Decision.preempted else .waiting) :
      SchedStep s a ((s.schedulerLogDecision event t).setPc (.setLast t))
  | setLast {t} (here : s.pc = .setLast t) :
      SchedStep s a ((s.modifySched ({ · with lastSelectedTaskId := (s.task t).taskId })).setPc (.requeue t))
  | requeue {t} (here : s.pc = .requeue t) :
      SchedStep s a ((s.enqueueTaskRequeue t).setPc (.clearCurrent t .demoRequeued))
  | clearCurrent {t e} (here : s.pc = .clearCurrent t e) (goesOn : afterCurrent t e = .clearFlag t e) :
      SchedStep s a (s.schedulerClearCurrentTask.setPc (.clearFlag t e))
  | clearCurrentShell {t e} (here : s.pc = .clearCurrent t e) (ends : afterCurrent t e = .peek) :
      SchedStep s a ((s.schedulerClearCurrentTask.setPc .peek).onDispatch ({ · with finished := true }))
  | clearFlag {t e} (here : s.pc = .clearFlag t e) :
      SchedStep s a ((s.schedulerClearPreempt.onDispatch ({ · with finished := true })).setPc .peek)

inductive WorkerStep (s : State) (c : ClientId) (a : Answer) : State → Prop where
  | recvEnd (here : s.worker c = .recv) (answer : a.read = none ∨ a.read = some []) :
      WorkerStep s c a (s.setWorker c .remove)
  | recv {chunk} (here : s.worker c = .recv) (answer : a.read = some chunk) (nonempty : chunk ≠ [])
      (fits : chunk.length ≤ BUFFER_SIZE - 1) :
      WorkerStep s c a (s.setWorker c (.logCommand (commandOf chunk)))
  | empty (here : s.worker c = .logCommand []) :
      WorkerStep s c a ((s.addLog (.command c [])).setWorker c .emptyMarker)
  | exit (here : s.worker c = .logCommand "exit".toList) :
      WorkerStep s c a (((s.addLog (.command c "exit".toList)).addLog (.disconnectRequest c)).setWorker c .remove)
  | command {command} (here : s.worker c = .logCommand command) (nonempty : command ≠ [])
      (goesOn : command ≠ "exit".toList) :
      WorkerStep s c a ((s.addLog (.command c command)).setWorker c (.create command))
  | emptyMarker (here : s.worker c = .emptyMarker)
      (sent : canSend (s.fds (s.context c).clientFd) END_MARKER a.sent = true) :
      WorkerStep s c a ((s.sendForWorker c true END_MARKER a.sent).setWorker c .recv)
  | create {command} (here : s.worker c = .create command) (answer : a.malloc = true) :
      WorkerStep s c a ((s.createTask c command).setWorker c (.enqueue s.allocated))
  | createFailed {command} (here : s.worker c = .create command) (answer : a.malloc = false) :
      WorkerStep s c a ((s.refuse c).setWorker c .refuse)
  | refuse (here : s.worker c = .refuse)
      (sent : canSend (s.fds (s.context c).clientFd) refusal a.sent = true) :
      WorkerStep s c a ((s.sendForWorker c false refusal a.sent).setWorker c .refuseMarker)
  | refuseMarker (here : s.worker c = .refuseMarker)
      (sent : canSend (s.fds (s.context c).clientFd) END_MARKER a.sent = true) :
      WorkerStep s c a ((s.sendForWorker c true END_MARKER a.sent).setWorker c .recv)
  | enqueue {t} (here : s.worker c = .enqueue t) :
      WorkerStep s c a ((s.enqueueTask t).setWorker c (.notify t))
  | notify {t flag id} (here : s.worker c = .notify t)
      (raised : flag = (schedulerShouldPreempt (some (s.task t)) (s.sched.currentTask.map s.task) || s.preemptFlag)) :
      WorkerStep s c a ((s.setFlag flag id).setWorker c (.logCreated t))
  | logCreated {t} (here : s.worker c = .logCreated t) :
      WorkerStep s c a ((s.addLog (.decision .created c (s.task t).burstTime t)).setWorker c .recv)
  | remove (here : s.worker c = .remove) :
      WorkerStep s c a ((s.removeTasksForClient c).setWorker c .close)
  | close (here : s.worker c = .close) :
      WorkerStep s c a ((s.setFd (s.context c).clientFd none).setWorker c .logDisconnected)
  | logDisconnected (here : s.worker c = .logDisconnected) :
      WorkerStep s c a ((s.addLog (.disconnected c)).setWorker c .done)

inductive MainStep (s : State) (a : Answer) : State → Prop where
  | acceptFailed (here : s.main = .accept) (answer : a.accept = none) : MainStep s a s
  | accept {fd} (here : s.main = .accept) (answer : a.accept = some fd) (free : lowestFree s.fds fd = true) :
      MainStep s a ((s.setFd fd (some .reserved)).setMain (.accepting fd))
  | accepted {fd} (here : s.main = .accepting fd) (answer : a.connected = true) :
      MainStep s a ((s.acceptConnection fd).setMain (.setup fd s.nextConn))
  | notAccepted {fd} (here : s.main = .accepting fd) (answer : a.connected = false) :
      MainStep s a ((s.setFd fd none).setMain .accept)
  | setup {fd k} (here : s.main = .setup fd k) (answer : a.malloc = true) :
      MainStep s a ((s.addClient fd k).setMain (.spawn s.nextClientId))
  | setupFailed {fd k} (here : s.main = .setup fd k) (answer : a.malloc = false) :
      MainStep s a ((s.setFd fd none).setMain .accept)
  | spawn {c} (here : s.main = .spawn c) (answer : a.thread = true) :
      MainStep s a ((s.setWorker c .recv).setMain .accept)
  | spawnFailed {c} (here : s.main = .spawn c) (answer : a.thread = false) :
      MainStep s a ((s.setFd (s.context c).clientFd none).setMain .accept)

inductive Step (s : State) : Event → State → Prop where
  | sched {a t} (taken : SchedStep s a t) : Step s (.sched a) t
  | worker {c a t} (taken : WorkerStep s c a t) : Step s (.worker c a) t
  | main {a t} (taken : MainStep s a t) : Step s (.main a) t

variable {s t : State} {a : Answer} {c : ClientId} {e : Event}

theorem schedStep_cases (taken : schedStep s a = some t) : SchedStep s a t := by
  unfold schedStep at taken
  split at taken <;> rename_i here
  · cases taken; exact .init here
  · split at taken <;> rename_i found
    · cases taken; exact .peekNone here found
    · cases taken; exact .peek here found
  · cases taken; exact .idle here
  · cases taken; exact .readId here
  · split at taken <;> rename_i found
    · cases taken; exact .dequeueNone here found
    · cases taken; exact .dequeue here found
  · cases taken; exact .setCurrent here
  · cases taken; exact .clearPreempt here
  · dsimp only at taken
    split at taken <;> rename_i type
    · cases taken; exact .logShell here type (by simp)
    · cases taken; exact .logDemo here type (by simp) (by simp)
  · split at taken <;> rename_i answer
    · cases taken; exact .pipeFailed here answer
    · split at taken
      · rename_i free
        cases taken; exact .pipe here answer free.1 free.2
      · cases taken
  · split at taken <;> rename_i answer
    · cases taken; exact .fork here answer
    · cases taken; exact .forkFailed here (by simpa using answer)
  · cases taken; exact .closeWrite here
  · split at taken <;> rename_i answer
    · cases taken; exact .relayEnd here (.inl answer)
    · split at taken
      · rename_i nothing
        cases taken; exact .relayEnd here (.inr (nothing ▸ answer))
      · rename_i nonempty
        split at taken
        · rename_i fits
          cases taken; exact .relay here answer nonempty fits.1 fits.2
        · cases taken
  · cases taken; exact .closeRead here
  · split at taken <;> rename_i type
    · dsimp only at taken
      split at taken
      · rename_i sent
        cases taken; exact .slice here type rfl sent rfl
      · cases taken
    · cases taken; exact .sliceNothing here type
  · cases taken; exact .update here
  · cases taken; exact .check here
  · dsimp only at taken
    split at taken <;> rename_i ran
    · cases taken; exact .appendTrace here (if_pos ran).symm
    · cases taken; exact .appendTrace here (if_neg ran).symm
  · cases taken; exact .countRound here
  · split at taken
    · rename_i sent
      cases taken; exact .sendMarker here sent
    · cases taken
  · cases taken; exact .logBytes here
  · cases taken; exact .logEnded here
  · cases taken; exact .complete here
  · cases taken; exact .release here
  · cases taken; exact .logRequeue here rfl
  · cases taken; exact .setLast here
  · cases taken; exact .requeue here
  · dsimp only at taken
    split at taken <;> rename_i ends
    · cases taken
      rw [ends]; exact .clearCurrentShell here ends
    · cases taken
      have goesOn : ∀ e t, afterCurrent t e ≠ .peek → afterCurrent t e = .clearFlag t e := by
        intro e t; cases e <;> simp [afterCurrent]
      rw [goesOn _ _ ends]; exact .clearCurrent here (goesOn _ _ ends)
  · cases taken; exact .clearFlag here

theorem workerStep_cases (taken : workerStep s c a = some t) : WorkerStep s c a t := by
  unfold workerStep at taken
  split at taken <;> rename_i here
  · cases taken
  · cases taken
  · split at taken <;> rename_i answer
    · cases taken; exact .recvEnd here (.inl answer)
    · split at taken
      · rename_i nothing
        cases taken; exact .recvEnd here (.inr (nothing ▸ answer))
      · rename_i nonempty
        split at taken
        · rename_i fits
          cases taken; exact .recv here answer nonempty fits
        · cases taken
  · dsimp only at taken
    split at taken
    · rename_i nothing
      subst nothing
      cases taken; exact .empty here
    · rename_i nonempty
      split at taken
      · rename_i same
        subst same
        cases taken; exact .exit here
      · rename_i goesOn
        cases taken; exact .command here nonempty goesOn
  · split at taken
    · rename_i sent
      cases taken; exact .emptyMarker here sent
    · cases taken
  · split at taken <;> rename_i answer
    · cases taken; exact .create here answer
    · cases taken; exact .createFailed here (by simpa using answer)
  · split at taken
    · rename_i sent
      cases taken; exact .refuse here sent
    · cases taken
  · split at taken
    · rename_i sent
      cases taken; exact .refuseMarker here sent
    · cases taken
  · cases taken; exact .enqueue here
  · unfold schedulerNotifyNewTask at taken
    split at taken <;> rename_i preempts
    · cases taken; exact .notify here (by simp [preempts])
    · cases taken; exact .notify here (by simp [preempts])
  · cases taken; exact .logCreated here
  · cases taken; exact .remove here
  · cases taken; exact .close here
  · cases taken; exact .logDisconnected here

theorem mainStep_cases (taken : mainStep s a = some t) : MainStep s a t := by
  unfold mainStep at taken
  split at taken <;> rename_i here
  · split at taken <;> rename_i answer
    · cases taken; exact .acceptFailed here answer
    · split at taken
      · rename_i free
        cases taken; exact .accept here answer free
      · cases taken
  · split at taken <;> rename_i answer
    · cases taken; exact .accepted here answer
    · cases taken; exact .notAccepted here (by simpa using answer)
  · split at taken <;> rename_i answer
    · cases taken; exact .setup here answer
    · cases taken; exact .setupFailed here (by simpa using answer)
  · split at taken <;> rename_i answer
    · cases taken; exact .spawn here answer
    · cases taken; exact .spawnFailed here (by simpa using answer)

theorem step_cases (taken : step s e = some t) : Step s e t := by
  cases e with
  | sched a => exact .sched (schedStep_cases taken)
  | worker c a => exact .worker (workerStep_cases taken)
  | main a => exact .main (mainStep_cases taken)

end MyShell
