import MyShell.Scheduler
import Mathlib.Logic.Function.Basic
import Mathlib.Tactic.Simps.Basic

/-! # The state of the server

What the threads share, the program point of each, and the history of what was written and dispatched. Counters
are unbounded: a run follows the program up to the first signed overflow, where C leaves its behaviour undefined. -/

namespace MyShell

abbrev ConnId := Nat

/-- What a descriptor number refers to. The number that `accept` will return is `reserved` while it waits. -/
inductive Descriptor where
  | conn (k : ConnId) | pipe | reserved | other
  deriving DecidableEq, Repr

/-- The life cycle of a task. Only `released` has a trace in the program, as the call of `free`. -/
inductive Status where
  | created | queued | held | released
  deriving DecidableEq, Repr

/-! ### Program points -/

structure Round where
  task : Ptr
  q : Nat
  quantum : Nat
  timeBeforeRun : Int
  deriving DecidableEq, Repr

inductive Outcome where
  | completed | preempted | expired
  deriving DecidableEq, Repr

inductive Ending where
  | shellDone | shellFailed | demoDone | demoRequeued
  deriving DecidableEq, Repr

inductive SchedPc where
  | init | peek | idle
  | readId (t : Ptr) | dequeue (t : Ptr) (id : Int)
  | setCurrent (t : Ptr) | clearPreempt (t : Ptr) | logStart (t : Ptr)
  | pipe (t : Ptr) | fork (t : Ptr) (r w : Fd) | closeWrite (t : Ptr) (r w : Fd)
  | relay (t : Ptr) (r : Fd) | closeRead (t : Ptr) (r : Fd)
  | slice (r : Round) | update (r : Round) (done : Bool) | check (r : Round)
  | appendTrace (r : Round) (o : Outcome) | countRound (t : Ptr) (o : Outcome)
  | sendMarker (t : Ptr) (e : Ending) | logBytes (t : Ptr) (e : Ending) | logEnded (t : Ptr) (e : Ending)
  | complete (t : Ptr) (e : Ending) | release (t : Ptr) (e : Ending)
  | logRequeue (t : Ptr) (o : Outcome) | setLast (t : Ptr) | requeue (t : Ptr)
  | clearCurrent (t : Ptr) (e : Ending) | clearFlag (t : Ptr) (e : Ending)
  deriving DecidableEq, Repr

inductive WorkerPc where
  | absent | recv | logCommand (command : CString) | emptyMarker
  | create (command : CString) | refuse | refuseMarker
  | enqueue (t : Ptr) | notify (t : Ptr) | logCreated (t : Ptr)
  | remove | close | logDisconnected | done
  deriving DecidableEq, Repr

inductive MainPc where
  | accept | accepting (fd : Fd) | setup (fd : Fd) (k : ConnId) | spawn (c : ClientId)
  deriving DecidableEq, Repr

/-! ### What can be observed -/

inductive LogLine where
  | connected (c : ClientId) | command (c : ClientId) (text : CString)
  | disconnectRequest (c : ClientId) | disconnected (c : ClientId)
  | decision (event : Decision) (c : ClientId) (value : Int) (t : Ptr)
  | bytesSent (c : ClientId) (bytes : Int)
  | trace (text : CString)
  deriving DecidableEq, Repr

/-- How `send_all` or `dprintf` ends: all bytes are accepted, or an error after some of them. -/
inductive Sent where
  | all | failed (accepted : Nat)
  deriving DecidableEq, Repr

/-- `target` is the connection that the descriptor denotes at that moment. -/
structure Write where
  client : ClientId
  task : Option Ptr
  endMarker : Bool
  target : Option ConnId
  data : CString
  sent : Sent
  deriving DecidableEq, Repr

inductive Job where
  | task (t : Ptr) | refused
  deriving DecidableEq, Repr

/-- An iteration that removed a task: the task as it was then, the queue that the peek saw, and what was done. -/
structure Dispatch where
  task : Ptr
  picked : Task
  queue : List Task
  spawned : Bool := true
  units : Int := 0
  endMarkers : Nat := 0
  completions : Nat := 0
  releases : Nat := 0
  requeues : Nat := 0
  finished : Bool := false

structure State where
  -- scheduler_queue.c
  queue : List Ptr := []
  nextTaskId : Int := 1
  nextArrivalOrder : Int := 1
  -- the tasks allocated so far are those below `allocated`; here a released task keeps its contents, and
  -- `Heap` gives its block to a later one
  allocated : Ptr := 0
  task : Ptr → Task := fun _ => {}
  status : Ptr → Status := fun _ => .created
  -- scheduler.c
  sched : SchedulerState := {}
  preemptFlag : Bool := false
  preemptingTaskId : Int := -1
  trace : CString := []
  -- scheduler_thread
  pc : SchedPc := .init
  lastPrintedTotal : Int := 0
  -- the workers and the accept loop
  nextClientId : ClientId := 1
  context : ClientId → ClientContext := fun c => ⟨0, c⟩
  conn : ClientId → ConnId := fun _ => 0
  worker : ClientId → WorkerPc := fun _ => .absent
  main : MainPc := .accept
  -- the descriptor table, with the standard streams, the listening socket and the log open
  fds : Fd → Option Descriptor := fun n => if n < 5 then some .other else none
  nextConn : ConnId := 0
  -- what was observed
  log : List LogLine := []
  writes : List Write := []
  -- history that no step reads: dispatches newest first, the queue at the last peek, the tasks
  -- enqueued by a client since, and every client's commands in order
  dispatches : List Dispatch := []
  peeked : List Task := []
  arrivals : List Ptr := []
  jobs : ClientId → List Job := fun _ => []

def connection : Option Descriptor → Option ConnId
  | some (.conn k) => some k
  | _ => none

/-- The number that a call which opens a descriptor returns. -/
def lowestFree (fds : Fd → Option Descriptor) (fd : Fd) : Bool :=
  (fds fd).isNone && (List.range fd).all fun n => (fds n).isSome

/-- Whether a write of `data` can end so: only a connection accepts bytes. -/
def canSend (d : Option Descriptor) (data : CString) : Sent → Bool
  | .all => (connection d).isSome
  | .failed accepted => accepted < data.length && (accepted == 0 || (connection d).isSome)

namespace State

def initial : State := {}

variable (s : State)

@[simps -fullyApplied] def setPc (pc : SchedPc) : State := { s with pc }
@[simps -fullyApplied] def setMain (main : MainPc) : State := { s with main }
@[simps -fullyApplied] def setQueue (queue : List Ptr) : State := { s with queue }
@[simps -fullyApplied] def setFlag (flag : Bool) (id : Int) : State :=
  { s with preemptFlag := flag, preemptingTaskId := id }
@[simps -fullyApplied] def setTrace (trace : CString) : State := { s with trace }
@[simps -fullyApplied] def addLog (line : LogLine) : State := { s with log := s.log ++ [line] }

@[simps -fullyApplied] def modifySched (f : SchedulerState → SchedulerState) : State := { s with sched := f s.sched }

@[simps -fullyApplied] def modifyTask (p : Ptr) (f : Task → Task) : State :=
  { s with task := Function.update s.task p (f (s.task p)) }

@[simps -fullyApplied] def setStatus (p : Ptr) (status : Status) : State :=
  { s with status := Function.update s.status p status }

@[simps -fullyApplied] def setWorker (c : ClientId) (pc : WorkerPc) : State :=
  { s with worker := Function.update s.worker c pc }

@[simps -fullyApplied] def setFd (fd : Fd) (d : Option Descriptor) : State :=
  { s with fds := Function.update s.fds fd d }

@[simps -fullyApplied] def addWrite (client : ClientId) (task : Option Ptr) (fd : Fd) (endMarker : Bool)
    (data : CString) (sent : Sent) : State :=
  { s with writes := s.writes ++ [⟨client, task, endMarker, connection (s.fds fd), data, sent⟩] }

@[simps -fullyApplied] def onDispatch (f : Dispatch → Dispatch) : State :=
  { s with dispatches := s.dispatches.modifyHead f }

end State

end MyShell
