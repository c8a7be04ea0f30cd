import MyShell.Lib.Machine
import MyShell.Server.Inversion

/-! # Who owns a task

The invariant of all threads together: tasks are numbered by their allocation, the queue holds
queued tasks once each, the task that the scheduler holds is in nobody else's hands, and a worker
passes only tasks of its own client. -/

namespace MyShell

open State

/-! ### What the program points refer to -/

/-- The task that the scheduler has removed from the queue and not given back or freed. -/
def SchedPc.held : SchedPc → Option Ptr
  | .setCurrent t | .clearPreempt t | .logStart t | .pipe t | .fork t _ _ | .closeWrite t _ _ | .relay t _
  | .closeRead t _ | .countRound t _ | .sendMarker t _ | .logBytes t _ | .logEnded t _ | .complete t _
  | .release t _ | .logRequeue t _ | .setLast t | .requeue t => some t
  | .slice r | .update r _ | .check r | .appendTrace r _ => some r.task
  | _ => none

def SchedPc.current : SchedPc → Option Ptr
  | .setCurrent _ => none
  | .clearCurrent t _ => some t
  | pc => pc.held

/-- The task that was peeked and not yet dequeued, with the id read from it. -/
def SchedPc.PeekOk (allocated : Ptr) : SchedPc → Prop
  | .readId t => t < allocated
  | .dequeue t id => t < allocated ∧ id = t + 1
  | _ => True

theorem SchedPc.PeekOk.mono {pc : SchedPc} {m n : Ptr} (ok : pc.PeekOk m) (more : m ≤ n) : pc.PeekOk n := by
  cases pc <;> first | trivial | exact Nat.lt_of_lt_of_le ok more | exact ⟨Nat.lt_of_lt_of_le ok.1 more, ok.2⟩

/-- The held task where the scheduler runs the branch for shell commands. -/
def SchedPc.shell : SchedPc → Option Ptr
  | .pipe t | .fork t _ _ | .closeWrite t _ _ | .relay t _ | .closeRead t _
  | .sendMarker t .shellDone | .logBytes t .shellDone | .logEnded t .shellDone | .complete t .shellDone
  | .release t .shellDone => some t
  | _ => none

def SchedPc.demo : SchedPc → Option Ptr
  | .slice r | .update r _ | .check r | .appendTrace r _ => some r.task
  | .countRound t _ | .logRequeue t _ | .setLast t | .requeue t
  | .sendMarker t .demoDone | .logBytes t .demoDone | .logEnded t .demoDone | .complete t .demoDone
  | .release t .demoDone => some t
  | _ => none

def SchedPc.EndingOk : SchedPc → Prop
  | .sendMarker _ e | .logBytes _ e | .logEnded _ e | .complete _ e | .release _ e => e = .shellDone ∨ e = .demoDone
  | _ => True

def WorkerPc.task : WorkerPc → Option Ptr
  | .enqueue t | .notify t | .logCreated t => some t
  | _ => none

variable {s t : State} {a : Answer} {c : ClientId} {e : Event} {p q : Ptr}

@[simp] theorem afterUpdate_held (r : Round) (done : Bool) : (afterUpdate r done).held = some r.task := by
  cases done <;> rfl

@[simp] theorem afterUpdate_demo (r : Round) (done : Bool) : (afterUpdate r done).demo = some r.task := by
  cases done <;> rfl

theorem afterCheck_cases (r : Round) (b : Bool) :
    (∃ o, o ≠ .completed ∧ afterCheck r b = .appendTrace r o) ∨ afterCheck r b = .slice { r with q := r.q + 1 } := by
  unfold afterCheck
  split
  · exact .inl ⟨_, by simp, rfl⟩
  · split
    · exact .inr rfl
    · exact .inl ⟨_, by simp, rfl⟩

@[simp] theorem afterCheck_held (r : Round) (b : Bool) : (afterCheck r b).held = some r.task := by
  rcases afterCheck_cases r b with ⟨_, -, same⟩ | same <;> rw [same] <;> rfl

@[simp] theorem afterCheck_demo (r : Round) (b : Bool) : (afterCheck r b).demo = some r.task := by
  rcases afterCheck_cases r b with ⟨_, -, same⟩ | same <;> rw [same] <;> rfl

@[simp] theorem afterQuantum_held (q : Ptr) (o : Outcome) : (afterQuantum q o).held = some q := by
  cases o <;> rfl

@[simp] theorem afterQuantum_demo (q : Ptr) (o : Outcome) : (afterQuantum q o).demo = some q := by
  cases o <;> rfl

@[simp] theorem afterCheck_shell (r : Round) (b : Bool) : (afterCheck r b).shell = none := by
  rcases afterCheck_cases r b with ⟨_, -, same⟩ | same <;> rw [same] <;> rfl

@[simp] theorem afterQuantum_shell (q : Ptr) (o : Outcome) : (afterQuantum q o).shell = none := by
  cases o <;> rfl

theorem held_of_shell {pc : SchedPc} (here : pc.shell = some p) : pc.held = some p := by
  cases pc <;> first | exact here | (rename_i e; cases e <;> first | exact here | cases here)

theorem held_of_demo {pc : SchedPc} (here : pc.demo = some p) : pc.held = some p := by
  cases pc <;> first | exact here | (rename_i e; cases e <;> first | exact here | cases here)

theorem current_of_demo {pc : SchedPc} (here : pc.demo = some p) : pc.current = some p := by
  have held := held_of_demo here
  cases pc <;> first | exact held | cases here

theorem peekOk_of_held {pc : SchedPc} {n : Ptr} (here : pc.held = some p) : pc.PeekOk n := by
  cases pc <;> trivial

theorem ne_of_held {pc pc' : SchedPc} (here : pc.held = some p) (gone : pc'.held = none) : pc ≠ pc' := by
  rintro rfl
  simp [here] at gone

/-! ### How tasks change -/

/-- What no step changes in a task, and how its remaining time moves: down, but not below zero. -/
structure Task.Later (t t' : Task) : Prop where
  taskId : t'.taskId = t.taskId
  clientId : t'.clientId = t.clientId
  clientFd : t'.clientFd = t.clientFd
  command : t'.command = t.command
  type : t'.type = t.type
  burstTime : t'.burstTime = t.burstTime
  arrivalOrder : t'.arrivalOrder = t.arrivalOrder
  remainingTime : t'.remainingTime = t.remainingTime ∨
    0 ≤ t'.remainingTime ∧ t'.remainingTime < t.remainingTime

@[simp] theorem Task.Later.refl (t : Task) : t.Later t := ⟨rfl, rfl, rfl, rfl, rfl, rfl, rfl, .inl rfl⟩

theorem Task.Later.le {t t' : Task} (later : t.Later t') : t'.remainingTime ≤ t.remainingTime := by
  rcases later.remainingTime with same | less <;> omega

theorem Task.Later.trans {t t' t'' : Task} (first : t.Later t') (second : t'.Later t'') : t.Later t'' where
  taskId := second.taskId.trans first.taskId
  clientId := second.clientId.trans first.clientId
  clientFd := second.clientFd.trans first.clientFd
  command := second.command.trans first.command
  type := second.type.trans first.type
  burstTime := second.burstTime.trans first.burstTime
  arrivalOrder := second.arrivalOrder.trans first.arrivalOrder
  remainingTime := by have := first.remainingTime; have := second.remainingTime; omega

theorem Task.WellFormed.later {t t' : Task} (ok : t.WellFormed) (later : t.Later t') : t'.WellFormed := by
  cases ok with
  | shell type burst remaining =>
    refine .shell (later.type.trans type) (later.burstTime.trans burst) ?_
    rcases later.remainingTime with same | ⟨nonneg, less⟩ <;> omega
  | demo type burst nonneg bounded =>
    have burst' := later.burstTime
    refine .demo (later.type.trans type) (by omega) ?_ ?_ <;>
      rcases later.remainingTime with same | ⟨nonneg, less⟩ <;> omega

theorem update_later {mem : Ptr → Task} {task : Task} (later : (mem q).Later task) (p : Ptr) :
    (mem p).Later (Function.update mem q task p) := by
  by_cases same : p = q
  · subst same; simpa using later
  · simp [same]

theorem remainingAfter_lower (remaining : Int) : remainingAfter remaining 1 = remaining ∨
    0 ≤ remainingAfter remaining 1 ∧ remainingAfter remaining 1 < remaining := by
  unfold remainingAfter
  split
  · split <;> omega
  · exact .inl rfl

/-! ### What the threads leave alone -/

/-- The scheduler leaves alone what the workers and the accept loop own. -/
structure SchedFrame (s t : State) : Prop where
  nextTaskId : t.nextTaskId = s.nextTaskId
  nextArrivalOrder : t.nextArrivalOrder = s.nextArrivalOrder
  allocated : t.allocated = s.allocated
  nextClientId : t.nextClientId = s.nextClientId
  context : t.context = s.context
  conn : t.conn = s.conn
  worker : t.worker = s.worker
  main : t.main = s.main
  nextConn : t.nextConn = s.nextConn
  jobs : t.jobs = s.jobs
  later : ∀ p, (s.task p).Later (t.task p)

structure WorkerFrame (s t : State) (c : ClientId) : Prop where
  pc : t.pc = s.pc
  sched : t.sched = s.sched
  trace : t.trace = s.trace
  lastPrintedTotal : t.lastPrintedTotal = s.lastPrintedTotal
  dispatches : t.dispatches = s.dispatches
  peeked : t.peeked = s.peeked
  nextClientId : t.nextClientId = s.nextClientId
  context : t.context = s.context
  conn : t.conn = s.conn
  main : t.main = s.main
  nextConn : t.nextConn = s.nextConn
  worker : ∀ c', c' ≠ c → t.worker c' = s.worker c'
  jobs : ∀ c', c' ≠ c → t.jobs c' = s.jobs c'
  task : ∀ p < s.allocated, t.task p = s.task p

structure MainFrame (s t : State) : Prop where
  queue : t.queue = s.queue
  nextTaskId : t.nextTaskId = s.nextTaskId
  nextArrivalOrder : t.nextArrivalOrder = s.nextArrivalOrder
  allocated : t.allocated = s.allocated
  task : t.task = s.task
  status : t.status = s.status
  sched : t.sched = s.sched
  preemptFlag : t.preemptFlag = s.preemptFlag
  trace : t.trace = s.trace
  pc : t.pc = s.pc
  lastPrintedTotal : t.lastPrintedTotal = s.lastPrintedTotal
  writes : t.writes = s.writes
  dispatches : t.dispatches = s.dispatches
  peeked : t.peeked = s.peeked
  arrivals : t.arrivals = s.arrivals
  jobs : t.jobs = s.jobs

theorem SchedStep.frame (taken : SchedStep s a t) : SchedFrame s t := by
  cases taken with
  | update =>
    constructor <;> simp
    exact update_later ⟨rfl, rfl, rfl, rfl, rfl, rfl, rfl, remainingAfter_lower _⟩
  | slice =>
    constructor <;> simp
    exact update_later ⟨rfl, rfl, rfl, rfl, rfl, rfl, rfl, .inl rfl⟩
  | relay =>
    constructor <;> simp
    exact update_later ⟨rfl, rfl, rfl, rfl, rfl, rfl, rfl, .inl rfl⟩
  | countRound =>
    constructor <;> simp
    exact update_later ⟨rfl, rfl, rfl, rfl, rfl, rfl, rfl, .inl rfl⟩
  | _ => constructor <;> simp

theorem SchedStep.other_task (taken : SchedStep s a t) (other : s.pc.held ≠ some p) : t.task p = s.task p := by
  have different : ∀ q, s.pc.held = some q → p ≠ q := by
    rintro q held rfl
    exact other held
  cases taken with
  | update here => simp [different _ (by rw [here]; rfl)]
  | slice here => simp [different _ (by rw [here]; rfl)]
  | relay here => simp [different _ (by rw [here]; rfl)]
  | countRound here => simp [different _ (by rw [here]; rfl)]
  | _ => simp

theorem SchedStep.remaining (taken : SchedStep s a t) (p : Ptr) :
    (t.task p).remainingTime = (s.task p).remainingTime ∨ ∃ r done, s.pc = .update r done ∧ r.task = p ∧
      (t.task p).remainingTime = remainingAfter (s.task p).remainingTime 1 := by
  cases taken with
  | @update r done here =>
    by_cases same : r.task = p
    · exact .inr ⟨r, done, here, same, by simp [same]⟩
    · exact .inl (by simp [Ne.symm same])
  | @slice r | @relay q | @countRound q =>
    left
    simp only [setPc_task, sendOutput, modifyTask_task, Function.update_apply]
    split <;> simp_all
  | _ => exact .inl (by simp)

theorem SchedStep.remaining_kept (taken : SchedStep s a t) (noUpdate : ∀ r done, s.pc ≠ .update r done) (p : Ptr) :
    (t.task p).remainingTime = (s.task p).remainingTime :=
  (taken.remaining p).resolve_right fun ⟨r, done, here, _⟩ => noUpdate r done here

theorem WorkerStep.frame (taken : WorkerStep s c a t) : WorkerFrame s t c := by
  cases taken with
  | create =>
    constructor <;> simp +contextual [Nat.ne_of_lt]
  | _ => constructor <;> simp +contextual

theorem WorkerFrame.later (frame : WorkerFrame s t c) (p : Ptr) (old : p < s.allocated) :
    (s.task p).Later (t.task p) :=
  frame.task p old ▸ .refl _

theorem MainStep.frame (taken : MainStep s a t) : MainFrame s t := by
  cases taken <;> constructor <;> simp

theorem MainStep.worker (taken : MainStep s a t) (other : s.main ≠ .spawn c) : t.worker c = s.worker c := by
  cases taken with
  | @spawn c' here =>
    have different : c ≠ c' := fun same => other (same ▸ here)
    simp [different]
  | _ => simp

theorem MainStep.spawned (taken : MainStep s a t) (here : s.main = .spawn c) :
    t.worker c = .recv ∨ t.worker c = s.worker c := by
  cases taken with
  | spawn here' =>
    cases here.symm.trans here'
    exact .inl (by simp)
  | _ => exact .inr (by simp)

theorem step_later (taken : Step s e t) (old : p < s.allocated) : (s.task p).Later (t.task p) := by
  cases taken with
  | sched taken => exact taken.frame.later p
  | worker taken => exact taken.frame.later p old
  | main taken => exact taken.frame.task ▸ .refl _

theorem step_allocated (taken : Step s e t) : s.allocated ≤ t.allocated := by
  cases taken with
  | sched taken => exact Nat.le_of_eq taken.frame.allocated.symm
  | worker taken => cases taken <;> simp
  | main taken => exact Nat.le_of_eq taken.frame.allocated.symm

/-! ### What the threads write -/

def SchedPc.writing : SchedPc → Option Ptr
  | .relay t _ | .sendMarker t _ => some t
  | .slice r => some r.task
  | _ => none

structure Write.ForTask (w : Write) (s : State) (q : Ptr) : Prop where
  task : w.task = some q
  client : w.client = (s.task q).clientId
  target : w.target = connection (s.fds (s.task q).clientFd)
  marker : w.endMarker = true → w.data = END_MARKER

structure Write.Own (w : Write) (s : State) (c : ClientId) : Prop where
  task : w.task = none
  client : w.client = c
  target : w.target = connection (s.fds (s.context c).clientFd)
  present : s.worker c ≠ .absent

theorem held_of_writing {pc : SchedPc} (here : pc.writing = some p) : pc.held = some p := by
  cases pc <;> first | exact here | cases here

theorem SchedStep.wrote (taken : SchedStep s a t) : t.writes = s.writes ∨
    ∃ w q, t.writes = s.writes ++ [w] ∧ s.pc.writing = some q ∧ w.ForTask s q := by
  cases taken with
  | relay here | slice here | sendMarker here =>
    exact .inr ⟨_, _, rfl, by rw [here]; rfl, rfl, rfl, rfl, by simp⟩
  | _ => exact .inl (by simp)

theorem WorkerStep.wrote (taken : WorkerStep s c a t) : t.writes = s.writes ∨
    ∃ w, t.writes = s.writes ++ [w] ∧ w.Own s c := by
  cases taken with
  | emptyMarker here | refuse here | refuseMarker here => exact .inr ⟨_, rfl, rfl, rfl, rfl, by simp [here]⟩
  | _ => exact .inl (by simp)

/-! ### Tasks are numbered and well formed -/

structure TasksOk (s : State) : Prop where
  nextTaskId : s.nextTaskId = s.allocated + 1
  nextArrivalOrder : s.nextArrivalOrder = s.allocated + 1
  taskId : ∀ p < s.allocated, (s.task p).taskId = p + 1
  arrivalOrder : ∀ p < s.allocated, (s.task p).arrivalOrder = p + 1
  wellFormed : ∀ p < s.allocated, (s.task p).WellFormed

theorem TasksOk.later (ok : TasksOk s) (id : t.nextTaskId = s.nextTaskId)
    (order : t.nextArrivalOrder = s.nextArrivalOrder) (allocated : t.allocated = s.allocated)
    (later : ∀ p < s.allocated, (s.task p).Later (t.task p)) : TasksOk t where
  nextTaskId := by rw [id, allocated, ok.nextTaskId]
  nextArrivalOrder := by rw [order, allocated, ok.nextArrivalOrder]
  taskId p old := by
    rw [allocated] at old
    exact (later p old).taskId.trans (ok.taskId p old)
  arrivalOrder p old := by
    rw [allocated] at old
    exact (later p old).arrivalOrder.trans (ok.arrivalOrder p old)
  wellFormed p old := by
    rw [allocated] at old
    exact (ok.wellFormed p old).later (later p old)

theorem TasksOk.create (ok : TasksOk s) (command : CString) : TasksOk (s.createTask c command) := by
  have cases : ∀ p < s.allocated + 1, p = s.allocated ∨ p < s.allocated := fun p bound =>
    (Nat.lt_succ_iff_lt_or_eq.mp bound).symm
  refine ⟨?_, ?_, fun p bound => ?_, fun p bound => ?_, fun p bound => ?_⟩
  · simp [ok.nextTaskId]
  · simp [ok.nextArrivalOrder]
  all_goals rcases cases p bound with rfl | old
  · simp [ok.nextTaskId]
  · simpa [Nat.ne_of_lt old] using ok.taskId p old
  · simp [ok.nextArrivalOrder]
  · simpa [Nat.ne_of_lt old] using ok.arrivalOrder p old
  · simpa using create_wellFormed
  · simpa [Nat.ne_of_lt old] using ok.wellFormed p old

theorem step_tasks (ok : TasksOk s) (taken : Step s e t) : TasksOk t := by
  have later : ∀ p < s.allocated, (s.task p).Later (t.task p) := fun p old => step_later taken old
  cases taken with
  | sched taken =>
    exact ok.later taken.frame.nextTaskId taken.frame.nextArrivalOrder taken.frame.allocated later
  | worker taken =>
    cases taken with
    | @create command => exact (ok.create command).later rfl rfl rfl fun _ _ => .refl _
    | _ => exact ok.later (by simp) (by simp) (by simp) later
  | main taken =>
    exact ok.later taken.frame.nextTaskId taken.frame.nextArrivalOrder taken.frame.allocated later

/-! ### Clients and their tasks -/

structure ClientsOk (s : State) : Prop where
  clientId : ∀ c, (s.context c).clientId = c
  born : ∀ c, s.worker c ≠ .absent → c < s.nextClientId
  spawning : ∀ c, s.main = .spawn c → c < s.nextClientId ∧ s.worker c = .absent
  taskClient : ∀ p < s.allocated, (s.task p).clientId < s.nextClientId
  taskFd : ∀ p < s.allocated, (s.task p).clientFd = (s.context (s.task p).clientId).clientFd
  started : ∀ p < s.allocated, s.worker (s.task p).clientId ≠ .absent

theorem ClientsOk.later (ok : ClientsOk s) (next : t.nextClientId = s.nextClientId)
    (context : t.context = s.context) (main : t.main = s.main) (allocated : t.allocated = s.allocated)
    (worker : ∀ c, t.worker c = .absent ↔ s.worker c = .absent)
    (later : ∀ p < s.allocated, (s.task p).Later (t.task p)) : ClientsOk t where
  clientId c := by rw [context, ok.clientId]
  born c present := by rw [next]; exact ok.born c fun absent => present ((worker c).mpr absent)
  spawning c starting := by
    rw [main] at starting
    rw [next]
    exact ⟨(ok.spawning c starting).1, (worker c).mpr (ok.spawning c starting).2⟩
  taskClient p old := by
    rw [allocated] at old
    rw [(later p old).clientId, next]
    exact ok.taskClient p old
  taskFd p old := by
    rw [allocated] at old
    rw [(later p old).clientId, (later p old).clientFd, context]
    exact ok.taskFd p old
  started p old := by
    rw [allocated] at old
    rw [(later p old).clientId, ne_eq, worker]
    exact ok.started p old

theorem ClientsOk.create (ok : ClientsOk s) (present : s.worker c ≠ .absent) (command : CString) :
    ClientsOk (s.createTask c command) where
  clientId := ok.clientId
  born := ok.born
  spawning := ok.spawning
  taskClient p bound := by
    rcases Nat.lt_succ_iff_lt_or_eq.mp bound with old | rfl
    · simpa [Nat.ne_of_lt old] using ok.taskClient p old
    · simpa [ok.clientId] using ok.born c present
  taskFd p bound := by
    rcases Nat.lt_succ_iff_lt_or_eq.mp bound with old | rfl
    · simpa [Nat.ne_of_lt old] using ok.taskFd p old
    · simp [ok.clientId]
  started p bound := by
    rcases Nat.lt_succ_iff_lt_or_eq.mp bound with old | rfl
    · simpa [Nat.ne_of_lt old] using ok.started p old
    · simpa [ok.clientId] using present

theorem WorkerStep.absent (taken : WorkerStep s c a t) (c' : ClientId) :
    t.worker c' = .absent ↔ s.worker c' = .absent := by
  by_cases same : c' = c
  · subst same
    cases taken <;> simp_all
  · rw [taken.frame.worker c' same]

theorem step_clients (ok : ClientsOk s) (taken : Step s e t) : ClientsOk t := by
  cases taken with
  | sched taken =>
    have frame := taken.frame
    exact ok.later frame.nextClientId frame.context frame.main frame.allocated
      (fun c => by rw [frame.worker]) fun p _ => frame.later p
  | @worker c a _ taken =>
    have frame := taken.frame
    have absent := taken.absent
    cases taken with
    | @create command here =>
      exact (ok.create (by simp [here]) command).later rfl rfl rfl rfl absent fun _ _ => .refl _
    | _ => exact ok.later frame.nextClientId frame.context frame.main (by simp) absent frame.later
  | main taken =>
    cases taken with
    | acceptFailed => exact ok
    | accept | accepted | notAccepted | setupFailed | spawnFailed =>
      exact ⟨ok.clientId, ok.born, by simp, ok.taskClient, ok.taskFd, ok.started⟩
    | setup here =>
      refine ⟨fun c => ?_, fun c present => ?_, fun c starting => ?_, fun p old => ?_, fun p old => ?_, ok.started⟩
      · by_cases same : c = s.nextClientId
        · simp [same]
        · simpa [same] using ok.clientId c
      · exact Nat.lt_succ_of_lt (ok.born c present)
      · cases starting
        exact ⟨Nat.lt_succ_self _, by_contra fun present => Nat.lt_irrefl _ (ok.born _ present)⟩
      · exact Nat.lt_succ_of_lt (ok.taskClient p old)
      · simpa [Nat.ne_of_lt (ok.taskClient p old)] using ok.taskFd p old
    | @spawn c here =>
      refine ⟨ok.clientId, fun c' present => ?_, by simp, ok.taskClient, ok.taskFd, fun p old => ?_⟩
      · by_cases same : c' = c
        · exact same ▸ (ok.spawning c here).1
        · exact ok.born c' (by simpa [same] using present)
      · by_cases same : (s.task p).clientId = c
        · simp [same]
        · simpa [same] using ok.started p old

/-! ### One owner for every task -/

structure Owned (s : State) : Prop where
  queued : ∀ p ∈ s.queue, p < s.allocated ∧ s.status p = .queued
  nodup : s.queue.Nodup
  held : ∀ p, s.pc.held = some p → p < s.allocated ∧ s.status p = .held
  peeked : s.pc.PeekOk s.allocated
  created : ∀ c p, s.worker c = .enqueue p → p < s.allocated ∧ s.status p = .created
  passed : ∀ c p, (s.worker c).task = some p → p < s.allocated ∧ (s.task p).clientId = c

theorem Owned.schedMove (ok : Owned s) (frame : SchedFrame s t) (queue : t.queue = s.queue)
    (status : t.status = s.status) (held : t.pc.held = s.pc.held ∨ t.pc.held = none)
    (peeked : t.pc.PeekOk s.allocated) : Owned t where
  queued p member := by
    rw [queue] at member
    rw [frame.allocated, status]
    exact ok.queued p member
  nodup := by rw [queue]; exact ok.nodup
  held p here := by
    rw [frame.allocated, status]
    rcases held with same | nothing
    · exact ok.held p (same ▸ here)
    · simp [nothing] at here
  peeked := by rw [frame.allocated]; exact peeked
  created c p here := by
    rw [frame.worker] at here
    rw [frame.allocated, status]
    exact ok.created c p here
  passed c p here := by
    rw [frame.worker] at here
    rw [frame.allocated, (frame.later p).clientId]
    exact ok.passed c p here

theorem peek_mem {mem : Ptr → Task} {queue : List Ptr} {last : Int}
    (found : peekBestTaskSjrf mem queue last = some p) : p ∈ queue := by
  unfold peekBestTaskSjrf at found
  split at found
  · rename_i selected shell
    cases found
    exact List.mem_of_find?_eq_some shell
  · have scanned : ∀ (rest : List Ptr) (acc : Selection), (∀ x ∈ rest, x ∈ queue) →
        (∀ x, acc.selected = some x → x ∈ queue) →
        ∀ x, (rest.foldl (selectStep mem last
          (queue.countP fun curr => (mem curr).type = .demoProgram)) acc).selected = some x → x ∈ queue := by
      intro rest
      induction rest with
      | nil => intro acc _ known; exact known
      | cons y rest ih =>
        intro acc inside known
        refine ih _ (fun x member => inside x (List.mem_cons_of_mem _ member)) fun x selected => ?_
        have here := inside y List.mem_cons_self
        unfold selectStep at selected
        split at selected
        · split at selected
          · exact known x selected
          · split at selected
            · cases selected; exact here
            · split at selected
              · cases selected; exact here
              · exact known x selected
        · exact known x selected
    exact scanned queue {} (fun _ member => member) (by simp) p found

theorem Owned.dequeue (ok : Owned s) (tasks : TasksOk s) {id : Int} {removed : Ptr} {rest : List Ptr}
    (here : s.pc = .dequeue p id) (found : dequeueTaskById s.task id s.queue = some (removed, rest)) :
    removed = p ∧ p ∈ s.queue ∧ p ∉ rest := by
  have member := (dequeue_mem found removed).mpr (.inl rfl)
  have peeked := ok.peeked
  rw [here] at peeked
  have matched := (dequeue_split found).1
  rw [tasks.taskId removed (ok.queued removed member).1, peeked.2] at matched
  have same : removed = p := Int.ofNat_inj.mp (Int.add_left_inj _ |>.mp matched)
  subst same
  have nodup := (dequeue_perm found).nodup_iff.mpr ok.nodup
  exact ⟨rfl, member, (List.nodup_cons.mp nodup).1⟩

theorem nodup_concat {queue : List Ptr} (nodup : queue.Nodup) (outside : p ∉ queue) : (queue ++ [p]).Nodup :=
  List.nodup_append.mpr ⟨nodup, by simp, fun q member r single => by
    rintro rfl
    exact outside (List.mem_singleton.mp single ▸ member)⟩

theorem schedStep_owned (ok : Owned s) (tasks : TasksOk s) (taken : SchedStep s a t) : Owned t := by
  have frame := taken.frame
  cases taken with
  | peek here found =>
    exact ok.schedMove frame rfl rfl (.inr rfl) (ok.queued _ (peek_mem found)).1
  | readId here =>
    have peeked := ok.peeked
    rw [here] at peeked
    exact ok.schedMove frame rfl rfl (.inr rfl) ⟨peeked, tasks.taskId _ peeked⟩
  | @dequeue p id removed rest here found =>
    obtain ⟨rfl, member, left⟩ := ok.dequeue tasks here found
    have kept : ∀ q ∈ rest, q ∈ s.queue := fun q member => (dequeue_mem found q).mpr (.inr member)
    have queued := (ok.queued removed member)
    refine ⟨fun q member => ?_, ?_, ?_, trivial, fun c q creating => ?_, ok.passed⟩
    · have different : q ≠ removed := fun same => left (same ▸ member)
      simpa [different] using ok.queued q (kept q member)
    · exact (List.nodup_cons.mp ((dequeue_perm found).nodup_iff.mpr ok.nodup)).2
    · simpa [SchedPc.held] using queued.1
    · have created := ok.created c q creating
      have different : q ≠ removed := by
        rintro rfl
        simp [queued.2] at created
      simpa [different] using created
  | @requeue p here =>
    have held := ok.held p (by rw [here]; rfl)
    have outside : ∀ q ∈ s.queue, q ≠ p := by
      rintro q member rfl
      simp [(ok.queued q member).2] at held
    refine ⟨fun q member => ?_, ?_, by simp [SchedPc.held], trivial, fun c q creating => ?_, ok.passed⟩
    · rcases List.mem_append.mp member with old | new
      · simpa [outside q old] using ok.queued q old
      · simpa [List.mem_singleton.mp new] using held.1
    · exact nodup_concat ok.nodup fun member => outside p member rfl
    · have created := ok.created c q creating
      have different : q ≠ p := by
        rintro rfl
        simp [created.2] at held
      simpa [different] using created
  | @release p e here =>
    have held := ok.held p (by rw [here]; rfl)
    have outside : ∀ q, s.status q ≠ .held → q ≠ p := by
      rintro q other rfl
      exact other held.2
    refine ⟨fun q member => ?_, ok.nodup, by simp [SchedPc.held], trivial, fun c q creating => ?_, ok.passed⟩
    · have queued := ok.queued q member
      simpa [outside q (by simp [queued.2])] using queued
    · have created := ok.created c q creating
      simpa [outside q (by simp [created.2])] using created
  | relay here =>
    exact ok.schedMove frame (by simp) (by simp) (.inl (by simp)) (by simp [here, SchedPc.PeekOk])
  | update here =>
    exact ok.schedMove frame (by simp) (by simp) (.inl (by rw [here]; exact afterUpdate_held _ _))
      (peekOk_of_held (afterUpdate_held _ _))
  | check here =>
    exact ok.schedMove frame rfl rfl (.inl (by rw [here]; exact afterCheck_held _ _))
      (peekOk_of_held (afterCheck_held _ _))
  | countRound here =>
    exact ok.schedMove frame rfl rfl (.inl (by rw [here]; exact afterQuantum_held _ _))
      (peekOk_of_held (afterQuantum_held _ _))
  | peekNone | idle | dequeueNone | clearCurrent | clearCurrentShell | clearFlag | init | pipeFailed | forkFailed =>
    exact ok.schedMove frame (by simp) (by simp) (.inr rfl) trivial
  | _ => exact ok.schedMove frame (by simp) (by simp) (.inl (by rw [‹s.pc = _›]; rfl)) trivial

theorem Owned.workerMove (ok : Owned s) (frame : WorkerFrame s t c) (queue : t.queue = s.queue)
    (status : t.status = s.status) (allocated : t.allocated = s.allocated)
    (created : ∀ p, t.worker c = .enqueue p → s.worker c = .enqueue p)
    (passed : ∀ p, (t.worker c).task = some p → (s.worker c).task = some p) : Owned t where
  queued p member := by
    rw [queue] at member
    rw [allocated, status]
    exact ok.queued p member
  nodup := by rw [queue]; exact ok.nodup
  held p here := by
    rw [frame.pc] at here
    rw [allocated, status]
    exact ok.held p here
  peeked := by rw [allocated, frame.pc]; exact ok.peeked
  created c' p here := by
    rw [allocated, status]
    by_cases same : c' = c
    · subst same; exact ok.created c' p (created p here)
    · rw [frame.worker c' same] at here
      exact ok.created c' p here
  passed c' p here := by
    have before : (s.worker c').task = some p := by
      by_cases same : c' = c
      · subst same; exact passed p here
      · rwa [frame.worker c' same] at here
    have known := ok.passed c' p before
    rw [allocated, (frame.later p known.1).clientId]
    exact known

theorem workerStep_owned (ok : Owned s) (clients : ClientsOk s) (taken : WorkerStep s c a t) :
    Owned t := by
  have frame := taken.frame
  cases taken with
  | @create command here =>
    have fresh : ∀ p, p < s.allocated → p ≠ s.allocated := fun p old => Nat.ne_of_lt old
    refine ⟨fun p member => ?_, ok.nodup, fun p held => ?_, ?_, fun c' p creating => ?_, fun c' p passing => ?_⟩
    · have queued := ok.queued p member
      exact ⟨Nat.lt_succ_of_lt queued.1, by simpa [fresh p queued.1] using queued.2⟩
    · have held := ok.held p held
      exact ⟨Nat.lt_succ_of_lt held.1, by simpa [fresh p held.1] using held.2⟩
    · exact ok.peeked.mono (Nat.le_succ _)
    · by_cases same : c' = c
      · subst same
        obtain rfl : s.allocated = p := by simpa using creating
        simp
      · have created := ok.created c' p (by simpa [same] using creating)
        exact ⟨Nat.lt_succ_of_lt created.1, by simpa [fresh p created.1] using created.2⟩
    · by_cases same : c' = c
      · subst same
        obtain rfl : s.allocated = p := by simpa [WorkerPc.task] using passing
        simp [clients.clientId]
      · have passed := ok.passed c' p (by simpa [same] using passing)
        exact ⟨Nat.lt_succ_of_lt passed.1, by simpa [fresh p passed.1] using passed.2⟩
  | @enqueue p here =>
    have created := ok.created c p here
    have mine := ok.passed c p (by rw [here]; rfl)
    have outside : ∀ q, s.status q ≠ .created → q ≠ p := by
      rintro q other rfl
      exact other created.2
    refine ⟨fun q member => ?_, ?_, fun q held => ?_, ok.peeked, fun c' q creating => ?_, fun c' q passing => ?_⟩
    · rcases List.mem_append.mp member with old | new
      · have queued := ok.queued q old
        simpa [outside q (by simp [queued.2])] using queued
      · simpa [List.mem_singleton.mp new] using created.1
    · exact nodup_concat ok.nodup fun member => outside p (by simp [(ok.queued p member).2]) rfl
    · have held := ok.held q held
      simpa [outside q (by simp [held.2])] using held
    · have other : c' ≠ c := by
        rintro rfl
        simp at creating
      have before : s.worker c' = .enqueue q := by simpa [other] using creating
      have different : q ≠ p := by
        rintro rfl
        exact other ((ok.passed c' q (by rw [before]; rfl)).2.symm.trans mine.2)
      simpa [different] using ok.created c' q before
    · by_cases same : c' = c
      · subst same
        obtain rfl : p = q := by simpa [WorkerPc.task] using passing
        exact mine
      · exact ok.passed c' q (by simpa [same] using passing)
  | remove here =>
    have removed : ∀ p, p ∈ tasksOfClient s.task c s.queue → s.status p = .queued := fun p member =>
      (ok.queued p (List.mem_filter.mp member).1).2
    refine ⟨fun p member => ?_, ok.nodup.filter _, fun p held => ?_, ok.peeked, fun c' p creating => ?_,
      fun c' p passing => ?_⟩
    · obtain ⟨queued, other⟩ := List.mem_filter.mp member
      have kept : p ∉ tasksOfClient s.task c s.queue := by
        simp only [tasksOfClient, List.mem_filter, not_and]
        simpa using fun _ => of_decide_eq_true other
      simpa [kept] using ok.queued p queued
    · have held := ok.held p held
      have kept : p ∉ tasksOfClient s.task c s.queue := fun member => by simp [removed p member] at held
      simpa [kept] using held
    · have created := ok.created c' p (by
        by_cases same : c' = c
        · subst same; simp at creating
        · simpa [same] using creating)
      have kept : p ∉ tasksOfClient s.task c s.queue := fun member => by simp [removed p member] at created
      simpa [kept] using created
    · by_cases same : c' = c
      · subst same; simp [WorkerPc.task] at passing
      · exact ok.passed c' p (by simpa [same] using passing)
  | notify here | logCreated here =>
    exact ok.workerMove frame rfl rfl rfl (by simp) (by simp [here, WorkerPc.task])
  | _ => exact ok.workerMove frame (by simp) (by simp) (by simp) (by simp) (by simp [WorkerPc.task])

theorem mainStep_owned (ok : Owned s) (taken : MainStep s a t) : Owned t := by
  cases taken with
  | @spawn c here =>
    refine ⟨ok.queued, ok.nodup, ok.held, ok.peeked, fun c' p creating => ?_, fun c' p passing => ?_⟩
    · by_cases same : c' = c
      · subst same; simp at creating
      · exact ok.created c' p (by simpa [same] using creating)
    · by_cases same : c' = c
      · subst same; simp [WorkerPc.task] at passing
      · exact ok.passed c' p (by simpa [same] using passing)
  | _ => exact ⟨ok.queued, ok.nodup, ok.held, ok.peeked, ok.created, ok.passed⟩

/-! ### The scheduler knows what it runs -/

structure RunsOk (s : State) : Prop where
  current : s.sched.currentTask = s.pc.current
  shell : ∀ p, s.pc.shell = some p → (s.task p).type = .shell
  demo : ∀ p, s.pc.demo = some p → (s.task p).type ≠ .shell
  ending : s.pc.EndingOk

theorem RunsOk.move (ok : RunsOk s) (current : t.sched.currentTask = t.pc.current) (ending : t.pc.EndingOk)
    (later : ∀ p, (s.task p).Later (t.task p)) (shell : t.pc.shell = s.pc.shell ∨ t.pc.shell = none)
    (demo : t.pc.demo = s.pc.demo ∨ t.pc.demo = none) : RunsOk t where
  current := current
  ending := ending
  shell p here := by
    rcases shell with same | nothing
    · rw [(later p).type]; exact ok.shell p (same ▸ here)
    · simp [nothing] at here
  demo p here := by
    rcases demo with same | nothing
    · rw [(later p).type]; exact ok.demo p (same ▸ here)
    · simp [nothing] at here

theorem SchedStep.current (ok : s.sched.currentTask = s.pc.current) (taken : SchedStep s a t) :
    t.sched.currentTask = t.pc.current := by
  cases taken with
  | init | setCurrent | clearCurrent | clearCurrentShell => rfl
  | relay => simpa using ok
  | update here =>
    rw [here] at ok
    rw [setPc_pc, current_of_demo (afterUpdate_demo _ _)]
    simpa [SchedPc.current, SchedPc.held] using ok
  | check here =>
    rw [here] at ok
    rw [setPc_pc, current_of_demo (afterCheck_demo _ _)]
    simpa [SchedPc.current, SchedPc.held] using ok
  | countRound here =>
    rw [here] at ok
    rw [setPc_pc, current_of_demo (afterQuantum_demo _ _)]
    simpa [SchedPc.current, SchedPc.held] using ok
  | _ =>
    rw [‹s.pc = _›] at ok
    simpa [SchedPc.current, SchedPc.held] using ok

theorem SchedStep.ending (ok : s.pc.EndingOk) (taken : SchedStep s a t) : t.pc.EndingOk := by
  cases taken with
  | closeRead => exact .inl rfl
  | relay => simpa using ok
  | @update r done => cases done <;> trivial
  | @check r => rcases afterCheck_cases r s.preemptFlag with ⟨_, -, same⟩ | same <;> simp [same, SchedPc.EndingOk]
  | @countRound t o => cases o <;> first | trivial | exact .inr rfl
  | _ => rw [‹s.pc = _›] at ok; first | exact ok | trivial

theorem schedStep_runs (ok : RunsOk s) (taken : SchedStep s a t) : RunsOk t := by
  have frame := taken.frame
  have current := taken.current ok.current
  have ending := taken.ending ok.ending
  cases taken with
  | logShell here type =>
    refine ⟨current, fun p same => ?_, by simp [SchedPc.demo], ending⟩
    cases same
    exact type
  | logDemo here type =>
    refine ⟨current, by simp [SchedPc.shell], fun p same => ?_, ending⟩
    cases same
    exact type
  | relay => exact ok.move current ending frame.later (.inl (by simp)) (.inl (by simp))
  | closeRead here => exact ok.move current ending frame.later (.inl (by rw [here]; rfl)) (.inl (by rw [here]; rfl))
  | update here =>
    exact ok.move current ending frame.later (.inr (by cases ‹Bool› <;> rfl))
      (.inl (by rw [here]; exact afterUpdate_demo _ _))
  | check here =>
    exact ok.move current ending frame.later (.inr (afterCheck_shell _ _))
      (.inl (by rw [here]; exact afterCheck_demo _ _))
  | countRound here =>
    exact ok.move current ending frame.later (.inr (afterQuantum_shell _ _))
      (.inl (by rw [here]; exact afterQuantum_demo _ _))
  | sendMarker here | logBytes here | logEnded here | complete here =>
    exact ok.move current ending frame.later (.inl (by rw [here]; cases ‹Ending› <;> rfl))
      (.inl (by rw [here]; cases ‹Ending› <;> rfl))
  | pipe here | fork here | closeWrite here | relayEnd here | slice here | sliceNothing here | appendTrace here
  | logRequeue here | setLast here =>
    exact ok.move current ending frame.later (.inl (by rw [here]; rfl)) (.inl (by rw [here]; rfl))
  | _ => exact ok.move current ending frame.later (.inr rfl) (.inr rfl)

/-! ### The invariant of every run -/

structure Inv (s : State) : Prop where
  tasks : TasksOk s
  clients : ClientsOk s
  owned : Owned s
  runs : RunsOk s

theorem initial_inv : Inv State.initial := by
  refine ⟨⟨rfl, rfl, ?_, ?_, ?_⟩, ⟨fun _ => rfl, ?_, ?_, ?_, ?_, ?_⟩, ⟨?_, List.nodup_nil, ?_, trivial, ?_, ?_⟩,
    ⟨rfl, ?_, ?_, trivial⟩⟩
  all_goals simp [State.initial, SchedPc.held, SchedPc.shell, SchedPc.demo, WorkerPc.task]

theorem step_inv (inv : Inv s) (taken : Step s e t) : Inv t := by
  refine ⟨step_tasks inv.tasks taken, step_clients inv.clients taken, ?_, ?_⟩
  · cases taken with
    | sched taken => exact schedStep_owned inv.owned inv.tasks taken
    | worker taken => exact workerStep_owned inv.owned inv.clients taken
    | main taken => exact mainStep_owned inv.owned taken
  · cases taken with
    | sched taken => exact schedStep_runs inv.runs taken
    | worker taken =>
      have frame := taken.frame
      have held : ∀ p, s.pc.held = some p → (t.task p).type = (s.task p).type := fun p here =>
        (frame.later p (inv.owned.held p here).1).type
      refine ⟨by rw [frame.sched, frame.pc]; exact inv.runs.current, fun p here => ?_, fun p here => ?_,
        by rw [frame.pc]; exact inv.runs.ending⟩
      · rw [frame.pc] at here
        rw [held p (held_of_shell here)]
        exact inv.runs.shell p here
      · rw [frame.pc] at here
        rw [held p (held_of_demo here)]
        exact inv.runs.demo p here
    | main taken =>
      have frame := taken.frame
      refine ⟨by rw [frame.sched, frame.pc]; exact inv.runs.current, ?_, ?_,
        by rw [frame.pc]; exact inv.runs.ending⟩ <;> rw [frame.pc, frame.task]
      · exact inv.runs.shell
      · exact inv.runs.demo

theorem demo_of_ne_shell (inv : Inv s) (old : p < s.allocated) (type : (s.task p).type ≠ .shell) :
    (s.task p).type = .demoProgram := by
  cases inv.tasks.wellFormed p old with
  | shell shell => exact absurd shell type
  | demo demo => exact demo

theorem step_released (inv : Inv s) (taken : Step s e t) (old : p < s.allocated) (freed : s.status p = .released) :
    t.status p = .released := by
  have other : ∀ q, s.status q ≠ .released → p ≠ q := by
    rintro q live rfl
    exact live freed
  cases taken with
  | sched taken =>
    cases taken with
    | @dequeue _ _ q _ here found =>
      have queued := inv.owned.queued q ((dequeue_mem found q).mpr (.inl rfl))
      simpa [other q (by simp [queued.2])] using freed
    | @requeue q here =>
      have held := inv.owned.held q (by rw [here]; rfl)
      simpa [other q (by simp [held.2])] using freed
    | @release q e here =>
      by_cases same : p = q
      · simp [same]
      · simpa [same] using freed
    | _ => simpa using freed
  | worker taken =>
    cases taken with
    | create => simpa [Nat.ne_of_lt old] using freed
    | @enqueue q here =>
      have created := inv.owned.created _ q here
      simpa [other q (by simp [created.2])] using freed
    | remove here => simp [freed]
    | _ => simpa using freed
  | main taken => rwa [taken.frame.status]

abbrev ServerRun (ok : State → Event → Prop) (s : State) : Prop := Machine.Run step ok State.initial s

theorem Inv.run {ok : State → Event → Prop} (inv : Inv s) (run : Machine.Run step ok s t) : Inv t :=
  run.invariant inv fun inv _ taken => step_inv inv (step_cases taken)

theorem run_inv {ok : State → Event → Prop} (run : ServerRun ok s) : Inv s := initial_inv.run run

/-! ### Sections of a schedule -/

namespace Event

/-- A client connects and `accept` returns `fd`. -/
def connect (fd : Fd) : List Event := [.main { accept := some fd }, .main {}, .main {}, .main {}]

/-- The worker receives a command and goes on up to `enqueue_task`. -/
def receive (c : ClientId) (text : String) : List Event :=
  [.worker c { read := some text.toList }, .worker c {}, .worker c {}, .worker c {}]

def submit (c : ClientId) (text : String) : List Event := receive c text ++ [.worker c {}, .worker c {}]

/-- The connection ends, and the worker leaves up to `remove_tasks_for_client`. -/
def leave (c : ClientId) : List Event := [.worker c {}, .worker c {}]

/-- Some steps of the scheduler in a row, where no process can be started. -/
def schedule (n : Nat) : List Event := List.replicate n (.sched {})

end Event

theorem serverRun_by (ok : State → Event → Prop) [∀ s e, Decidable (ok s e)] (events : List Event)
    (test : State → Bool) (passed : (Machine.follow step ok State.initial events).any test = true) :
    ∃ s, ServerRun ok s ∧ test s = true :=
  Machine.exists_run events passed

end MyShell
