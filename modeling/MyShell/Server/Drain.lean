import MyShell.Server.Output
import MyShell.Server.Placement
import MyShell.Server.Summary
import MyShell.Server.Waiting

/-! # The scheduler drains its queue

Every task in the queue stands for a bounded amount of work. The steps of the scheduler are paid from it,
whatever the other threads do, except for its reads of a command's output and its looks at an empty queue. -/

namespace MyShell

open State

def Task.slices (task : Task) : Nat := task.remainingTime.toNat + 1

/-- The most steps of the scheduler from one slice to the next. -/
def stepsPerSlice : Nat := 24

/-- What is left of the way from a point of the scheduler to its next slice, or to the end of a task. Where
the task that was peeked is gone from the queue, the scheduler comes back to `peek_best_task_sjrf`. -/
def SchedPc.rank (queue : List Ptr) : SchedPc → Nat
  | .check _ => 24
  | .appendTrace _ o => if o = .completed then 7 else 23
  | .countRound _ o => if o = .completed then 6 else 22
  | .logRequeue _ _ => 21
  | .setLast _ => 20
  | .requeue _ => 19
  | .clearCurrent _ _ => 18
  | .clearFlag _ _ | .init | .idle => 17
  | .peek => 16
  | .readId t => if t ∈ queue then 15 else 18
  | .dequeue t _ => if t ∈ queue then 14 else 17
  | .setCurrent _ => 13
  | .clearPreempt _ => 12
  | .logStart _ => 11
  | .pipe _ => 10
  | .fork _ _ _ | .slice _ => 9
  | .closeWrite _ _ _ => 8
  | .update _ done => if done then 8 else 1
  | .relay _ _ => 7
  | .closeRead _ _ => 6
  | .sendMarker _ _ => 5
  | .logBytes _ _ => 4
  | .logEnded _ _ => 3
  | .complete _ _ => 2
  | .release _ _ => 1

namespace State

/-- The slices of the tasks in the queue and of the one that the scheduler holds. -/
def load (s : State) : Nat :=
  (s.queue.map fun p => (s.task p).slices).sum + s.pc.held.elim 0 fun p => (s.task p).slices

/-- The most steps that the scheduler takes before it finds its queue empty, if nobody adds to it. -/
def potential (s : State) : Nat := stepsPerSlice * s.load + s.pc.rank s.queue

end State

def busy (s : State) : Event → Bool
  | .sched a =>
    match s.pc with
    | .peek => (peekBestTaskSjrf s.task s.queue s.sched.lastSelectedTaskId).isSome
    | .relay _ _ => a.read.getD [] = []
    | _ => true
  | _ => false

/-- The steps that a step adds to those to be taken: of a task that a client enqueues, and of a round in
which the scheduler finds nothing to do. -/
def granted (s : State) : Event → Nat
  | .sched _ =>
    match s.pc with
    | .peek => if (peekBestTaskSjrf s.task s.queue s.sched.lastSelectedTaskId).isSome then 0 else 1
    | _ => 0
  | .worker c _ =>
    match s.worker c with
    | .enqueue t => stepsPerSlice * (s.task t).slices
    | _ => 0
  | .main _ => 0

variable {s t : State} {a : Answer} {c : ClientId} {e : Event} {p : Ptr}

theorem slices_pos (task : Task) : 0 < task.slices := Nat.succ_pos _

theorem load_kept (queue : t.queue = s.queue) (held : t.pc.held = s.pc.held)
    (remaining : ∀ p, p ∈ s.queue ∨ s.pc.held = some p → (t.task p).remainingTime = (s.task p).remainingTime) :
    t.load = s.load := by
  have slices : ∀ p, p ∈ s.queue ∨ s.pc.held = some p → (t.task p).slices = (s.task p).slices := fun p here => by
    rw [Task.slices, Task.slices, remaining p here]
  unfold State.load
  rw [queue, held, List.map_congr_left fun p member => slices p (.inl member)]
  cases running : s.pc.held with
  | none => rfl
  | some p => exact congrArg _ (slices p (.inr running))

/-! ### The scheduler -/

theorem load_update (inv : Inv s) {r : Round} (here : s.pc = .update r false) (left : (s.task r.task).remainingTime ≠ 0)
    (queue : t.queue = s.queue) (held : t.pc.held = some r.task)
    (same : ∀ p, p ≠ r.task → (t.task p).remainingTime = (s.task p).remainingTime)
    (less : (t.task r.task).remainingTime = remainingAfter (s.task r.task).remainingTime 1) :
    t.load + 1 = s.load := by
  have mine := inv.owned.held r.task (by rw [here]; rfl)
  have demo := inv.runs.demo r.task (by rw [here]; rfl)
  have outside : ∀ p ∈ s.queue, p ≠ r.task := by
    rintro p member rfl
    simp [(inv.owned.queued _ member).2] at mine
  have others : (s.queue.map fun p => (t.task p).slices) = s.queue.map fun p => (s.task p).slices :=
    List.map_congr_left fun p member => by rw [Task.slices, same p (outside p member), Task.slices]
  have positive : 0 < (s.task r.task).remainingTime := by
    cases inv.tasks.wellFormed r.task mine.1 with
    | shell shell => exact absurd shell demo
    | demo _ _ nonneg _ => omega
  have slices : (t.task r.task).slices + 1 = (s.task r.task).slices := by
    rw [Task.slices, Task.slices, less, remainingAfter_one (Int.le_of_lt positive)]
    omega
  have before : s.load = (s.queue.map fun p => (s.task p).slices).sum + (s.task r.task).slices := by
    rw [State.load, here]
    rfl
  rw [before, State.load, queue, held, others, ← slices]
  rfl

theorem load_dequeue (inv : Inv s) {id : Int} {removed : Ptr} {rest : List Ptr} (here : s.pc = .dequeue p id)
    (found : dequeueTaskById s.task id s.queue = some (removed, rest)) :
    ((s.dequeued removed rest).setPc (.setCurrent p)).load = s.load := by
  obtain ⟨rfl, -, -⟩ := inv.owned.dequeue inv.tasks here found
  have split := ((dequeue_perm found).map fun p => (s.task p).slices).sum_eq
  simp only [List.map_cons, List.sum_cons] at split
  simp only [State.load, here, setPc_queue, dequeued_queue, setPc_task, dequeued_task, setPc_pc]
  simp only [SchedPc.held, Option.elim_some, Option.elim_none]
  omega

theorem load_given_up (queue : t.queue = s.queue) (held : s.pc.held = some p) (gone : t.pc.held = none)
    (task : t.task = s.task) : t.load + 1 ≤ s.load := by
  have positive := slices_pos (s.task p)
  unfold State.load
  rw [queue, held, gone, task]
  simp only [Option.elim_none, Option.elim_some]
  omega

/-- A step makes the load smaller, or it leaves the load and comes nearer to the next slice. -/
theorem schedStep_load (inv : Inv s) (output : OutputOk s) (taken : SchedStep s a t) : t.load + 1 ≤ s.load ∨
    t.load = s.load ∧ (if busy s (.sched a) then 1 else 0) + t.pc.rank t.queue ≤
      s.pc.rank s.queue + granted s (.sched a) := by
  have remaining := taken.remaining_kept
  cases taken with
  | @update r done here =>
    have last := output.update r done here
    cases done with
    | true =>
      have spent : (s.task r.task).remainingTime = 0 := of_decide_eq_true last.symm
      refine .inr ⟨load_kept rfl (by rw [here]; rfl) fun p _ => ?_, by simp [busy, granted, here, afterUpdate, SchedPc.rank]⟩
      by_cases mine : p = r.task <;> simp [mine, spent, remainingAfter]
    | false =>
      have left : (s.task r.task).remainingTime ≠ 0 := of_decide_eq_false last.symm
      exact .inl (Nat.le_of_eq (load_update inv here left rfl rfl (fun p other => by simp [other]) (by simp)))
  | dequeue here found =>
    have queued := (inv.owned.dequeue inv.tasks here found).2.1
    exact .inr ⟨load_dequeue inv here found, by simp [busy, granted, here, SchedPc.rank, queued]⟩
  | @dequeueNone p id here found =>
    have gone : p ∉ s.queue := fun queued => by
      rw [dequeue_peeked inv here, if_pos queued] at found
      cases found
    exact .inr ⟨load_kept rfl (by rw [here]; rfl) fun _ _ => rfl, by simp [busy, granted, here, SchedPc.rank, gone]⟩
  | peek here found =>
    exact .inr ⟨load_kept rfl (by rw [here]; rfl) fun _ _ => rfl, by simp [busy, granted, here, SchedPc.rank, peek_mem found, found]⟩
  | peekNone here found =>
    exact .inr ⟨load_kept rfl (by rw [here]; rfl) fun _ _ => rfl, by simp [busy, granted, here, SchedPc.rank, found]⟩
  | @readId p here =>
    refine .inr ⟨load_kept rfl (by rw [here]; rfl) fun _ _ => rfl, ?_⟩
    by_cases queued : p ∈ s.queue <;> simp [busy, granted, here, SchedPc.rank, queued]
  | pipeFailed here | forkFailed here | release here =>
    exact .inl (load_given_up (by simp) (by rw [here]; rfl) rfl (by simp))
  | relayEnd here answer =>
    refine .inr ⟨load_kept rfl (by rw [here]; rfl) fun _ _ => rfl, ?_⟩
    rcases answer with none | nothing <;> simp [busy, granted, SchedPc.rank, *]
  | relay here answer nonempty =>
    refine .inr ⟨load_kept rfl rfl fun p _ => remaining (by simp [here]) p, ?_⟩
    simp [busy, granted, here, SchedPc.rank, answer, nonempty]
  | @check r here =>
    refine .inr ⟨load_kept rfl (by rw [here]; exact afterCheck_held _ _) fun _ _ => rfl, ?_⟩
    rcases afterCheck_cases r s.preemptFlag with ⟨o, goesOn, same⟩ | same <;> simp [busy, granted, SchedPc.rank, *]
  | @countRound p o here =>
    refine .inr ⟨load_kept rfl (by rw [here]; exact afterQuantum_held _ _) fun p _ => remaining (by simp [here]) p, ?_⟩
    cases o <;> simp [busy, granted, here, SchedPc.rank, afterQuantum]
  | @requeue p here =>
    refine .inr ⟨?_, by simp [busy, granted, here, SchedPc.rank]⟩
    simp only [State.load, here]
    simp [SchedPc.held]
  | @slice r line done here =>
    refine .inr ⟨load_kept rfl (by rw [here]; rfl) fun p _ => remaining (by simp [here]) p, ?_⟩
    cases done <;> simp [busy, granted, here, SchedPc.rank]
  | @appendTrace r o trace here =>
    refine .inr ⟨load_kept rfl (by rw [here]; rfl) fun _ _ => rfl, ?_⟩
    cases o <;> simp [busy, granted, here, SchedPc.rank]
  | _ =>
    have here := ‹s.pc = _›
    exact .inr ⟨load_kept (by simp) (by rw [here]; rfl) fun p _ => remaining (by simp [here]) p,
      by simp [busy, granted, here, SchedPc.rank]⟩

theorem rank_bounds (queue : List Ptr) (pc : SchedPc) : 0 < pc.rank queue ∧ pc.rank queue ≤ stepsPerSlice := by
  cases pc <;> simp only [SchedPc.rank, stepsPerSlice] <;> first | omega | (split <;> omega)

theorem schedStep_paid (inv : Inv s) (output : OutputOk s) (taken : SchedStep s a t) :
    (if busy s (.sched a) then 1 else 0) + t.potential ≤ s.potential + granted s (.sched a) := by
  have before := rank_bounds s.queue s.pc
  have after := rank_bounds t.queue t.pc
  unfold State.potential
  rcases schedStep_load inv output taken with less | ⟨same, nearer⟩
  · have slice := Nat.mul_le_mul_left stepsPerSlice less
    rw [Nat.mul_succ] at slice
    split <;> omega
  · rw [same]
    omega

/-! ### The other threads -/

theorem load_worker (inv : Inv s) (frame : WorkerFrame s t c) (queue : t.queue = s.queue) : t.load = s.load := by
  refine load_kept queue (by rw [frame.pc]) fun p here => ?_
  rcases here with member | held
  · rw [frame.task p (inv.owned.queued p member).1]
  · rw [frame.task p (inv.owned.held p held).1]

theorem rank_more (pc : SchedPc) (queue : List Ptr) (p : Ptr) : pc.rank (queue ++ [p]) ≤ pc.rank queue := by
  have still : ∀ q, q ∈ queue → q ∈ queue ++ [p] := fun q => List.mem_append_left _
  cases pc with
  | readId q | dequeue q =>
    by_cases here : q ∈ queue
    · simp [SchedPc.rank, here, still]
    · rw [SchedPc.rank, SchedPc.rank, if_neg here]
      split <;> omega
  | _ => exact Nat.le_refl _

theorem load_remove (s : State) (c : ClientId) (pc : WorkerPc) :
    ((s.removeTasksForClient c).setWorker c pc).load + (tasksOfClient s.task c s.queue).length ≤ s.load := by
  have split : (removeTasksForClient s.task c s.queue ++ tasksOfClient s.task c s.queue).Perm s.queue := by
    have halves := List.filter_append_perm (fun p => decide ((s.task p).clientId ≠ c)) s.queue
    simpa [removeTasksForClient, tasksOfClient] using halves
  have sum := (split.map fun p => (s.task p).slices).sum_eq
  have part := List.length_le_sum_of_one_le ((tasksOfClient s.task c s.queue).map fun p => (s.task p).slices)
    fun n member => by
      obtain ⟨p, -, rfl⟩ := List.mem_map.mp member
      exact slices_pos _
  rw [List.map_append, List.sum_append] at sum
  rw [List.length_map] at part
  simp only [State.load, setWorker_queue, removeTasksForClient_queue, setWorker_task, removeTasksForClient_task,
    setWorker_pc, removeTasksForClient_pc]
  omega

theorem workerStep_paid (inv : Inv s) (taken : WorkerStep s c a t) :
    t.potential ≤ s.potential + granted s (.worker c a) := by
  have frame := taken.frame
  unfold State.potential
  cases taken with
  | @enqueue p here =>
    have more : ((s.enqueueTask p).setWorker c (.notify p)).load = s.load + (s.task p).slices := by
      simp [State.load]
      omega
    have rank := rank_more s.pc s.queue p
    rw [more, Nat.mul_add]
    simp only [granted, here]
    show _ + s.pc.rank (s.queue ++ [p]) ≤ _
    omega
  | remove here =>
    have less := load_remove s c .close
    by_cases nothing : tasksOfClient s.task c s.queue = []
    · have same : removeTasksForClient s.task c s.queue = s.queue := by
        refine List.filter_eq_self.mpr fun p member => ?_
        have other := List.filter_eq_nil_iff.mp nothing p member
        simpa using other
      have load := Nat.mul_le_mul_left stepsPerSlice (Nat.le_of_add_right_le less)
      simp only [setWorker_pc, removeTasksForClient_pc, setWorker_queue, removeTasksForClient_queue, same]
      omega
    · have some := List.length_pos_of_ne_nil nothing
      have load := Nat.mul_le_mul_left stepsPerSlice (Nat.le_trans (Nat.add_le_add_left some _) less)
      have before := rank_bounds s.queue s.pc
      have after := rank_bounds (removeTasksForClient s.task c s.queue) s.pc
      rw [Nat.mul_succ] at load
      simp only [setWorker_pc, removeTasksForClient_pc, setWorker_queue, removeTasksForClient_queue]
      omega
  | _ =>
    rw [load_worker inv frame (by simp)]
    simp

theorem step_paid (inv : Inv s) (output : OutputOk s) (taken : Step s e t) :
    (if busy s e then 1 else 0) + t.potential ≤ s.potential + granted s e := by
  cases taken with
  | sched taken => exact schedStep_paid inv output taken
  | worker taken => simpa [busy] using workerStep_paid inv taken
  | main taken =>
    have frame := taken.frame
    have load := load_kept frame.queue (by rw [frame.pc]) fun p _ => by rw [frame.task]
    simp [busy, State.potential, load, frame.pc, frame.queue]

/-! ### Runs -/

variable {steps : List (State × Event)}

/-- However the threads interleave, the steps of the scheduler are at most those that the load at the start,
the tasks enqueued since and the rounds without a task can pay for. -/
theorem run_busy_bounded (run : ServerRun Machine.always s) (path : Machine.Path step s steps t) :
    steps.countP (fun x => busy x.1 x.2) + t.potential ≤
      s.potential + (steps.map fun x => granted x.1 x.2).sum :=
  path.potential run (fun run taken => run.next trivial taken) fun run taken =>
    step_paid (run_inv run) (run_output run) (step_cases taken)

def enqueues (s : State) : Event → Bool
  | .worker c _ =>
    match s.worker c with
    | .enqueue _ => true
    | _ => false
  | _ => false

/-- A step of the scheduler, where the reads of a running command's output are not counted. -/
def ofScheduler (s : State) : Event → Bool
  | .sched a =>
    match s.pc with
    | .relay _ _ => a.read.getD [] = []
    | _ => true
  | _ => false

theorem busy_or_empty (inv : Inv s) (mine : ofScheduler s e = true) :
    busy s e = true ∨ s.pc = .peek ∧ s.queue = [] := by
  cases e with
  | worker | main => cases mine
  | sched a =>
    cases here : s.pc with
    | peek =>
      cases found : peekBestTaskSjrf s.task s.queue s.sched.lastSelectedTaskId with
      | none => exact .inr ⟨rfl, peek_none inv found⟩
      | some p => exact .inl (by simp [busy, here, found])
    | relay => exact .inl (by simpa [busy, ofScheduler, here] using mine)
    | _ => exact .inl (by simp [busy, here])

theorem granted_none (closed : enqueues s e = false) (looked : ¬(s.pc = .peek ∧ s.queue = [])) (inv : Inv s) :
    granted s e = 0 := by
  cases e with
  | main => rfl
  | sched a =>
    cases here : s.pc with
    | peek =>
      cases found : peekBestTaskSjrf s.task s.queue s.sched.lastSelectedTaskId with
      | none => exact absurd ⟨here, peek_none inv found⟩ looked
      | some p => simp [granted, here, found]
    | _ => simp [granted, here]
  | worker c a =>
    cases here : s.worker c with
    | enqueue p => simp [enqueues, here] at closed
    | _ => simp [granted, here]

theorem status_left (later : Machine.Reach step s t) (old : p < s.allocated) (left : s.status p ≠ .created) :
    t.status p ≠ .created := by
  have both : p < t.allocated ∧ t.status p ≠ .created := by
    refine later.invariant (I := fun t => p < t.allocated ∧ t.status p ≠ .created) ⟨old, left⟩ ?_
    intro t e u ⟨old, left⟩ _ taken
    have move := step_cases taken
    have bound := Nat.lt_of_lt_of_le old (step_allocated move)
    refine ⟨bound, fun there => ?_⟩
    rcases step_created move bound there with ⟨-, before⟩ | ⟨fresh, -⟩
    · exact left before
    · exact Nat.lt_irrefl _ (fresh ▸ old)
  exact both.2

/-- As long as no client enqueues a task, the scheduler comes within a number of steps known beforehand to
find its queue empty; by then each task is freed, or lost for want of a process. -/
theorem path_drains (run : ServerRun Machine.always s) (path : Machine.Path step s steps t)
    (closed : ∀ x ∈ steps, enqueues x.1 x.2 = false)
    (long : s.potential < steps.countP fun x => ofScheduler x.1 x.2) :
    ∃ x ∈ steps, x.1.pc = .peek ∧ x.1.queue = [] ∧
      ∀ p < s.allocated, s.status p ≠ .created → x.1.status p = .released ∨ x.1.Lost p := by
  have reached : ∀ x ∈ steps, ServerRun Machine.always x.1 := fun x member => run.trans (path.passes member)
  obtain ⟨x, member, here, empty⟩ : ∃ x ∈ steps, x.1.pc = .peek ∧ x.1.queue = [] := by
    by_contra never
    have looked : ∀ x ∈ steps, ¬(x.1.pc = .peek ∧ x.1.queue = []) := fun x member seen => never ⟨x, member, seen⟩
    have all : steps.countP (fun x => ofScheduler x.1 x.2) ≤ steps.countP fun x => busy x.1 x.2 :=
      List.countP_mono_left fun x member mine =>
        (busy_or_empty (run_inv (reached x member)) mine).resolve_right (looked x member)
    have none : (steps.map fun x => granted x.1 x.2).sum = 0 := by
      refine List.sum_eq_zero fun n member => ?_
      obtain ⟨x, inside, rfl⟩ := List.mem_map.mp member
      exact granted_none (closed x inside) (looked x inside) (run_inv (reached x inside))
    have bound := run_busy_bounded run path
    omega
  refine ⟨x, member, here, empty, fun p old left => ?_⟩
  have later := path.passes member
  have still := status_left later old left
  have inside := later.invariant (I := fun u => p < u.allocated) old fun bound _ taken =>
    Nat.lt_of_lt_of_le bound (step_allocated (step_cases taken))
  have placed := run_placed (reached x member)
  cases status : x.1.status p with
  | created => exact absurd status still
  | queued =>
    have waits := placed.queued p inside status
    simp [empty] at waits
  | held => exact .inr ((placed.held p inside status).resolve_left (by simp [here, SchedPc.held]))
  | released => exact .inl rfl

theorem run_drains (run : ServerRun Machine.always s) (path : Machine.Path step s steps t)
    (closed : ∀ x ∈ steps, enqueues x.1 x.2 = false)
    (long : s.potential < steps.countP fun x => ofScheduler x.1 x.2) :
    ∃ x ∈ steps, x.1.pc = .peek ∧ x.1.queue = [] ∧
      ∀ p < s.allocated, s.status p ≠ .created → x.1.status p = .released ∨ x.1.Lost p :=
  path_drains run path closed long

theorem run_drains_demo : ∃ s t steps, ServerRun Machine.always s ∧ Machine.Path step s steps t ∧ s.queue = [0] ∧
    ∃ x ∈ steps, x.1.pc = .peek ∧ x.1.queue = [] ∧ (x.1.status 0 = .released ∨ x.1.Lost 0) := by
  obtain ⟨s, run, seen⟩ := serverRun_by Machine.always (Event.connect 5 ++ Event.submit 1 "demo 1")
    (fun s => s.queue = [0] ∧ 0 < s.allocated ∧ s.status 0 ≠ .created ∧
      (Machine.follow step Machine.always s (Event.schedule 70)).isSome ∧
      (Machine.trail step s (Event.schedule 70)).all (fun x => !enqueues x.1 x.2) ∧
      s.potential < (Machine.trail step s (Event.schedule 70)).countP fun x => ofScheduler x.1 x.2) (by decide +kernel)
  obtain ⟨waits, old, left, executed, closed, long⟩ := of_decide_eq_true seen
  obtain ⟨t, executed⟩ := Option.isSome_iff_exists.mp executed
  have path := Machine.path_of_follow executed
  obtain ⟨x, member, here, empty, gone⟩ :=
    run_drains run path (by simpa using List.all_eq_true.mp closed) long
  exact ⟨s, t, _, run, path, waits, x, member, here, empty, gone 0 old left⟩

end MyShell
