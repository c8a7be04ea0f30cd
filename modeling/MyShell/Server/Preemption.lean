import MyShell.Server.Ownership

/-! # Preemption by new tasks

A worker that enqueues a task raises the flag when the task preempts the current one, and the
scheduler looks at the flag after every slice. What the scheduler clears at the start of a dispatch
is lost, and so is what comes before `current_task` is set. -/

namespace MyShell

open State

def State.notified (s : State) (p : Ptr) : Prop := s.worker (s.task p).clientId ≠ .notify p

/-- The task was enqueued since the last peek, has been notified, and preempts the task `current`. -/
structure Preempts (s : State) (p current : Ptr) : Prop where
  queued : p ∈ s.queue
  arrived : p ∈ s.arrivals
  notified : s.notified p
  preempts : schedulerShouldPreempt (some (s.task p)) (some (s.task current)) = true

/-- The check after a slice sees that a new task preempts the running one. -/
def PreemptionSeen (s : State) : Prop :=
  ∀ r p, s.pc = .check r → Preempts s p r.task → s.schedulerCheckPreempt = true

/-- When the scheduler clears the flag to start a dispatch, no task that has arrived since the peek and
has been notified preempts the task picked. -/
def clearsNothing (s : State) : Event → Bool
  | .sched _ =>
    match s.pc with
    | .clearPreempt current => s.queue.all fun p =>
        ¬(p ∈ s.arrivals ∧ s.worker (s.task p).clientId ≠ .notify p ∧
          schedulerShouldPreempt (some (s.task p)) (some (s.task current)))
    | _ => true
  | _ => true

def SchedPc.running : SchedPc → Option Ptr
  | .logStart t => some t
  | .slice r | .update r _ | .check r => some r.task
  | _ => none

def FlagRaised (s : State) : Prop :=
  ∀ current p, s.pc.running = some current → Preempts s p current → s.preemptFlag = true

variable {s t : State} {a : Answer} {c : ClientId} {e : Event} {p : Ptr}

theorem current_of_running {pc : SchedPc} (here : pc.running = some p) : pc.current = some p := by
  cases pc <;> first | exact here | cases here

theorem held_of_running {pc : SchedPc} (here : pc.running = some p) : pc.held = some p := by
  cases pc <;> first | exact here | cases here

theorem afterUpdate_running {r : Round} {done : Bool} (here : (afterUpdate r done).running = some p) :
    r.task = p := by
  cases done with
  | true => cases here
  | false => exact Option.some.inj here

theorem afterCheck_running {r : Round} {b : Bool} (here : (afterCheck r b).running = some p) : r.task = p := by
  rcases afterCheck_cases r b with ⟨_, -, same⟩ | same <;> rw [same] at here
  · cases here
  · exact Option.some.inj here

theorem afterQuantum_running (q : Ptr) (o : Outcome) : (afterQuantum q o).running = none := by
  cases o <;> rfl

theorem SchedStep.preempts (inv : Inv s) (taken : SchedStep s a t) {current : Ptr}
    (queue : t.queue = s.queue) (arrivals : t.arrivals = s.arrivals)
    (now : Preempts t p current) : Preempts s p current := by
  have frame := taken.frame
  have queued : p ∈ s.queue := queue ▸ now.queued
  have other : s.pc.held ≠ some p := fun here => by
    simpa [(inv.owned.queued p queued).2] using inv.owned.held p here
  have same := taken.other_task other
  have later := frame.later current
  refine ⟨queued, arrivals ▸ now.arrived, ?_, ?_⟩
  · have notified := now.notified
    unfold State.notified at notified ⊢
    rwa [frame.worker, same] at notified
  · have preempts := now.preempts
    rw [same] at preempts
    exact shouldPreempt_of_less later.type.symm later.le preempts

theorem FlagRaised.schedMove (ok : FlagRaised s) (inv : Inv s) (taken : SchedStep s a t) (queue : t.queue = s.queue)
    (arrivals : t.arrivals = s.arrivals) (flag : t.preemptFlag = s.preemptFlag)
    (running : ∀ current, t.pc.running = some current → s.pc.running = some current) : FlagRaised t :=
  fun current p here now => flag.trans (ok current p (running current here) (taken.preempts inv queue arrivals now))

theorem schedStep_flag (ok : FlagRaised s) (inv : Inv s) (met : clearsNothing s (.sched a) = true)
    (taken : SchedStep s a t) : FlagRaised t := by
  have move := ok.schedMove inv taken
  cases taken with
  | clearPreempt here =>
    intro current p running now
    obtain rfl : _ = current := Option.some.inj running
    simp only [clearsNothing, here, List.all_eq_true, decide_eq_true_eq] at met
    exact absurd ⟨now.arrived, now.notified, now.preempts⟩ (met p now.queued)
  | update here =>
    exact move (by simp) (by simp) (by simp) fun current running => by
      rw [here, ← afterUpdate_running running]; rfl
  | check here =>
    exact move (by simp) (by simp) (by simp) fun current running => by
      rw [here, ← afterCheck_running running]; rfl
  | countRound here =>
    intro current p running
    simp [afterQuantum_running] at running
  | slice here | sliceNothing here | logDemo here =>
    exact move (by simp) (by simp) (by simp) fun current running => by rw [here]; exact running
  | relay here =>
    intro current p running
    simp [here, SchedPc.running] at running
  | _ =>
    intro current p running
    cases running

theorem workerStep_flag (ok : FlagRaised s) (inv : Inv s) (taken : WorkerStep s c a t) : FlagRaised t := by
  have frame := taken.frame
  intro current p running now
  rw [frame.pc] at running
  have held := inv.owned.held current (held_of_running running)
  have before : p ∈ s.queue → p ∈ s.arrivals → s.notified p → t.task = s.task → s.preemptFlag = true :=
    fun queued arrived notified same => ok current p running ⟨queued, arrived, notified, same ▸ now.preempts⟩
  have notified := now.notified
  unfold State.notified at notified
  cases taken with
  | @enqueue q here =>
    have mine := inv.owned.passed c q (by rw [here]; rfl)
    have other : p ≠ q := by
      rintro rfl
      simp [mine.2] at notified
    have queued : p ∈ s.queue := by simpa [other] using now.queued
    refine before queued (by simpa [other] using now.arrived) ?_ rfl
    intro there
    by_cases same : (s.task p).clientId = c
    · simp [same, here] at there
    · exact notified (by simpa [same] using there)
  | @notify q flag id here raised =>
    have mine := inv.owned.passed c q (by rw [here]; rfl)
    rw [setWorker_preemptFlag, setFlag_preemptFlag, raised]
    by_cases same : p = q
    · subst same
      rw [inv.runs.current, current_of_running running]
      simpa using .inl now.preempts
    · rw [before now.queued now.arrived ?_ rfl, Bool.or_true]
      intro there
      by_cases client : (s.task p).clientId = c
      · rw [client, here] at there
        exact same (WorkerPc.notify.inj there).symm
      · exact notified (by simpa [client] using there)
  | @create command here =>
    have queued : p ∈ s.queue := now.queued
    have old := (inv.owned.queued p queued).1
    have kept : ∀ q < s.allocated, (s.createTask c command).task q = s.task q := fun q old => by
      simp [Nat.ne_of_lt old]
    have preempts := now.preempts
    rw [setWorker_task, kept p old, kept current held.1] at preempts
    refine ok current p running ⟨queued, now.arrived, ?_, preempts⟩
    intro there
    rw [setWorker_task, kept p old] at notified
    by_cases same : (s.task p).clientId = c
    · simp [same, here] at there
    · exact notified (by simpa [same] using there)
  | _ =>
    have here := ‹s.worker c = _›
    have arrived : p ∈ s.arrivals := by simpa using now.arrived
    have queued : p ∈ s.queue := by first | simpa using now.queued | exact (List.mem_filter.mp now.queued).1
    have flag := before queued arrived (fun there => ?_) (by simp)
    · simpa using flag
    · by_cases same : (s.task p).clientId = c
      · rw [same, here] at there
        cases there
      · exact notified (by simpa [same] using there)

theorem step_flag (ok : FlagRaised s) (inv : Inv s) (met : clearsNothing s e = true) (taken : Step s e t) :
    FlagRaised t := by
  cases taken with
  | sched taken => exact schedStep_flag ok inv met taken
  | worker taken => exact workerStep_flag ok inv taken
  | main taken =>
    have frame := taken.frame
    intro current p running now
    have queued : p ∈ s.queue := frame.queue ▸ now.queued
    have notified : s.notified p := fun there => by
      refine now.notified ?_
      rw [frame.task]
      cases taken with
      | @spawn c here =>
        have other : (s.task p).clientId ≠ c := by
          rintro rfl
          simp [(inv.clients.spawning _ here).2] at there
        simpa [other] using there
      | _ => exact there
    rw [frame.preemptFlag]
    exact ok current p (frame.pc ▸ running) ⟨queued, frame.arrivals ▸ now.arrived, notified,
      frame.task ▸ now.preempts⟩

/-- Where the scheduler clears no preemption at the start of a dispatch, none is lost. -/
theorem run_preemption_seen (run : ServerRun (clearsNothing · ·) s) : PreemptionSeen s := by
  have ok : FlagRaised s := run.invariant_of run_inv (by intro _ _ running; cases running)
    fun inv _ ok met taken => step_flag ok inv met (step_cases taken)
  exact fun r p here now => ok r.task p (by rw [here]; rfl) now

theorem run_preemption_seen_shell : ∃ s, ServerRun (clearsNothing · ·) s ∧
    (∃ r, s.pc = .check r ∧ Preempts s 1 r.task) ∧ PreemptionSeen s := by
  obtain ⟨s, run, seen⟩ := serverRun_by (clearsNothing · ·)
    (Event.connect 5 ++ Event.connect 6 ++ Event.submit 1 "demo 9" ++ Event.schedule 8 ++
      Event.submit 2 "ls" ++ Event.schedule 1)
    (fun s => s.pc = .check ⟨0, 0, 3, 0⟩ ∧ 1 ∈ s.queue ∧ 1 ∈ s.arrivals ∧
      s.worker (s.task 1).clientId ≠ .notify 1 ∧ schedulerShouldPreempt (some (s.task 1)) (some (s.task 0)))
    (by decide +kernel)
  obtain ⟨here, queued, arrived, notified, preempts⟩ := of_decide_eq_true seen
  exact ⟨s, run, ⟨_, here, queued, arrived, notified, preempts⟩, run_preemption_seen run⟩

/-- A shell command arrives between the peek of a demo and `scheduler_set_current_task`. -/
theorem early_arrival_missed : ¬ ∀ s, ServerRun Machine.always s → PreemptionSeen s := by
  intro claimed
  obtain ⟨s, run, seen⟩ := serverRun_by Machine.always
    (Event.connect 5 ++ Event.connect 6 ++ Event.submit 1 "demo 9" ++ Event.schedule 2 ++
      Event.submit 2 "ls" ++ Event.schedule 7)
    (fun s => s.pc = .check ⟨0, 0, 3, 0⟩ ∧ 1 ∈ s.queue ∧ 1 ∈ s.arrivals ∧
      s.worker (s.task 1).clientId ≠ .notify 1 ∧ schedulerShouldPreempt (some (s.task 1)) (some (s.task 0)) ∧
      s.schedulerCheckPreempt = false)
    (by decide +kernel)
  obtain ⟨here, queued, arrived, notified, preempts, missed⟩ := of_decide_eq_true seen
  rw [claimed s run _ 1 here ⟨queued, arrived, notified, preempts⟩] at missed
  cases missed

end MyShell
