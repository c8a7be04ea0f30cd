import MyShell.Server.Dispatch

/-! # Clients that have left

`remove_tasks_for_client` empties the queue of the tasks of its client. A task that the scheduler
runs at that moment is not in the queue, and comes back to it when its quantum is over. -/

namespace MyShell

open State

def WorkerPc.removed : WorkerPc → Bool
  | .close | .logDisconnected | .done => true
  | _ => false

/-- The scheduler does not give a task back to the queue whose client has left. -/
def requeuesPresent (s : State) : Event → Bool
  | .sched _ =>
    match s.pc with
    | .requeue t => !(s.worker (s.task t).clientId).removed
    | _ => true
  | _ => true

/-- No task of the client waits, and none was dispatched on the way from `s` to `t`. -/
structure StaysOut (c : ClientId) (s t : State) : Prop where
  queue : ∀ p ∈ t.queue, (t.task p).clientId ≠ c
  dispatches : ∃ newer, t.dispatches.map (·.picked) = newer ++ s.dispatches.map (·.picked) ∧
    ∀ task ∈ newer, task.clientId ≠ c

def QueuePresent (s : State) : Prop := ∀ p ∈ s.queue, (s.worker (s.task p).clientId).removed = false

variable {s t : State} {a : Answer} {c : ClientId} {e : Event} {p : Ptr}

theorem schedStep_present (ok : QueuePresent s) (met : requeuesPresent s (.sched a) = true)
    (taken : SchedStep s a t) : QueuePresent t := by
  have frame := taken.frame
  have kept : ∀ p, (s.worker (s.task p).clientId).removed = false → (t.worker (t.task p).clientId).removed = false :=
    fun p present => by rwa [frame.worker, (frame.later p).clientId]
  have sub : ∀ p ∈ t.queue, p ∈ s.queue ∨ s.pc = .requeue p := by
    cases taken with
    | dequeue here found =>
      exact fun p member => .inl ((dequeue_mem found p).mpr (.inr member))
    | requeue here =>
      intro p member
      rcases List.mem_append.mp member with old | new
      · exact .inl old
      · exact .inr (List.mem_singleton.mp new ▸ here)
    | _ => exact fun p member => .inl (by simpa using member)
  intro p member
  rcases sub p member with old | here
  · exact kept p (ok p old)
  · simp only [requeuesPresent, here, Bool.not_eq_true'] at met
    exact kept p met

theorem WorkerStep.removed (taken : WorkerStep s c a t) (other : s.worker c ≠ .remove) :
    (t.worker c).removed = (s.worker c).removed := by
  cases taken <;> simp_all [WorkerPc.removed]

theorem step_removed (clients : ClientsOk s) (taken : Step s e t) (gone : (s.worker c).removed = true) :
    (t.worker c).removed = true := by
  cases taken with
  | sched taken => rwa [taken.frame.worker]
  | @worker c' a _ taken =>
    by_cases same : c = c'
    · subst same
      rwa [taken.removed fun here => by simp [here, WorkerPc.removed] at gone]
    · rwa [taken.frame.worker c same]
  | main taken =>
    have running : s.main ≠ .spawn c := fun here => by simp [(clients.spawning c here).2, WorkerPc.removed] at gone
    rwa [taken.worker running]

theorem workerStep_present (ok : QueuePresent s) (inv : Inv s) (taken : WorkerStep s c a t) :
    QueuePresent t := by
  have frame := taken.frame
  have kept : ∀ p ∈ s.queue, s.worker c ≠ .remove → (t.worker (t.task p).clientId).removed = false := by
    intro p member other
    rw [(frame.later p (inv.owned.queued p member).1).clientId]
    by_cases same : (s.task p).clientId = c
    · rw [same, taken.removed other, ← same]
      exact ok p member
    · rw [frame.worker _ same]
      exact ok p member
  cases taken with
  | remove here =>
    intro p member
    obtain ⟨queued, other⟩ := List.mem_filter.mp member
    have other : (s.task p).clientId ≠ c := of_decide_eq_true other
    simpa [other] using ok p queued
  | @enqueue p here =>
    intro q member
    rcases List.mem_append.mp member with old | new
    · exact kept q old (by simp [here])
    · have mine := (inv.owned.passed c p (by rw [here]; rfl)).2
      simp [List.mem_singleton.mp new, mine, WorkerPc.removed]
  | _ => exact fun p member => kept p (by simpa using member) (by simp [‹s.worker c = _›])

theorem step_present (ok : QueuePresent s) (inv : Inv s) (met : requeuesPresent s e = true)
    (taken : Step s e t) : QueuePresent t := by
  cases taken with
  | sched taken => exact schedStep_present ok met taken
  | worker taken => exact workerStep_present ok inv taken
  | main taken =>
    have frame := taken.frame
    intro p member
    rw [frame.queue] at member
    rw [frame.task]
    cases taken with
    | @spawn c here =>
      by_cases same : (s.task p).clientId = c
      · simp [same, WorkerPc.removed]
      · simpa [same] using ok p member
    | _ => exact ok p member

theorem run_present (run : ServerRun (requeuesPresent · ·) s) : QueuePresent s :=
  run.invariant_of run_inv (by simp [QueuePresent, State.initial])
    fun inv _ ok met taken => step_present ok inv met (step_cases taken)

/-- Where only tasks of present clients are given back to the queue, a client that has left stays out
of it for ever. -/
theorem removed_client_staysOut (before : ServerRun (requeuesPresent · ·) s)
    (gone : (s.worker c).removed = true) (after : Machine.Run step (requeuesPresent · ·) s t) :
    StaysOut c s t := by
  have out : ∀ {u}, ServerRun (requeuesPresent · ·) u → (u.worker c).removed = true →
      ∀ p ∈ u.queue, (u.task p).clientId ≠ c := by
    rintro u run gone p member rfl
    simp [run_present run p member] at gone
  have kept : (t.worker c).removed = true ∧ StaysOut c s t := by
    refine after.invariant_of (I := fun u => (u.worker c).removed = true ∧ StaysOut c s u)
      (J := ServerRun (requeuesPresent · ·)) (fun run => before.trans run)
      ⟨gone, out before gone, [], rfl, by simp⟩ fun {u e v} here there old met taken => ?_
    have inv := run_inv here
    have taken := step_cases taken
    have left := step_removed inv.clients taken old.1
    obtain ⟨newer, split, others⟩ := old.2.dispatches
    refine ⟨left, out there left, ?_⟩
    rcases step_dispatched inv taken with same | ⟨p, member, more⟩
    · exact ⟨newer, same.trans split, others⟩
    · refine ⟨u.task p :: newer, by rw [more, split, List.cons_append], fun task picked => ?_⟩
      rcases List.mem_cons.mp picked with rfl | old'
      · exact out here old.1 p member
      · exact others task old'
  exact kept.2

theorem removed_client_staysOut_idle : ∃ s t, ServerRun (requeuesPresent · ·) s ∧ s.worker 1 = .close ∧
    Machine.Run step (requeuesPresent · ·) s t ∧ t.pc = .idle ∧ StaysOut 1 s t := by
  obtain ⟨s, run, seen⟩ := serverRun_by (requeuesPresent · ·)
    (Event.connect 5 ++ Event.submit 1 "demo 5" ++ Event.leave 1)
    (fun s => s.worker 1 = .close ∧
      (Machine.follow step (requeuesPresent · ·) s (Event.schedule 2)).any fun t => t.pc = .idle) (by decide +kernel)
  obtain ⟨gone, later⟩ := of_decide_eq_true seen
  obtain ⟨t, after, idle⟩ := Machine.exists_run _ later
  exact ⟨s, t, run, gone, after, of_decide_eq_true idle,
    removed_client_staysOut run (by rw [gone]; rfl) after⟩

/-- The client leaves while its demo runs, and the demo is queued again at the end of the quantum. -/
theorem running_demo_returns : ¬ ∀ c s t, ServerRun Machine.always s → (s.worker c).removed = true →
    Machine.Reach step s t → StaysOut c s t := by
  intro claimed
  obtain ⟨s, run, seen⟩ := serverRun_by Machine.always
    (Event.connect 5 ++ Event.submit 1 "demo 5" ++ Event.schedule 8 ++ Event.leave 1 ++ Event.schedule 13)
    (fun s => s.worker 1 = .close ∧ 0 ∈ s.queue ∧ (s.task 0).clientId = 1) (by decide +kernel)
  obtain ⟨gone, queued, mine⟩ := of_decide_eq_true seen
  exact (claimed 1 s s run (by rw [gone]; rfl) .refl).queue 0 queued mine

end MyShell
