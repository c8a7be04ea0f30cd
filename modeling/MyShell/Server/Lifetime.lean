import MyShell.Server.Ownership

/-! # Released tasks

A task is freed in two places: when the scheduler has completed it, and when its client leaves
while it is queued. This module says which steps read a task and in which windows another thread
frees it in between. -/

namespace MyShell

open State

/-- The tasks that a step may read or write a field of. -/
def accesses (s : State) : Event → Ptr → Prop
  | .sched _, t =>
    match s.pc with
    -- a walk through the list, or an append that writes `next` of its tail
    | .peek | .dequeue _ _ => t ∈ s.queue
    | .requeue u => t = u ∨ t ∈ s.queue
    | .readId u => t = u
    | pc => pc.held = some t
  | .worker c _, t =>
    match s.worker c with
    | .enqueue u => t = u ∨ t ∈ s.queue
    | .notify u => t = u ∨ s.sched.currentTask = some t
    | .logCreated u => t = u
    | .remove => t ∈ s.queue
    | _ => False
  | .main _, _ => False

def frees (s : State) : Event → Ptr → Prop
  | .sched _, t => ∃ e, s.pc = .release t e
  | .worker c _, t => s.worker c = .remove ∧ t ∈ tasksOfClient s.task c s.queue
  | .main _, _ => False

/-- The step touches no released task and releases none again. -/
def TouchesLive (s : State) (e : Event) : Prop := ∀ p, accesses s e p ∨ frees s e p → s.status p ≠ .released

/-- The step does not fall into a window in which a task is freed under a thread that refers to it:
a client leaves between the peek of its task and the read of its id, the scheduler completes a
task whose worker has still to notify it or to log its burst, or a notification comes between the
end of the current task and `scheduler_clear_current_task`. -/
def keepsReferences (s : State) : Event → Bool
  | .sched _ =>
    match s.pc with
    | .release t _ => (s.worker (s.task t).clientId).task ≠ some t
    | _ => true
  | .worker c _ =>
    match s.worker c, s.pc with
    | .remove, .readId t => (s.task t).clientId ≠ c
    | .notify _, .clearCurrent t e => t ∈ s.queue ∨ e = .shellFailed
    | _, _ => true
  | .main _ => true

/-- The references that threads keep across the sections of others are to live tasks. -/
structure RefsLive (s : State) : Prop where
  passed : ∀ c p, (s.worker c).task = some p → s.status p ≠ .released
  peeked : ∀ p, s.pc = .readId p → s.status p ≠ .released
  failed : ∀ p, s.pc = .clearCurrent p .shellFailed → p < s.allocated ∧ s.status p = .held

variable {s t : State} {a : Answer} {c : ClientId} {e : Event} {p : Ptr}

theorem RefsLive.schedMove (ok : RefsLive s) (worker : t.worker = s.worker)
    (status : ∀ p, s.status p ≠ .released → t.status p ≠ .released)
    (peeked : ∀ p, t.pc ≠ .readId p) (failed : ∀ p, t.pc ≠ .clearCurrent p .shellFailed) : RefsLive t where
  passed c p here := by
    rw [worker] at here
    exact status p (ok.passed c p here)
  peeked p here := absurd here (peeked p)
  failed p here := absurd here (failed p)

theorem schedStep_refs (ok : RefsLive s) (inv : Inv s) (met : keepsReferences s (.sched a) = true)
    (taken : SchedStep s a t) : RefsLive t := by
  have frame := taken.frame
  cases taken with
  | peek here found =>
    refine ⟨ok.passed, fun p same => ?_, by simp⟩
    cases same
    simp [(inv.owned.queued _ (peek_mem found)).2]
  | pipeFailed here | forkFailed here =>
    refine ⟨ok.passed, by simp, fun p same => ?_⟩
    have held := inv.owned.held _ (by rw [here]; rfl)
    cases same
    simpa using held
  | @release p e here =>
    refine ⟨fun c q passing => ?_, by simp, fun q same => ?_⟩
    · have mine := (inv.owned.passed c q passing).2
      have other : q ≠ p := by
        rintro rfl
        simp only [keepsReferences, here, mine] at met
        exact of_decide_eq_true met passing
      simpa [other] using ok.passed c q passing
    · -- a task that is freed has come to its END_MARKER
      have ending := inv.runs.ending
      rw [here] at ending
      cases same
      rcases ending with h | h <;> cases h
  | update =>
    exact ok.schedMove frame.worker (by simp) (fun _ => ne_of_held (afterUpdate_held _ _) rfl)
      fun _ => ne_of_held (afterUpdate_held _ _) rfl
  | check =>
    exact ok.schedMove frame.worker (by simp) (fun _ => ne_of_held (afterCheck_held _ _) rfl)
      fun _ => ne_of_held (afterCheck_held _ _) rfl
  | countRound =>
    exact ok.schedMove frame.worker (by simp) (fun _ => ne_of_held (afterQuantum_held _ _) rfl)
      fun _ => ne_of_held (afterQuantum_held _ _) rfl
  | dequeue | requeue =>
    refine ok.schedMove frame.worker (fun p live => ?_) (by simp) (by simp)
    simp only [setPc_status, dequeued_status, enqueueTaskRequeue, onDispatch_status, setStatus_status,
      setQueue_status, Function.update_apply]
    split <;> simp_all
  | relay here => exact ok.schedMove frame.worker (by simp) (by simp [here]) (by simp [here])
  | _ => exact ok.schedMove frame.worker (by simp) (by simp) (by simp)

theorem RefsLive.workerMove (ok : RefsLive s) (frame : WorkerFrame s t c)
    (allocated : s.allocated ≤ t.allocated) (mine : ∀ p, (t.worker c).task = some p → t.status p ≠ .released)
    (others : ∀ c' ≠ c, ∀ p, (s.worker c').task = some p → t.status p ≠ .released)
    (peeked : ∀ p, s.pc = .readId p → t.status p ≠ .released)
    (held : ∀ p < s.allocated, s.status p = .held → t.status p = .held) : RefsLive t where
  passed c' p here := by
    by_cases same : c' = c
    · exact mine p (same ▸ here)
    · rw [frame.worker c' same] at here
      exact others c' same p here
  peeked p here := peeked p (frame.pc ▸ here)
  failed p here := by
    rw [frame.pc] at here
    have failed := ok.failed p here
    exact ⟨Nat.lt_of_lt_of_le failed.1 allocated, held p failed.1 failed.2⟩

theorem workerStep_refs (ok : RefsLive s) (inv : Inv s) (met : keepsReferences s (.worker c a) = true)
    (taken : WorkerStep s c a t) : RefsLive t := by
  have frame := taken.frame
  have peekOk := inv.owned.peeked
  cases taken with
  | remove here =>
    have kept : ∀ p, p ∉ tasksOfClient s.task c s.queue →
        (s.removeTasksForClient c).status p = s.status p := fun p other => by simp [other]
    refine ok.workerMove frame (Nat.le_refl _) (by simp [WorkerPc.task]) (fun c' same p passing => ?_)
      (fun p peeked => ?_) fun p _ held => ?_
    · have other : p ∉ tasksOfClient s.task c s.queue := fun member => by
        simp only [tasksOfClient, List.mem_filter, decide_eq_true_eq] at member
        exact same ((inv.owned.passed c' p passing).2.symm.trans member.2)
      rw [setWorker_status, kept p other]
      exact ok.passed c' p passing
    · simp only [keepsReferences, here, peeked] at met
      have other : p ∉ tasksOfClient s.task c s.queue := fun member => by
        simp only [tasksOfClient, List.mem_filter, decide_eq_true_eq] at member
        exact of_decide_eq_true met member.2
      rw [setWorker_status, kept p other]
      exact ok.peeked p peeked
    · have other : p ∉ tasksOfClient s.task c s.queue := fun member => by
        simp [(inv.owned.queued p (List.mem_filter.mp member).1).2] at held
      rw [setWorker_status, kept p other]
      exact held
  | @create command here =>
    have kept : ∀ p < s.allocated, (s.createTask c command).status p = s.status p := fun p old => by
      simp [Nat.ne_of_lt old]
    refine ok.workerMove frame (Nat.le_succ _) (fun p passing => ?_) (fun c' _ p passing => ?_)
      (fun p peeked => ?_) fun p old held => (kept p old).trans held
    · obtain rfl : s.allocated = p := by simpa [WorkerPc.task] using passing
      simp
    · exact (kept p (inv.owned.passed c' p passing).1).symm ▸ ok.passed c' p passing
    · rw [peeked] at peekOk
      exact (kept p peekOk).symm ▸ ok.peeked p peeked
  | @enqueue p here =>
    have live : ∀ q, s.status q ≠ .released → (s.enqueueTask p).status q ≠ .released := fun q live => by
      simp only [enqueueTask_status, Function.update_apply]
      split <;> simp_all
    have created := (inv.owned.created c p here).2
    refine ok.workerMove frame (Nat.le_refl _) (fun q passing => ?_)
      (fun c' _ q passing => live q (ok.passed c' q passing)) (fun q peeked => live q (ok.peeked q peeked))
      fun q _ held => ?_
    · obtain rfl : p = q := by simpa [WorkerPc.task] using passing
      simp
    · have other : q ≠ p := by
        rintro rfl
        simp [created] at held
      simpa [other] using held
  | notify here =>
    refine ok.workerMove frame (Nat.le_refl _) (fun p passing => ok.passed c p ?_)
      (fun c' _ p passing => ok.passed c' p passing) (fun p peeked => ok.peeked p peeked) fun _ _ held => held
    simpa [here, WorkerPc.task] using passing
  | _ =>
    exact ok.workerMove frame (by simp) (by simp [WorkerPc.task])
      (fun c' _ p passing => by simpa using ok.passed c' p passing)
      (fun p peeked => by simpa using ok.peeked p peeked) (by simp)

theorem step_refs (ok : RefsLive s) (inv : Inv s) (met : keepsReferences s e = true) (taken : Step s e t) :
    RefsLive t := by
  cases taken with
  | sched taken => exact schedStep_refs ok inv met taken
  | worker taken => exact workerStep_refs ok inv met taken
  | main taken =>
    cases taken with
    | @spawn c here =>
      refine ⟨fun c' p passing => ?_, ok.peeked, ok.failed⟩
      by_cases same : c' = c
      · subst same; simp [WorkerPc.task] at passing
      · exact ok.passed c' p (by simpa [same] using passing)
    | _ => exact ⟨ok.passed, ok.peeked, ok.failed⟩

theorem run_refs (run : ServerRun (keepsReferences · ·) s) : RefsLive s :=
  run.invariant_of run_inv ⟨by simp [State.initial, WorkerPc.task], by simp [State.initial], by simp [State.initial]⟩
    fun inv _ ok met taken => step_refs ok inv met (step_cases taken)

theorem current_live (ok : RefsLive s) (inv : Inv s) (current : s.sched.currentTask = some p)
    (met : ∀ u x, s.pc = .clearCurrent u x → u ∈ s.queue ∨ x = .shellFailed) : s.status p ≠ .released := by
  rw [inv.runs.current] at current
  by_cases given : ∃ u x, s.pc = .clearCurrent u x
  · obtain ⟨u, x, here⟩ := given
    rw [here] at current
    obtain rfl : u = p := by simpa [SchedPc.current] using current
    rcases met u x here with queued | rfl
    · simp [(inv.owned.queued u queued).2]
    · simp [(ok.failed u here).2]
  · have held : s.pc.held = some p := by
      revert current given
      cases s.pc <;> simp [SchedPc.current]
    simp [(inv.owned.held p held).2]

/-- In a run without such a window no step reads a released task and none is released twice. -/
theorem run_touches_live (run : ServerRun (keepsReferences · ·) s) (met : keepsReferences s e = true) :
    TouchesLive s e := by
  have inv := run_inv run
  have ok := run_refs run
  have queued : ∀ p ∈ s.queue, s.status p ≠ .released := fun p member => by
    simp [(inv.owned.queued p member).2]
  have held : ∀ p, s.pc.held = some p → s.status p ≠ .released := fun p here => by
    simp [(inv.owned.held p here).2]
  rintro p (reads | releases)
  · cases e with
    | sched a =>
      simp only [accesses] at reads
      split at reads
      · exact queued p reads
      · exact queued p reads
      · rename_i u here
        rcases reads with rfl | member
        · exact held p (by rw [here]; rfl)
        · exact queued p member
      · exact reads ▸ ok.peeked _ ‹_›
      · exact held p reads
    | worker c a =>
      simp only [accesses] at reads
      split at reads
      · rename_i u here
        rcases reads with rfl | member
        · exact ok.passed c p (by rw [here]; rfl)
        · exact queued p member
      · rename_i u here
        rcases reads with rfl | current
        · exact ok.passed c p (by rw [here]; rfl)
        · refine current_live ok inv current fun u x there => ?_
          simpa [keepsReferences, here, there] using met
      · rename_i u here
        exact reads ▸ ok.passed c u (by rw [here]; rfl)
      · exact queued p reads
      · exact absurd reads id
    | main a => exact absurd reads id
  · cases e with
    | sched a =>
      obtain ⟨x, here⟩ := releases
      exact held p (by rw [here]; rfl)
    | worker c a => exact queued p (List.mem_filter.mp releases.2).1
    | main a => exact absurd releases id

theorem run_touches_live_peeked : ∃ s, ServerRun (keepsReferences · ·) s ∧ s.pc = .readId 0 ∧
    TouchesLive s (.sched {}) := by
  obtain ⟨s, run, seen⟩ := serverRun_by (keepsReferences · ·)
    (Event.connect 5 ++ Event.submit 1 "ls" ++ Event.schedule 2)
    (fun s => s.pc = .readId 0 ∧ keepsReferences s (.sched {})) (by decide +kernel)
  obtain ⟨here, met⟩ := of_decide_eq_true seen
  exact ⟨s, run, here, run_touches_live run met⟩

/-- The client leaves after its task was peeked, and the scheduler reads the id of a freed task. -/
theorem peeked_task_released : ¬ ∀ s e, ServerRun Machine.always s → (step s e).isSome → TouchesLive s e := by
  intro claimed
  obtain ⟨s, run, seen⟩ := serverRun_by Machine.always
    (Event.connect 5 ++ Event.submit 1 "ls" ++ Event.schedule 2 ++ Event.leave 1)
    (fun s => s.pc = .readId 0 ∧ s.status 0 = .released) (by decide +kernel)
  obtain ⟨here, released⟩ := of_decide_eq_true seen
  have possible : (step s (.sched {})).isSome := by simp [step, schedStep, here]
  exact claimed s (.sched {}) run possible 0 (.inl (by simp [accesses, here])) released

end MyShell
