import MyShell.Server.Dispatch

/-! # Where a task is

A task that is not freed is with the worker that created it, in the queue or with the scheduler, and in
one of these places only. The exception is a shell command whose process could not be started. -/

namespace MyShell

open State

/-- A dispatch of the task ended without a process for it. -/
def State.Lost (s : State) (p : Ptr) : Prop := ∃ d ∈ s.dispatches, d.task = p ∧ d.spawned = false

instance {s : State} {p : Ptr} : Decidable (s.Lost p) :=
  inferInstanceAs (Decidable (∃ d ∈ s.dispatches, d.task = p ∧ d.spawned = false))

structure Placed (s : State) : Prop where
  created : ∀ p < s.allocated, s.status p = .created → ∃ c, s.worker c = .enqueue p
  queued : ∀ p < s.allocated, s.status p = .queued → p ∈ s.queue
  held : ∀ p < s.allocated, s.status p = .held → s.pc.held = some p ∨ s.Lost p
  lost : ∀ p, s.Lost p → s.status p = .held ∧ s.pc.held ≠ some p

variable {s t : State} {a : Answer} {c : ClientId} {e : Event} {p : Ptr}

theorem SchedStep.lost (taken : SchedStep s a t) (noPipe : ∀ p, s.pc ≠ .pipe p) (noFork : ∀ p r w, s.pc ≠ .fork p r w) :
    t.Lost p ↔ s.Lost p := by
  have kept : ∀ f : Dispatch → Dispatch, (∀ d, (f d).task = d.task ∧ (f d).spawned = d.spawned) →
      t.dispatches = s.dispatches.modifyHead f → (t.Lost p ↔ s.Lost p) := by
    intro f same marked
    unfold State.Lost
    rw [marked]
    cases s.dispatches with
    | nil => simp
    | cons d older => simp [(same d).1, (same d).2]
  cases taken with
  | dequeue => simp [State.Lost]
  | pipeFailed here => exact absurd here (noPipe _)
  | forkFailed here => exact absurd here (noFork _ _ _)
  | update | sendMarker | complete | release | requeue | clearCurrentShell | clearFlag =>
    refine kept _ ?_ (by simp only [setPc_dispatches, onDispatch_dispatches]; rfl)
    exact fun _ => ⟨rfl, rfl⟩
  | _ => exact kept id (fun _ => ⟨rfl, rfl⟩) (by simp)

theorem Placed.move (ok : Placed s) (allocated : t.allocated = s.allocated)
    (worker : ∀ c p, s.worker c = .enqueue p → t.worker c = .enqueue p) (status : t.status = s.status)
    (queue : t.queue = s.queue)
    (held : t.pc.held = s.pc.held) (lost : ∀ p, t.Lost p ↔ s.Lost p) : Placed t where
  created p old here := by
    rw [allocated] at old
    obtain ⟨c, creating⟩ := ok.created p old (status ▸ here)
    exact ⟨c, worker c p creating⟩
  queued p old here := by
    rw [allocated] at old
    rw [queue]
    exact ok.queued p old (status ▸ here)
  held p old here := by
    rw [allocated] at old
    rw [held, lost]
    exact ok.held p old (status ▸ here)
  lost p here := by
    rw [status, held]
    exact ok.lost p ((lost p).mp here)

theorem lost_of_givenUp (dispatches : DispatchesOk s) (here : s.pc.held = some p)
    (marked : t.dispatches = s.dispatches.modifyHead ({ · with spawned := false })) (q : Ptr) :
    t.Lost q ↔ q = p ∨ s.Lost q := by
  obtain ⟨d, older, split, running⟩ := dispatches.running p (dispatching_of_held here)
  simp only [State.Lost, marked, split, List.modifyHead_cons, List.exists_mem_cons_iff, running.task, and_true]
  tauto

theorem Placed.giveUp (ok : Placed s) (inv : Inv s) (dispatches : DispatchesOk s) (frame : SchedFrame s t)
    (here : s.pc.held = some p) (gone : t.pc.held = none) (status : t.status = s.status) (queue : t.queue = s.queue)
    (marked : t.dispatches = s.dispatches.modifyHead ({ · with spawned := false })) : Placed t := by
  have lost := lost_of_givenUp dispatches here marked
  refine ⟨fun q old there => ?_, fun q old there => ?_, fun q old there => ?_, fun q there => ?_⟩
  · rw [frame.allocated] at old
    rw [frame.worker]
    exact ok.created q old (status ▸ there)
  · rw [frame.allocated] at old
    rw [queue]
    exact ok.queued q old (status ▸ there)
  · rw [frame.allocated] at old
    rw [lost]
    rcases ok.held q old (status ▸ there) with held | before
    · exact .inr (.inl (Option.some.inj (held.symm.trans here)))
    · exact .inr (.inr before)
  · rw [status, gone]
    rcases (lost q).mp there with rfl | before
    · exact ⟨(inv.owned.held q here).2, nofun⟩
    · exact ⟨(ok.lost q before).1, nofun⟩

theorem Placed.pass (ok : Placed s) (moved : ∀ q, q ≠ p → t.status q = s.status q)
    (allocated : t.allocated = s.allocated)
    (worker : ∀ c q, q ≠ p → s.worker c = .enqueue q → t.worker c = .enqueue q)
    (queue : ∀ q, q ≠ p → q ∈ s.queue → q ∈ t.queue)
    (held : ∀ q, q ≠ p → s.pc.held = some q → t.pc.held = some q)
    (keeps : ∀ q, q ≠ p → t.pc.held = some q → s.pc.held = some q)
    (lost : ∀ q, t.Lost q ↔ s.Lost q) (here : ¬s.Lost p)
    (placed : t.status p = .queued ∧ p ∈ t.queue ∨ t.status p = .held ∧ t.pc.held = some p ∨ t.status p = .released) :
    Placed t where
  created q old there := by
    rw [allocated] at old
    by_cases this : q = p
    · subst this
      rcases placed with ⟨status, -⟩ | ⟨status, -⟩ | status <;> simp [status] at there
    · rw [moved q this] at there
      obtain ⟨c, creating⟩ := ok.created q old there
      exact ⟨c, worker c q this creating⟩
  queued q old there := by
    rw [allocated] at old
    by_cases this : q = p
    · subst this
      rcases placed with ⟨-, member⟩ | ⟨status, -⟩ | status
      · exact member
      · simp [status] at there
      · simp [status] at there
    · rw [moved q this] at there
      exact queue q this (ok.queued q old there)
  held q old there := by
    rw [allocated] at old
    by_cases this : q = p
    · subst this
      rcases placed with ⟨status, -⟩ | ⟨-, running⟩ | status
      · simp [status] at there
      · exact .inl running
      · simp [status] at there
    · rw [moved q this] at there
      rw [lost]
      exact (ok.held q old there).imp (held q this) id
  lost q there := by
    have before := (lost q).mp there
    have this : q ≠ p := by
      rintro rfl
      exact here before
    rw [moved q this]
    exact ⟨(ok.lost q before).1, fun running => (ok.lost q before).2 (keeps q this running)⟩

theorem schedStep_placed (ok : Placed s) (inv : Inv s) (dispatches : DispatchesOk s) (taken : SchedStep s a t) :
    Placed t := by
  have frame := taken.frame
  have lost := fun q => taken.lost (p := q)
  have move := ok.move (t := t) frame.allocated fun c p creating => frame.worker ▸ creating
  cases taken with
  | @dequeue p id removed rest here found =>
    obtain ⟨rfl, member, -⟩ := inv.owned.dequeue inv.tasks here found
    have queued := (inv.owned.queued removed member).2
    refine ok.pass (p := removed) (fun q other => by simp [other]) rfl (fun _ _ _ creating => creating)
      (fun q other old => ?_) (fun q _ held => ?_) (fun q other held => ?_)
      (fun q => lost q (by simp [here]) (by simp [here])) (fun lost => ?_) (by simp [SchedPc.held])
    · simpa [other] using (dequeue_mem found q).mp old
    · simp [here, SchedPc.held] at held
    · exact absurd (Option.some.inj held).symm other
    · simp [(ok.lost removed lost).1] at queued
  | @requeue p here | @release p e here =>
    refine ok.pass (p := p) (fun q other => by simp [other]) rfl (fun _ _ _ creating => creating)
      (fun q other old => by simp [old]) (fun q other running => ?_) (fun q other running => ?_)
      (fun q => lost q (by simp [here]) (by simp [here])) (fun lost => ?_) (by simp)
    · rw [here] at running
      exact absurd (Option.some.inj running).symm other
    · cases running
    · exact (ok.lost p lost).2 (by rw [here]; rfl)
  | pipeFailed here | forkFailed here =>
    exact ok.giveUp inv dispatches frame (by rw [here]; rfl) rfl (by simp) (by simp) (by simp)
  | pipe here | fork here => exact move (by simp) (by simp) (by rw [here]; rfl) fun _ => Iff.rfl
  | update here =>
    exact move (by simp) (by simp) (by rw [here]; exact afterUpdate_held _ _) fun q => lost q (by simp [here]) (by simp [here])
  | check here => exact move rfl rfl (by rw [here]; exact afterCheck_held _ _) fun _ => Iff.rfl
  | countRound here => exact move rfl rfl (by rw [here]; exact afterQuantum_held _ _) fun _ => Iff.rfl
  | relay here => exact move rfl rfl rfl fun _ => Iff.rfl
  | _ =>
    have here := ‹s.pc = _›
    exact move rfl rfl (by rw [here]; rfl) fun q => lost q (by simp [here]) (by simp [here])

theorem workerStep_placed (ok : Placed s) (inv : Inv s) (picked : PickedOk s) (taken : WorkerStep s c a t) :
    Placed t := by
  have frame := taken.frame
  have lost : ∀ q, t.Lost q ↔ s.Lost q := fun q => by rw [State.Lost, frame.dispatches]; exact Iff.rfl
  have others : ∀ c' q, s.worker c' = .enqueue q → s.worker c ≠ .enqueue q → t.worker c' = .enqueue q := by
    intro c' q creating mine
    rwa [frame.worker c' fun same => mine (same ▸ creating)]
  cases taken with
  | @create command here =>
    have old : ∀ q, s.Lost q → q ≠ s.allocated := by
      rintro _ ⟨d, member, rfl, -⟩
      exact Nat.ne_of_lt (picked d member).1
    have known : ∀ q < s.allocated + 1, q ≠ s.allocated → q < s.allocated := fun q bound other =>
      Nat.lt_of_le_of_ne (Nat.le_of_lt_succ bound) other
    refine ⟨fun q bound there => ?_, fun q bound there => ?_, fun q bound there => ?_, fun q there => ?_⟩
    · by_cases this : q = s.allocated
      · exact ⟨c, by simp [this]⟩
      · obtain ⟨c', creating⟩ := ok.created q (known q bound this) (by simpa [this] using there)
        exact ⟨c', others c' q creating (by simp [here])⟩
    · have this : q ≠ s.allocated := by
        rintro rfl
        simp at there
      exact ok.queued q (known q bound this) (by simpa [this] using there)
    · have this : q ≠ s.allocated := by
        rintro rfl
        simp at there
      exact ok.held q (known q bound this) (by simpa [this] using there)
    · simpa [old q ((lost q).mp there)] using ok.lost q ((lost q).mp there)
  | @enqueue p here =>
    have created := inv.owned.created c p here
    refine ok.pass (p := p) (fun q other => by simp [other]) rfl (fun c' q other creating => ?_)
      (fun q other old => by simp [old]) (fun q _ running => running) (fun q _ running => running) lost
      (fun lost => ?_) (by simp)
    · exact others c' q creating fun mine => other (WorkerPc.enqueue.inj (mine.symm.trans here))
    · simp [(ok.lost p lost).1] at created
  | remove here =>
    have queued : ∀ q ∈ tasksOfClient s.task c s.queue, s.status q = .queued := fun q member =>
      (inv.owned.queued q (List.mem_filter.mp member).1).2
    refine ⟨fun q old there => ?_, fun q old there => ?_, fun q old there => ?_, fun q there => ?_⟩
    · by_cases freed : q ∈ tasksOfClient s.task c s.queue
      · simp [freed] at there
      · obtain ⟨c', creating⟩ := ok.created q old (by simpa [freed] using there)
        exact ⟨c', others c' q creating (by simp [here])⟩
    · by_cases freed : q ∈ tasksOfClient s.task c s.queue
      · simp [freed] at there
      · have member := ok.queued q old (by simpa [freed] using there)
        refine List.mem_filter.mpr ⟨member, decide_eq_true fun mine => freed ?_⟩
        exact List.mem_filter.mpr ⟨member, decide_eq_true mine⟩
    · by_cases freed : q ∈ tasksOfClient s.task c s.queue
      · simp [freed] at there
      · exact ok.held q old (by simpa [freed] using there)
    · have before := ok.lost q ((lost q).mp there)
      have kept : q ∉ tasksOfClient s.task c s.queue := fun member => by simp [queued q member] at before
      simpa [kept] using before
  | _ =>
    have here := ‹s.worker _ = _›
    exact ok.move rfl (fun c' q creating => others c' q creating (by simp [here])) rfl rfl rfl lost

theorem step_placed (ok : Placed s) (inv : Inv s) (dispatches : DispatchesOk s) (picked : PickedOk s)
    (taken : Step s e t) : Placed t := by
  cases taken with
  | sched taken => exact schedStep_placed ok inv dispatches taken
  | worker taken => exact workerStep_placed ok inv picked taken
  | main taken =>
    have frame := taken.frame
    refine ok.move frame.allocated (fun c q creating => ?_) frame.status frame.queue (by rw [frame.pc])
      fun q => by rw [State.Lost, frame.dispatches]; exact Iff.rfl
    rwa [taken.worker]
    intro starting
    simp [(inv.clients.spawning c starting).2] at creating

theorem run_placed {ok : State → Event → Prop} (run : ServerRun ok s) : Placed s := by
  refine run.invariant_of (J := fun s => Inv s ∧ DispatchesOk s ∧ PickedOk s)
    (fun run => ⟨run_inv run, run_dispatches run, run_picked run⟩) ?_
    fun known _ ok _ taken => step_placed ok known.1 known.2.1 known.2.2 (step_cases taken)
  constructor <;> simp [State.initial, State.Lost]

/-- Every task that is not freed is in one place: with the worker that creates it, in the queue once, with
the scheduler, or lost since its process could not be started. -/
theorem run_one_place {ok : State → Event → Prop} (run : ServerRun ok s) {p : Ptr} (old : p < s.allocated) :
    (s.status p = .created ↔ ∃ c, s.worker c = .enqueue p) ∧ (s.status p = .queued ↔ s.queue.count p = 1) ∧
      (s.status p = .held ↔ (s.pc.held = some p ∨ s.Lost p)) ∧ ¬(s.pc.held = some p ∧ s.Lost p) := by
  have owned := (run_inv run).owned
  have placed := run_placed run
  refine ⟨⟨placed.created p old, fun ⟨c, here⟩ => (owned.created c p here).2⟩, ⟨fun queued => ?_, fun once => ?_⟩,
    ⟨placed.held p old, ?_⟩, fun ⟨held, lost⟩ => (placed.lost p lost).2 held⟩
  · rw [owned.nodup.count, if_pos (placed.queued p old queued)]
  · exact (owned.queued p (List.count_pos_iff.mp (once ▸ Nat.one_pos))).2
  · rintro (held | lost)
    · exact (owned.held p held).2
    · exact (placed.lost p lost).1

theorem run_one_place_lost : ∃ s, ServerRun Machine.always s ∧ s.pc = .peek ∧ s.status 0 = .held ∧ s.Lost 0 := by
  obtain ⟨s, run, seen⟩ := serverRun_by Machine.always
    (Event.connect 5 ++ Event.submit 1 "ls" ++ Event.schedule 9)
    (fun s => 0 < s.allocated ∧ s.pc = .peek ∧ s.status 0 = .held) (by decide +kernel)
  obtain ⟨old, here, held⟩ := of_decide_eq_true seen
  refine ⟨s, run, here, held, ((run_one_place run old).2.2.1.mp held).resolve_left ?_⟩
  simp [here, SchedPc.held]

end MyShell
