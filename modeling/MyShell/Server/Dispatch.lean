import MyShell.Server.Ownership

/-! # What becomes of a dispatched task

Every iteration of `scheduler_thread` that removes a task leaves its marks on a record of the
dispatch: END_MARKERs sent, completions counted, the task freed or queued again. The marks follow
from the program point the iteration has come to. -/

namespace MyShell

open State

structure Tally where
  endMarkers : Nat := 0
  completions : Nat := 0
  releases : Nat := 0
  requeues : Nat := 0
  spawned : Bool := true
  deriving DecidableEq

def Dispatch.tally (d : Dispatch) : Tally := ⟨d.endMarkers, d.completions, d.releases, d.requeues, d.spawned⟩

/-- `send_end_marker` was called once, whatever its `send` returned, the completion counted and the task freed. -/
def Dispatch.Completed (d : Dispatch) : Prop :=
  d.endMarkers = 1 ∧ d.completions = 1 ∧ d.releases = 1 ∧ d.requeues = 0

/-- The task was put back once, without an END_MARKER. -/
def Dispatch.Requeued (d : Dispatch) : Prop :=
  d.requeues = 1 ∧ d.endMarkers = 0 ∧ d.completions = 0 ∧ d.releases = 0

def Ending.tally : Ending → Tally
  | .shellDone | .demoDone => { endMarkers := 1, completions := 1, releases := 1 }
  | .shellFailed => { spawned := false }
  | .demoRequeued => { requeues := 1 }

def SchedPc.tally : SchedPc → Tally
  | .logBytes _ _ | .logEnded _ _ | .complete _ _ => { endMarkers := 1 }
  | .release _ _ => { endMarkers := 1, completions := 1 }
  | .clearCurrent _ e | .clearFlag _ e => e.tally
  | _ => {}

/-- The task of the iteration that the scheduler is in, from its removal to the end of the iteration. -/
def SchedPc.dispatching : SchedPc → Option Ptr
  | .clearCurrent t _ | .clearFlag t _ => some t
  | pc => pc.held

def State.past (s : State) : List Dispatch := if s.pc.dispatching.isSome then s.dispatches.tail else s.dispatches

/-- A dispatch that is over ended on one of the paths, and only a shell command fails to start. -/
def Dispatch.Settled (d : Dispatch) : Prop :=
  d.finished = true ∧ ∃ e : Ending, d.tally = e.tally ∧ (e = .shellFailed → d.picked.type = .shell)

structure Dispatch.Running (d : Dispatch) (pc : SchedPc) (p : Ptr) : Prop where
  task : d.task = p
  finished : d.finished = false
  tally : d.tally = pc.tally
  failed : d.spawned = false → d.picked.type = .shell

def PickedOk (s : State) : Prop := ∀ d ∈ s.dispatches, d.task < s.allocated ∧ d.picked.Later (s.task d.task)

structure DispatchesOk (s : State) : Prop where
  running : ∀ p, s.pc.dispatching = some p → ∃ d older, s.dispatches = d :: older ∧ d.Running s.pc p
  settled : ∀ d ∈ s.past, d.Settled

variable {s t : State} {a : Answer} {c : ClientId} {e : Event} {p : Ptr} {d : Dispatch}

theorem dispatching_of_held {pc : SchedPc} (here : pc.held = some p) : pc.dispatching = some p := by
  cases pc <;> first | exact here | cases here

/-! ### The records keep their task -/

structure Marks (f : Dispatch → Dispatch) : Prop where
  task : ∀ d, (f d).task = d.task
  picked : ∀ d, (f d).picked = d.picked
  queue : ∀ d, (f d).queue = d.queue

theorem SchedStep.dispatches (taken : SchedStep s a t) :
    (∃ f, Marks f ∧ t.dispatches = s.dispatches.modifyHead f) ∨
      ∃ p id removed rest, s.pc = .dequeue p id ∧ dequeueTaskById s.task id s.queue = some (removed, rest) ∧
        t.dispatches = { task := removed, picked := s.task removed, queue := s.peeked } :: s.dispatches := by
  cases taken with
  | dequeue here found => exact .inr ⟨_, _, _, _, here, found, rfl⟩
  | update | pipeFailed | forkFailed | sendMarker | complete | release | requeue | clearCurrentShell | clearFlag =>
    refine .inl ⟨_, ?_, by simp only [setPc_dispatches, onDispatch_dispatches]; rfl⟩
    exact ⟨fun _ => rfl, fun _ => rfl, fun _ => rfl⟩
  | _ => exact .inl ⟨id, ⟨fun _ => rfl, fun _ => rfl, fun _ => rfl⟩, by simp⟩

theorem Marks.mem {f : Dispatch → Dispatch} (marks : Marks f) {list : List Dispatch} (member : d ∈ list.modifyHead f) :
    ∃ d' ∈ list, d.task = d'.task ∧ d.picked = d'.picked ∧ d.queue = d'.queue := by
  cases list with
  | nil => cases member
  | cons head rest =>
    rcases List.mem_cons.mp member with rfl | old
    · exact ⟨head, List.mem_cons_self, marks.task head, marks.picked head, marks.queue head⟩
    · exact ⟨d, List.mem_cons_of_mem _ old, rfl, rfl, rfl⟩

theorem step_dispatched (inv : Inv s) (taken : Step s e t) :
    t.dispatches.map (·.picked) = s.dispatches.map (·.picked) ∨
      ∃ p ∈ s.queue, t.dispatches.map (·.picked) = s.task p :: s.dispatches.map (·.picked) := by
  cases taken with
  | worker taken => exact .inl (by rw [taken.frame.dispatches])
  | main taken => exact .inl (by rw [taken.frame.dispatches])
  | sched taken =>
    rcases taken.dispatches with ⟨f, marks, marked⟩ | ⟨p, id, removed, rest, here, found, begun⟩
    · left
      rw [marked]
      cases s.dispatches <;> simp [marks.picked]
    · obtain ⟨rfl, member, -⟩ := inv.owned.dequeue inv.tasks here found
      exact .inr ⟨removed, member, by rw [begun, List.map_cons]⟩

theorem step_picked (ok : PickedOk s) (inv : Inv s) (taken : Step s e t) : PickedOk t := by
  have more := step_allocated taken
  have kept : ∀ d ∈ s.dispatches, d.task < t.allocated ∧ d.picked.Later (t.task d.task) := fun d member =>
    ⟨Nat.lt_of_lt_of_le (ok d member).1 more, (ok d member).2.trans (step_later taken (ok d member).1)⟩
  cases taken with
  | worker taken => rwa [PickedOk, taken.frame.dispatches]
  | main taken => rwa [PickedOk, taken.frame.dispatches]
  | sched taken =>
    intro d member
    rcases taken.dispatches with ⟨f, marks, marked⟩ | ⟨p, id, removed, rest, here, found, begun⟩
    · obtain ⟨d', old, task, picked, -⟩ := marks.mem (marked ▸ member)
      rw [task, picked]
      exact kept d' old
    · rw [begun] at member
      rcases List.mem_cons.mp member with rfl | old
      · have queued := inv.owned.queued removed ((dequeue_mem found removed).mpr (.inl rfl))
        exact ⟨Nat.lt_of_lt_of_le queued.1 more, taken.frame.later removed⟩
      · exact kept d old

/-! ### The marks follow the program points -/

theorem DispatchesOk.mark (ok : DispatchesOk s) (here : s.pc.dispatching = some p)
    (there : t.pc.dispatching = some p) (f : Dispatch → Dispatch) (marked : t.dispatches = s.dispatches.modifyHead f)
    (kept : ∀ d ∈ s.dispatches, d.Running s.pc p → (f d).Running t.pc p) : DispatchesOk t := by
  obtain ⟨d, older, split, running⟩ := ok.running p here
  have settled := ok.settled
  simp only [State.past, here, split, Option.isSome_some, if_true, List.tail_cons] at settled
  rw [split, List.modifyHead_cons] at marked
  refine ⟨fun q same => ?_, ?_⟩
  · obtain rfl : p = q := Option.some.inj (there.symm.trans same)
    exact ⟨f d, older, marked, kept d (by simp [split]) running⟩
  · simpa only [State.past, there, marked, Option.isSome_some, if_true, List.tail_cons] using settled

theorem DispatchesOk.stay (ok : DispatchesOk s) (here : s.pc.dispatching = some p)
    (there : t.pc.dispatching = some p) (same : t.dispatches = s.dispatches) (tally : t.pc.tally = s.pc.tally) :
    DispatchesOk t :=
  ok.mark here there id (by simp [same]) fun _ _ running =>
    ⟨running.task, running.finished, running.tally.trans tally.symm, running.failed⟩

theorem DispatchesOk.outside (ok : DispatchesOk s) (here : s.pc.dispatching = none)
    (there : t.pc.dispatching = none) (same : t.dispatches = s.dispatches) : DispatchesOk t := by
  refine ⟨fun p running => by simp [there] at running, ?_⟩
  simpa [State.past, here, there, same] using ok.settled

theorem DispatchesOk.finish (ok : DispatchesOk s) (here : s.pc.dispatching = some p) {e : Ending}
    (tally : s.pc.tally = e.tally) (there : t.pc.dispatching = none)
    (marked : t.dispatches = s.dispatches.modifyHead ({ · with finished := true })) : DispatchesOk t := by
  obtain ⟨d, older, split, running⟩ := ok.running p here
  have settled := ok.settled
  simp only [State.past, here, split, Option.isSome_some, if_true, List.tail_cons] at settled
  rw [split, List.modifyHead_cons] at marked
  refine ⟨fun p running => by simp [there] at running, ?_⟩
  simp only [State.past, there, marked, Option.isSome_none, Bool.false_eq_true, if_false, List.mem_cons,
    forall_eq_or_imp]
  refine ⟨⟨rfl, e, running.tally.trans tally, ?_⟩, settled⟩
  rintro rfl
  exact running.failed (congrArg Tally.spawned (running.tally.trans tally))

@[simp] theorem afterUpdate_tally (r : Round) (done : Bool) : (afterUpdate r done).tally = {} := by
  cases done <;> rfl

@[simp] theorem afterCheck_tally (r : Round) (b : Bool) : (afterCheck r b).tally = {} := by
  rcases afterCheck_cases r b with ⟨_, -, same⟩ | same <;> rw [same] <;> rfl

@[simp] theorem afterQuantum_tally (q : Ptr) (o : Outcome) : (afterQuantum q o).tally = {} := by
  cases o <;> rfl

theorem failed_shell (inv : Inv s) (picked : PickedOk s) (shell : s.pc.shell = some p) (member : d ∈ s.dispatches)
    (task : d.task = p) : d.picked.type = .shell := by
  rw [← (picked d member).2.type, task]
  exact inv.runs.shell p shell

theorem schedStep_dispatches (ok : DispatchesOk s) (inv : Inv s) (picked : PickedOk s) (taken : SchedStep s a t) :
    DispatchesOk t := by
  cases taken with
  | init here | peekNone here | peek here | idle here | readId here | dequeueNone here =>
    exact ok.outside (by rw [here]; rfl) rfl rfl
  | dequeue here found =>
    obtain ⟨rfl, -, -⟩ := inv.owned.dequeue inv.tasks here found
    have settled := ok.settled
    rw [State.past, here] at settled
    refine ⟨fun p same => ?_, settled⟩
    cases same
    exact ⟨_, _, rfl, rfl, rfl, rfl, by simp⟩
  | pipeFailed here | forkFailed here =>
    refine ok.mark (by rw [here]; rfl) rfl _ rfl fun d member running => ?_
    have tally := running.tally
    have shell := failed_shell inv picked (by rw [here]; rfl) member running.task
    simp only [here, Dispatch.tally, SchedPc.tally, Tally.mk.injEq] at tally
    exact ⟨running.task, running.finished, by simp [Dispatch.tally, SchedPc.tally, Ending.tally, tally],
      fun _ => shell⟩
  | update here =>
    have here_tally : s.pc.tally = {} := by rw [here]; rfl
    refine ok.mark (by rw [here]; rfl) (dispatching_of_held (afterUpdate_held _ _)) _
      (by simp only [setPc_dispatches, onDispatch_dispatches]; rfl) fun d member running => ?_
    exact ⟨running.task, running.finished, by rw [setPc_pc, afterUpdate_tally, ← here_tally]; exact running.tally,
      running.failed⟩
  | check here =>
    exact ok.stay (by rw [here]; rfl) (dispatching_of_held (afterCheck_held _ _)) rfl
      (by rw [setPc_pc, afterCheck_tally, here]; rfl)
  | countRound here =>
    exact ok.stay (by rw [here]; rfl) (dispatching_of_held (afterQuantum_held _ _)) rfl
      (by rw [setPc_pc, afterQuantum_tally, here]; rfl)
  | sendMarker here | complete here | requeue here =>
    refine ok.mark (by rw [here]; rfl) rfl _ (by simp only [setPc_dispatches, onDispatch_dispatches]; rfl)
      fun d member running => ?_
    have tally := running.tally
    simp only [here, Dispatch.tally, SchedPc.tally, Tally.mk.injEq] at tally
    exact ⟨running.task, running.finished, by simp [Dispatch.tally, SchedPc.tally, Ending.tally, tally],
      running.failed⟩
  | @release p e here =>
    refine ok.mark (by rw [here]; rfl) rfl _ (by simp only [setPc_dispatches, onDispatch_dispatches]; rfl)
      fun d member running => ?_
    have tally := running.tally
    have ending := inv.runs.ending
    rw [here] at ending
    simp only [here, Dispatch.tally, SchedPc.tally, Tally.mk.injEq] at tally
    refine ⟨running.task, running.finished, ?_, running.failed⟩
    rcases ending with rfl | rfl <;> simp [Dispatch.tally, SchedPc.tally, Ending.tally, tally]
  | clearCurrentShell here ends => exact ok.finish (by rw [here]; rfl) (by rw [here]; rfl) rfl rfl
  | clearFlag here => exact ok.finish (by rw [here]; rfl) (by rw [here]; rfl) rfl rfl
  | relay here => exact ok.stay (by rw [here]; rfl) (by simp [here]; rfl) (by simp) (by simp)
  | _ => exact ok.stay (by rw [‹s.pc = _›]; rfl) rfl (by simp) (by rw [‹s.pc = _›]; rfl)

theorem step_dispatches (ok : DispatchesOk s) (inv : Inv s) (picked : PickedOk s) (taken : Step s e t) :
    DispatchesOk t := by
  cases taken with
  | sched taken => exact schedStep_dispatches ok inv picked taken
  | worker taken =>
    obtain ⟨running, settled⟩ := ok
    have frame := taken.frame
    constructor
    · rwa [frame.pc, frame.dispatches]
    · rwa [State.past, frame.pc, frame.dispatches]
  | main taken =>
    obtain ⟨running, settled⟩ := ok
    have frame := taken.frame
    constructor
    · rwa [frame.pc, frame.dispatches]
    · rwa [State.past, frame.pc, frame.dispatches]

section Run
variable {ok : State → Event → Prop}

theorem run_picked (run : ServerRun ok s) : PickedOk s :=
  run.invariant_of run_inv (by simp [PickedOk, State.initial]) fun inv _ ok _ taken =>
    step_picked ok inv (step_cases taken)

theorem run_dispatches (run : ServerRun ok s) : DispatchesOk s :=
  run.invariant_of (J := fun s => Inv s ∧ PickedOk s) (fun run => ⟨run_inv run, run_picked run⟩)
    ⟨fun p running => (by cases running), by simp [State.past, State.initial, SchedPc.dispatching, SchedPc.held]⟩
    fun inv _ ok _ taken => step_dispatches ok inv.1 inv.2 (step_cases taken)

end Run

theorem DispatchesOk.over_or_running (ok : DispatchesOk s) (member : d ∈ s.dispatches) :
    d.Settled ∨ ∃ p, d.Running s.pc p := by
  cases here : s.pc.dispatching with
  | none => exact .inl (ok.settled d (by simpa [State.past, here] using member))
  | some p =>
    obtain ⟨now, older, split, running⟩ := ok.running p here
    rw [split] at member
    rcases List.mem_cons.mp member with rfl | old
    · exact .inr ⟨p, running⟩
    · exact .inl (ok.settled d (by simpa [State.past, here, split] using old))

/-! ### Before `scheduler_init` -/

def Fresh (s : State) : Prop := s.pc = .init → s.sched = {} ∧ s.dispatches = []

theorem SchedStep.initialised (taken : SchedStep s a t) : t.pc ≠ .init := by
  cases taken with
  | update => exact ne_of_held (afterUpdate_held _ _) rfl
  | check => exact ne_of_held (afterCheck_held _ _) rfl
  | countRound => exact ne_of_held (afterQuantum_held _ _) rfl
  | relay here => simp [here]
  | _ => simp

theorem step_fresh (ok : Fresh s) (taken : Step s e t) : Fresh t := by
  cases taken with
  | sched taken => exact fun here => absurd here taken.initialised
  | worker taken =>
    intro here
    rw [taken.frame.sched, taken.frame.dispatches]
    exact ok (taken.frame.pc ▸ here)
  | main taken =>
    intro here
    rw [taken.frame.sched, taken.frame.dispatches]
    exact ok (taken.frame.pc ▸ here)

theorem run_fresh {ok : State → Event → Prop} (run : ServerRun ok s) : Fresh s :=
  run.invariant (fun _ => ⟨rfl, rfl⟩) fun ok _ taken => step_fresh ok (step_cases taken)

/-! ### The marks are what happened -/

def State.marks (s : State) (p : Ptr) (mark : Dispatch → Int) : Int :=
  ((s.dispatches.filter (·.task = p)).map mark).sum

/-- The marks agree with the count of completions and with the END_MARKERs written. -/
structure MarksReal (s : State) : Prop where
  completions : s.sched.totalCompleted = (s.dispatches.map fun d => (d.completions : Int)).sum
  endMarkers : ∀ p, (s.writes.countP fun w => w.task = some p ∧ w.endMarker : Nat) = s.marks p (·.endMarkers)

theorem sum_marks_kept {mark : Dispatch → Int} {f : Dispatch → Dispatch} (task : ∀ d, (f d).task = d.task)
    (same : ∀ d, mark (f d) = mark d) (list : List Dispatch) :
    (((list.modifyHead f).filter (·.task = p)).map mark).sum = ((list.filter (·.task = p)).map mark).sum := by
  cases list with
  | nil => rfl
  | cons d rest => by_cases mine : d.task = p <;> simp [task, same, mine]

theorem marks_added {mark : Dispatch → Int} {f : Dispatch → Dispatch} {q : Ptr} {n : Int} (ok : DispatchesOk s)
    (here : s.pc.dispatching = some q) (marked : t.dispatches = s.dispatches.modifyHead f)
    (task : ∀ d, (f d).task = d.task) (more : ∀ d, mark (f d) = mark d + n) :
    t.marks p mark = s.marks p mark + if p = q then n else 0 := by
  obtain ⟨d, older, split, running⟩ := ok.running q here
  unfold State.marks
  rw [marked, split]
  by_cases mine : p = q
  · simp [task, more, running.task, mine]
    omega
  · simp [task, running.task, mine, Ne.symm mine]

theorem schedStep_marks (ok : MarksReal s) (dispatches : DispatchesOk s) (fresh : Fresh s) (taken : SchedStep s a t) :
    MarksReal t := by
  obtain ⟨completions, endMarkers⟩ := ok
  have kept : ∀ (f : Dispatch → Dispatch), (∀ d, (f d).completions = d.completions) →
      ((s.dispatches.modifyHead f).map fun d => (d.completions : Int)).sum =
        (s.dispatches.map fun d => (d.completions : Int)).sum := by
    intro f same
    cases s.dispatches <;> simp [same]
  cases taken with
  | @sendMarker q e here =>
    refine ⟨by simpa [kept] using completions, fun p => ?_⟩
    rw [marks_added (f := fun d => { d with endMarkers := d.endMarkers + 1 }) (n := 1) dispatches
      (by rw [here]; rfl) rfl (fun _ => rfl) (fun _ => Int.natCast_succ _), ← endMarkers p]
    by_cases mine : p = q
    · subst mine; simp
    · simp [mine, Ne.symm mine]
  | complete here =>
    obtain ⟨d, older, split, -⟩ := dispatches.running _ (by rw [here]; rfl)
    refine ⟨?_, fun p => by simpa [State.marks, sum_marks_kept] using endMarkers p⟩
    simp [completions, split]
    omega
  | dequeue here found =>
    refine ⟨by simpa using completions, fun p => ?_⟩
    refine (endMarkers p).trans ?_
    simp only [State.marks, setPc_dispatches, dequeued_dispatches, List.filter_cons]
    split <;> simp
  | init here => exact ⟨by simp [(fresh here).2], endMarkers⟩
  | relay | slice =>
    exact ⟨by simpa using completions, fun p => by simpa [State.marks, List.countP_append] using endMarkers p⟩
  | _ =>
    exact ⟨by simpa [kept] using completions, fun p => by simpa [State.marks, sum_marks_kept] using endMarkers p⟩

theorem run_marks {ok : State → Event → Prop} (run : ServerRun ok s) : MarksReal s := by
  refine run.invariant_of (J := fun s => DispatchesOk s ∧ Fresh s) (fun run => ⟨run_dispatches run, run_fresh run⟩)
    ⟨by simp [State.initial], by simp [State.initial, State.marks]⟩ fun known _ ok _ taken => ?_
  cases step_cases taken with
  | sched taken => exact schedStep_marks ok known.1 known.2 taken
  | main taken =>
    obtain ⟨completions, endMarkers⟩ := ok
    have frame := taken.frame
    refine ⟨by rwa [frame.sched, frame.dispatches], fun p => ?_⟩
    rw [State.marks, frame.writes, frame.dispatches]
    exact endMarkers p
  | worker taken =>
    obtain ⟨completions, endMarkers⟩ := ok
    have frame := taken.frame
    refine ⟨by rwa [frame.sched, frame.dispatches], fun p => ?_⟩
    rw [State.marks, frame.dispatches, ← State.marks, ← endMarkers p]
    cases taken <;> simp [List.countP_append]

/-- Whether the operating system lets a dispatch go on: a demo needs no process. -/
def Dispatch.Started (d : Dispatch) : Prop := d.picked.type ≠ .shell ∨ d.spawned = true

/-- An iteration completes its task or puts it back exactly when the task is a demo, or its command
could be started. -/
theorem dispatch_fate (run : ServerRun Machine.always s) (member : d ∈ s.dispatches) (finished : d.finished = true) :
    (d.Completed ∨ d.Requeued) ↔ d.Started := by
  have ok := run_dispatches run
  have settled : d.Settled := by
    rcases ok.over_or_running member with settled | ⟨p, running⟩
    · exact settled
    · simp [running.finished] at finished
  obtain ⟨-, e, tally, shell⟩ := settled
  cases e <;> simp_all [Dispatch.tally, Ending.tally, Dispatch.Completed, Dispatch.Requeued, Dispatch.Started]

theorem dispatch_fate_demo : ∃ s, ServerRun Machine.always s ∧ ∃ d ∈ s.dispatches, d.finished = true ∧
    d.Completed ∧ ((d.Completed ∨ d.Requeued) ↔ d.Started) := by
  obtain ⟨s, run, seen⟩ := serverRun_by Machine.always
    (Event.connect 5 ++ Event.submit 1 "demo 1" ++ Event.schedule 24)
    (fun s => ∃ d ∈ s.dispatches, d.finished = true ∧ d.endMarkers = 1 ∧ d.completions = 1 ∧ d.releases = 1 ∧
      d.requeues = 0) (by decide +kernel)
  obtain ⟨d, member, finished, completed⟩ := of_decide_eq_true seen
  exact ⟨s, run, d, member, finished, completed, dispatch_fate run member finished⟩

/-- A shell command is removed from the queue, `pipe` fails, and nothing more happens to it. -/
theorem shell_task_lost : ¬ ∀ s, ServerRun Machine.always s → ∀ d ∈ s.dispatches, d.finished = true →
    d.Completed ∨ d.Requeued := by
  intro claimed
  obtain ⟨s, run, seen⟩ := serverRun_by Machine.always
    (Event.connect 5 ++ Event.submit 1 "ls" ++ Event.schedule 9)
    (fun s => ∃ d ∈ s.dispatches, d.finished = true ∧ d.endMarkers = 0 ∧ d.requeues = 0) (by decide +kernel)
  obtain ⟨d, member, finished, markers, requeues⟩ := of_decide_eq_true seen
  rcases claimed s run d member finished with completed | requeued
  · simp [Dispatch.Completed, markers] at completed
  · simp [Dispatch.Requeued, requeues] at requeued

end MyShell
