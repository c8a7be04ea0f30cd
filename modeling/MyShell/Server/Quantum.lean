import MyShell.Server.Output

/-! # Demos that have used up their burst

A slice reports the end of a demo when it finds the remaining time already at zero. A demo whose last
unit is used up by the last slice of a quantum, or right before a preemption, goes back to the queue. -/

namespace MyShell

open State

/-- The slice that takes the last unit of a demo comes next, or is under way up to the check behind it. -/
def State.lastUnit (s : State) : Bool :=
  match s.pc with
  | .logStart t => (s.task t).remainingTime = 1
  | .slice r | .update r _ => (s.task r.task).remainingTime = 1
  | .check r => (s.task r.task).remainingTime = 0
  | _ => false

/-- A demo that had exactly a quantum left when it was dispatched does not come to the last slice of the quantum,
and no new task preempts a demo in its last unit. -/
def leavesRoom (s : State) : Event → Bool
  | .sched _ =>
    match s.pc with
    | .slice r => r.q + 1 = r.quantum → s.dispatches.head?.all fun d => d.picked.remainingTime ≠ (r.quantum : Int)
    | _ => true
  | .worker c _ =>
    match s.worker c with
    | .notify t => s.lastUnit → ¬schedulerShouldPreempt (some (s.task t)) (s.sched.currentTask.map s.task)
    | _ => true
  | .main _ => true

/-- The quantum goes on after the slice that uses up the burst. -/
def noticesEnd (s : State) : Event → Bool
  | .sched _ =>
    match s.pc with
    | .check r => (s.task r.task).remainingTime = 0 → s.preemptFlag = false ∧ r.q + 1 < r.quantum
    | _ => true
  | _ => true

def LoggedOk (s : State) : Prop := ∀ event c value p, LogLine.decision event c value p ∈ s.log →
  event = .waiting ∨ event = .preempted → 0 < value

/-- No demo without remaining time waits in the queue or was logged as going back to it. -/
structure NoneSpent (s : State) : Prop where
  queued : ∀ p ∈ s.queue, (s.task p).type = .demoProgram → 0 < (s.task p).remainingTime
  logged : LoggedOk s

def SchedPc.unfinished : SchedPc → Option Ptr
  | .appendTrace r o => if o = .completed then none else some r.task
  | .countRound t o => if o = .completed then none else some t
  | .logRequeue t _ | .setLast t | .requeue t => some t
  | _ => none

/-- The tasks that will run again. -/
inductive Waiting (s : State) (p : Ptr) : Prop where
  | creating (c : ClientId) (here : s.worker c = .enqueue p)
  | queued (member : p ∈ s.queue)
  | unfinished (here : s.pc.unfinished = some p)

def WaitingOk (s : State) : Prop := ∀ p, Waiting s p → (s.task p).type = .demoProgram → 0 < (s.task p).remainingTime

variable {s t : State} {a : Answer} {c : ClientId} {e : Event} {p : Ptr}

theorem unfinished_held {pc : SchedPc} (here : pc.unfinished = some p) : pc.held = some p := by
  cases pc <;> simp_all [SchedPc.unfinished, SchedPc.held]

theorem afterUpdate_unfinished (r : Round) (done : Bool) : (afterUpdate r done).unfinished = none := by
  cases done <;> rfl

theorem afterQuantum_unfinished {q : Ptr} {o : Outcome} (here : (afterQuantum q o).unfinished = some p) :
    (SchedPc.countRound q o).unfinished = some p := by
  cases o with
  | completed => cases here
  | preempted | expired => exact here

theorem afterCheck_unfinished {r : Round} {b : Bool} (here : (afterCheck r b).unfinished = some p) :
    r.task = p ∧ ¬(b = false ∧ r.q + 1 < r.quantum) := by
  cases b with
  | true => exact ⟨by simpa [afterCheck, SchedPc.unfinished] using here, by simp⟩
  | false =>
    by_cases more : r.q + 1 < r.quantum
    · simp [afterCheck, more, SchedPc.unfinished] at here
    · exact ⟨by simpa [afterCheck, more, SchedPc.unfinished] using here, by simp [more]⟩

theorem Waiting.old (owned : Owned s) (waiting : Waiting s p) : p < s.allocated := by
  cases waiting with
  | creating c here => exact (owned.created c p here).1
  | queued member => exact (owned.queued p member).1
  | unfinished here => exact (owned.held p (unfinished_held here)).1

theorem schedStep_waiting (met : noticesEnd s (.sched a) = true) (taken : SchedStep s a t)
    (waiting : Waiting t p) : Waiting s p ∨ ∃ r, s.pc = .check r ∧ r.task = p ∧ (s.task p).remainingTime ≠ 0 := by
  have frame := taken.frame
  cases waiting with
  | creating c here => exact .inl (.creating c (by rwa [frame.worker] at here))
  | queued member =>
    left
    cases taken with
    | dequeue here found => exact .queued ((dequeue_mem found p).mpr (.inr member))
    | requeue here =>
      rcases List.mem_append.mp member with old | new
      · exact .queued old
      · exact .unfinished (by rw [here, List.mem_singleton.mp new]; rfl)
    | _ => exact .queued (by simpa using member)
  | unfinished there =>
    cases taken with
    | relay here => simp [here, SchedPc.unfinished] at there
    | update here => simp [afterUpdate_unfinished] at there
    | check here =>
      obtain ⟨rfl, ends⟩ := afterCheck_unfinished there
      simp only [noticesEnd, here, decide_eq_true_eq] at met
      exact .inr ⟨_, here, rfl, fun spent => ends (met spent)⟩
    | countRound here => exact .inl (.unfinished (by rw [here]; exact afterQuantum_unfinished there))
    | _ => first | exact .inl (.unfinished (by rw [‹s.pc = _›]; exact there)) | cases there

theorem schedStep_waitingOk (ok : WaitingOk s) (inv : Inv s) (met : noticesEnd s (.sched a) = true)
    (taken : SchedStep s a t) : WaitingOk t := by
  intro p waiting type
  have later := taken.frame.later p
  rw [later.type] at type
  have before := schedStep_waiting met taken waiting
  have kept : (t.task p).remainingTime = (s.task p).remainingTime := by
    rcases taken.remaining p with same | ⟨r, done, here, rfl, -⟩
    · exact same
    · -- the task of an update is held, and what waits is not
      have held := inv.owned.held r.task (by rw [here]; rfl)
      rcases before with waiting | ⟨r', there, -⟩
      · cases waiting with
        | creating c creating => simp [(inv.owned.created c _ creating).2] at held
        | queued member => simp [(inv.owned.queued _ member).2] at held
        | unfinished there => simp [here, SchedPc.unfinished] at there
      · simp [here] at there
  rw [kept]
  rcases before with waiting | ⟨r, here, rfl, left⟩
  · exact ok p waiting type
  · have old := (inv.owned.held r.task (by rw [here]; rfl)).1
    cases inv.tasks.wellFormed r.task old with
    | shell shell => simp [shell] at type
    | demo _ _ nonneg _ => omega

theorem workerStep_waitingOk (ok : WaitingOk s) (inv : Inv s) (taken : WorkerStep s c a t) : WaitingOk t := by
  have frame := taken.frame
  have kept : ∀ p, Waiting s p → (t.task p).type = .demoProgram → 0 < (t.task p).remainingTime := by
    intro p waiting type
    rw [frame.task p (waiting.old inv.owned)] at type ⊢
    exact ok p waiting type
  intro p waiting type
  cases waiting with
  | unfinished here => exact kept p (.unfinished (frame.pc ▸ here)) type
  | queued member =>
    cases taken with
    | enqueue here =>
      rcases List.mem_append.mp member with old | new
      · exact kept p (.queued old) type
      · exact kept p (.creating c (List.mem_singleton.mp new ▸ here)) type
    | remove => exact kept p (.queued (List.mem_filter.mp member).1) type
    | _ => exact kept p (.queued (by simpa using member)) type
  | creating c' here =>
    by_cases same : c' = c
    · subst same
      cases taken with
      | @create command there =>
        obtain rfl : s.allocated = p := by simpa using here
        have wellFormed : (createTaskFromCommand (s.context c') s.nextTaskId s.nextArrivalOrder command).WellFormed :=
          create_wellFormed
        simp only [setWorker_task, createTask_task, Function.update_self, create_remaining] at type ⊢
        cases wellFormed with
        | shell shell => simp [shell] at type
        | demo _ burst => exact burst
      | _ => simp at here
    · exact kept p (.creating c' (by rwa [frame.worker c' same] at here)) type

theorem mainStep_waitingOk (ok : WaitingOk s) (taken : MainStep s a t) : WaitingOk t := by
  have frame := taken.frame
  intro p waiting
  rw [frame.task]
  refine ok p ?_
  cases waiting with
  | queued member => exact .queued (frame.queue ▸ member)
  | unfinished here => exact .unfinished (frame.pc ▸ here)
  | creating c here =>
    cases taken with
    | @spawn c' there =>
      have other : c ≠ c' := by
        rintro rfl
        simp at here
      exact .creating c (by simpa [other] using here)
    | _ => exact .creating c here

theorem run_waitingOk (run : ServerRun (noticesEnd · ·) s) : WaitingOk s := by
  refine run.invariant_of run_inv (fun p waiting => ?_) fun {s e t} inv _ ok met taken => ?_
  · cases waiting with
    | creating c here => cases here
    | queued member => cases member
    | unfinished here => cases here
  · cases step_cases taken with
    | sched taken => exact schedStep_waitingOk ok inv met taken
    | worker taken => exact workerStep_waitingOk ok inv taken
    | main taken => exact mainStep_waitingOk ok taken

theorem step_logged (taken : Step s e t) {event : Decision} {value : Int}
    (goesBack : event = .waiting ∨ event = .preempted) (line : LogLine.decision event c value p ∈ t.log) :
    LogLine.decision event c value p ∈ s.log ∨
      ∃ o, s.pc = .logRequeue p o ∧ value = (s.task p).remainingTime := by
  have other : ∀ {line' : LogLine}, LogLine.decision event c value p ∈ s.log ++ [line'] →
      line' ≠ .decision event c value p → LogLine.decision event c value p ∈ s.log := fun member different =>
    (List.mem_append.mp member).resolve_right fun new => different (List.mem_singleton.mp new).symm
  cases taken with
  | sched taken =>
    cases taken with
    | idle =>
      left
      simp only [setPc_log, printSummary_log] at line
      split at line
      · exact other line (by simp)
      · exact line
    | logShell here type known | logDemo here type known =>
      refine .inl (other line fun same => ?_)
      obtain ⟨rfl, -⟩ := LogLine.decision.inj same
      split at known <;> simp [known] at goesBack
    | logEnded here =>
      refine .inl (other line fun same => ?_)
      obtain ⟨rfl, -⟩ := LogLine.decision.inj same
      simp at goesBack
    | logBytes here => exact .inl (other line (by simp))
    | @logRequeue q o event' here known =>
      rcases List.mem_append.mp line with old | new
      · exact .inl old
      · obtain ⟨rfl, -, same, rfl⟩ := LogLine.decision.inj (List.mem_singleton.mp new)
        refine .inr ⟨o, here, ?_⟩
        have notCreated : event ≠ .created := by rintro rfl; simp at goesBack
        simpa [notCreated] using same
    | _ => exact .inl (by simpa using line)
  | worker taken =>
    left
    cases taken with
    | empty | command | logDisconnected => exact other line (by simp)
    | exit => simpa using line
    | logCreated =>
      refine other line fun same => ?_
      obtain ⟨rfl, -⟩ := LogLine.decision.inj same
      simp at goesBack
    | _ => simpa using line
  | main taken =>
    left
    cases taken <;> simpa using line

/-! ### Bursts and quanta -/

def LinedUp (s : State) : Prop := ∀ p n, s.pc.held = some p → s.pc.used = some n →
  ∀ d ∈ s.dispatches.head?, d.picked.remainingTime = (s.task p).remainingTime + n

theorem Marks.head {f : Dispatch → Dispatch} (marks : Marks f) {list : List Dispatch} {d : Dispatch}
    (head : d ∈ (list.modifyHead f).head?) : ∃ d' ∈ list.head?, d.picked = d'.picked := by
  cases list with
  | nil => cases head
  | cons d' older =>
    obtain rfl : f d' = d := Option.some.inj head
    exact ⟨d', rfl, marks.picked d'⟩

theorem LinedUp.move (ok : LinedUp s) (taken : SchedStep s a t) (noDequeue : ∀ p id, s.pc ≠ .dequeue p id)
    (noUpdate : ∀ r done, s.pc ≠ .update r done)
    (place : ∀ p n, t.pc.held = some p → t.pc.used = some n → s.pc.held = some p ∧ s.pc.used = some n) : LinedUp t := by
  intro p n held used d head
  obtain ⟨held, used⟩ := place p n held used
  rcases taken.dispatches with ⟨f, marks, marked⟩ | ⟨q, id, removed, rest, here, -⟩
  · obtain ⟨d', before, picked⟩ := marks.head (marked ▸ head)
    rw [picked, taken.remaining_kept noUpdate p]
    exact ok p n held used d' before
  · exact absurd here (noDequeue q id)

theorem schedStep_linedUp (ok : LinedUp s) (inv : Inv s) (output : OutputOk s) (taken : SchedStep s a t) : LinedUp t := by
  have move := ok.move taken
  cases taken with
  | dequeue here found =>
    obtain ⟨rfl, -, -⟩ := inv.owned.dequeue inv.tasks here found
    intro p n held used d head
    obtain rfl : _ = p := Option.some.inj held
    obtain rfl : 0 = n := Option.some.inj used
    obtain rfl : _ = d := Option.some.inj head
    simp
  | @update r done here =>
    cases done with
    | true =>
      intro p n held used
      cases used
    | false =>
      intro p n held used d head
      obtain rfl : r.task = p := Option.some.inj held
      obtain rfl : r.q + 1 = n := Option.some.inj used
      have more : (s.task r.task).remainingTime ≠ 0 := of_decide_eq_false (output.update r false here).symm
      have demo := inv.runs.demo r.task (by rw [here]; rfl)
      have marks : Marks fun d => { d with units := d.units + if (s.task r.task).remainingTime > 0 then 1 else 0 } :=
        ⟨fun _ => rfl, fun _ => rfl, fun _ => rfl⟩
      obtain ⟨d', before, picked⟩ := marks.head head
      have lined := ok r.task r.q (by rw [here]; rfl) (by rw [here]; rfl) d' before
      cases inv.tasks.wellFormed r.task (inv.owned.held r.task (by rw [here]; rfl)).1 with
      | shell shell => exact absurd shell demo
      | demo _ _ nonneg _ =>
        rw [picked, lined]
        simp only [setPc_task, onDispatch_task, schedulerUpdateTaskAfterExecution, modifySched_task, modifyTask_task,
          Function.update_self, remainingAfter_one nonneg]
        omega
  | check here =>
    refine move (by simp [here]) (by simp [here]) fun p n held used => ?_
    rw [here]
    exact ⟨(afterCheck_held _ _).symm.trans held, congrArg some (afterCheck_goes used).1⟩
  | setCurrent here | clearPreempt here | logDemo here | slice here | sliceNothing here =>
    exact move (by simp [here]) (by simp [here]) fun p n held used => by rw [here]; exact ⟨held, used⟩
  | @countRound q o here =>
    intro p n held used
    cases o <;> cases used
  | relay here => exact move (by simp [here]) (by simp [here]) fun p n held used => ⟨held, used⟩
  | _ =>
    intro p n held used
    cases used

theorem run_linedUp {ok : State → Event → Prop} (run : ServerRun ok s) : LinedUp s := by
  refine run.invariant_of (J := fun s => Inv s ∧ OutputOk s) (fun run => ⟨run_inv run, run_output run⟩)
    (fun p n held => by cases held) fun {s e t} known _ ok _ taken => ?_
  obtain ⟨inv, output⟩ := known
  cases step_cases taken with
  | sched taken => exact schedStep_linedUp ok inv output taken
  | worker taken =>
    have frame := taken.frame
    intro p n held used d head
    rw [frame.pc] at held used
    rw [frame.dispatches] at head
    rw [frame.task p (inv.owned.held p held).1]
    exact ok p n held used d head
  | main taken =>
    have frame := taken.frame
    rw [LinedUp, frame.pc, frame.dispatches, frame.task]
    exact ok

structure RoomOk (s : State) : Prop where
  flag : s.lastUnit = true → s.preemptFlag = false
  room : ∀ r, s.pc = .update r false ∨ s.pc = .check r → r.q + 1 = r.quantum →
    ∀ d ∈ s.dispatches.head?, d.picked.remainingTime ≠ r.quantum

theorem RoomOk.elsewhere (unit : t.lastUnit = false) (update : ∀ r, t.pc ≠ .update r false) (check : ∀ r, t.pc ≠ .check r) :
    RoomOk t :=
  ⟨fun last => by simp [unit] at last, fun r here => by simp [update r, check r] at here⟩

theorem schedStep_room (ok : RoomOk s) (inv : Inv s) (output : OutputOk s) (met : leavesRoom s (.sched a) = true)
    (taken : SchedStep s a t) : RoomOk t := by
  have kept := taken.remaining_kept
  cases taken with
  | clearPreempt here => exact ⟨fun _ => rfl, fun r there => by simp at there⟩
  | logDemo here type =>
    refine ⟨fun last => ok.flag ?_, fun r there => by simp at there⟩
    simpa [State.lastUnit, here] using last
  | @slice r line done here | @sliceNothing r here =>
    have same := kept (by simp [here]) r.task
    refine ⟨fun last => ok.flag ?_, fun r' there final => ?_⟩
    · simp only [State.lastUnit, here, setPc_pc] at last ⊢
      rwa [same] at last
    · obtain rfl : r = r' := (SchedPc.update.inj (there.resolve_right (by simp))).1
      simp only [leavesRoom, here, decide_eq_true_eq] at met
      intro d head
      simpa using (Option.all_eq_true _ _).mp (met final) d head
  | @update r done here =>
    cases done with
    | true => exact .elsewhere rfl (by simp [afterUpdate]) (by simp [afterUpdate])
    | false =>
      have more : (s.task r.task).remainingTime ≠ 0 := of_decide_eq_false (output.update r false here).symm
      have demo := inv.runs.demo r.task (by rw [here]; rfl)
      refine ⟨fun last => ok.flag ?_, fun r' there final d head => ?_⟩
      · have spent : (Function.update s.task r.task
            { s.task r.task with remainingTime := remainingAfter (s.task r.task).remainingTime 1 } r.task).remainingTime = 0 :=
          of_decide_eq_true last
        rw [Function.update_self] at spent
        cases inv.tasks.wellFormed r.task (inv.owned.held r.task (by rw [here]; rfl)).1 with
        | shell shell => exact absurd shell demo
        | demo _ _ nonneg _ =>
          simp only [remainingAfter_one nonneg] at spent
          simp only [State.lastUnit, here, decide_eq_true_eq]
          omega
      · obtain rfl : r = r' := by simpa [afterUpdate] using there
        have marks : Marks fun d => { d with units := d.units + if (s.task r.task).remainingTime > 0 then 1 else 0 } :=
          ⟨fun _ => rfl, fun _ => rfl, fun _ => rfl⟩
        obtain ⟨d', before, picked⟩ := marks.head head
        rw [picked]
        exact ok.room r (.inl here) final d' before
  | @check r here =>
    by_cases flag : s.preemptFlag = true
    · rw [flag]
      exact .elsewhere rfl (by simp [afterCheck]) (by simp [afterCheck])
    · refine ⟨fun _ => by simpa using flag, fun r' there => ?_⟩
      rcases afterCheck_cases r s.preemptFlag with ⟨_, -, same⟩ | same <;> simp [same] at there
  | @countRound q o here => cases o <;> exact .elsewhere rfl (by simp [afterQuantum]) (by simp [afterQuantum])
  | relay here =>
    exact .elsewhere (by simp [State.lastUnit, here]) (by simp [here]) (by simp [here])
  | _ => exact .elsewhere rfl (by simp) (by simp)

theorem workerStep_room (ok : RoomOk s) (inv : Inv s) (met : leavesRoom s (.worker c a) = true)
    (taken : WorkerStep s c a t) : RoomOk t := by
  have frame := taken.frame
  have held : ∀ {p}, s.pc.held = some p → t.task p = s.task p := fun here => frame.task _ (inv.owned.held _ here).1
  have unit : t.lastUnit = s.lastUnit := by
    unfold State.lastUnit
    rw [frame.pc]
    split <;> rename_i here <;> first | rw [held (by rw [here]; rfl)] | rfl
  refine ⟨fun last => ?_, by rw [frame.pc, frame.dispatches]; exact ok.room⟩
  rw [unit] at last
  have before := ok.flag last
  cases taken with
  | notify here raised =>
    simp only [leavesRoom, here, decide_eq_true_eq] at met
    rw [setWorker_preemptFlag, setFlag_preemptFlag, raised, before, Bool.or_false]
    exact Bool.eq_false_iff.mpr (met last)
  | _ => exact before

theorem run_room (run : ServerRun (leavesRoom · ·) s) : RoomOk s := by
  refine run.invariant_of (J := fun s => Inv s ∧ OutputOk s) (fun run => ⟨run_inv run, run_output run⟩)
    (.elsewhere rfl (by simp [State.initial]) (by simp [State.initial])) fun {s e t} known _ ok met taken => ?_
  obtain ⟨inv, output⟩ := known
  cases step_cases taken with
  | sched taken => exact schedStep_room ok inv output met taken
  | worker taken => exact workerStep_room ok inv met taken
  | main taken =>
    have frame := taken.frame
    refine ⟨?_, by rw [frame.pc, frame.dispatches]; exact ok.room⟩
    rw [State.lastUnit, frame.pc, frame.task, frame.preemptFlag]
    exact ok.flag

theorem run_notices (run : ServerRun (leavesRoom · ·) s) : noticesEnd s e = true := by
  unfold noticesEnd
  split
  · split
    · rename_i r here
      rw [decide_eq_true_eq]
      intro spent
      have room := run_room run
      refine ⟨room.flag (by simp [State.lastUnit, here, spent]), ?_⟩
      obtain ⟨inside, -⟩ := (run_quanta run).round r (by rw [here]; rfl)
      obtain ⟨d, older, split, -⟩ := (run_dispatches run).running r.task (by rw [here]; rfl)
      have head : d ∈ s.dispatches.head? := by rw [split]; rfl
      have lined := run_linedUp run r.task (r.q + 1) (by rw [here]; rfl) (by rw [here]; rfl) d head
      by_contra final
      exact room.room r (.inr here) (by omega) d head (by omega)
    · rfl
  · rfl

/-- Where every demo that has used up its burst gets one more slice in the same quantum, no demo without
remaining time goes back to the queue. -/
theorem noneSpent_of_notices (run : ServerRun (noticesEnd · ·) s) : NoneSpent s := by
  refine ⟨fun p member => run_waitingOk run p (.queued member), ?_⟩
  refine run.invariant_of (I := LoggedOk) (J := fun s => Inv s ∧ WaitingOk s)
    (fun run => ⟨run_inv run, run_waitingOk run⟩) (by simp [LoggedOk, State.initial])
    fun {s e t} known _ logged _ taken event c value p line goesBack => ?_
  obtain ⟨inv, waiting⟩ := known
  rcases step_logged (step_cases taken) goesBack line with old | ⟨o, here, rfl⟩
  · exact logged event c value p old goesBack
  · refine waiting p (.unfinished (by rw [here]; rfl)) ?_
    exact demo_of_ne_shell inv (inv.owned.held p (by rw [here]; rfl)).1 (inv.runs.demo p (by rw [here]; rfl))

theorem run_none_spent (run : ServerRun (leavesRoom · ·) s) : NoneSpent s :=
  noneSpent_of_notices (run.strengthen fun run => run_notices run)

theorem run_none_spent_long : ∃ s, ServerRun (leavesRoom · ·) s ∧ 0 ∈ s.queue ∧
    LogLine.decision .waiting 1 1 0 ∈ s.log ∧ NoneSpent s := by
  obtain ⟨s, run, seen⟩ := serverRun_by (leavesRoom · ·)
    (Event.connect 5 ++ Event.submit 1 "demo 4" ++ Event.schedule 21)
    (fun s => 0 ∈ s.queue ∧ LogLine.decision .waiting 1 1 0 ∈ s.log) (by decide +kernel)
  obtain ⟨queued, logged⟩ := of_decide_eq_true seen
  exact ⟨s, run, queued, logged, run_none_spent run⟩

/-- A burst of three is used up by the last slice of the first quantum. -/
theorem spent_demo_requeued : ¬ ∀ s, ServerRun Machine.always s → NoneSpent s := by
  intro claimed
  obtain ⟨s, run, seen⟩ := serverRun_by Machine.always
    (Event.connect 5 ++ Event.submit 1 "demo 3" ++ Event.schedule 21)
    (fun s => 0 ∈ s.queue ∧ (s.task 0).type = .demoProgram ∧ (s.task 0).remainingTime = 0) (by decide +kernel)
  obtain ⟨queued, demo, spent⟩ := of_decide_eq_true seen
  have left := (claimed s run).queued 0 queued demo
  omega

end MyShell
