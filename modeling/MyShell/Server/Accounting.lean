import MyShell.Server.Dispatch

/-! # Time accounting

The unit that a slice takes from a demo's remaining time is counted at the same step in
`total_time_used` and for the dispatch; `round_count` tells a first dispatch from a later one. -/

namespace MyShell

open State

def State.timeUsed (s : State) : Int :=
  (((List.range s.allocated).filter fun p => (s.task p).type = .demoProgram).map fun p =>
    (s.task p).burstTime - (s.task p).remainingTime).sum

/-- The most units of a dispatch, by the dispatches before it. -/
def quantumAfter (older : List Dispatch) (p : Ptr) : Nat := if older.any (·.task = p) then 7 else 3

variable {s t : State} {a : Answer} {c : ClientId} {e : Event} {p : Ptr}

/-! ### The total -/

theorem sum_range_add {f g : Nat → Int} {keep keep' : Nat → Bool} {n q : Nat} {k : Int} (inside : q < n)
    (added : g q = f q + k) (same : ∀ p ≠ q, g p = f p) (kept : ∀ p, keep' p = keep p) (counted : keep q = true) :
    (((List.range n).filter keep').map g).sum = (((List.range n).filter keep).map f).sum + k := by
  obtain rfl : keep' = keep := funext kept
  have before : ∀ m ≤ q, ((List.range m).filter keep').map g = ((List.range m).filter keep').map f := by
    refine fun m below => List.map_congr_left fun p member => same p (Nat.ne_of_lt ?_)
    exact Nat.lt_of_lt_of_le (List.mem_range.mp (List.mem_filter.mp member).1) below
  induction n with
  | zero => omega
  | succ n ih =>
    simp only [List.range_succ, List.filter_append, List.map_append, List.sum_append]
    by_cases last : q = n
    · subst last
      simp [before q (Nat.le_refl q), counted, added]
      omega
    · rw [ih (by omega)]
      have other : g n = f n := same n (Ne.symm last)
      by_cases taken : keep' n = true <;> simp [taken, other, Int.add_right_comm]

theorem used_after (task : Task) (nonneg : 0 ≤ task.remainingTime) :
    task.burstTime - remainingAfter task.remainingTime 1 =
      task.burstTime - task.remainingTime + if task.remainingTime > 0 then 1 else 0 := by
  rw [remainingAfter_one nonneg]
  split <;> omega

structure TimeOk (s : State) : Prop where
  total : s.sched.totalTimeUsed = s.timeUsed
  units : ∀ p < s.allocated, s.marks p (·.units) = (s.task p).burstTime - (s.task p).remainingTime

theorem timeUsed_kept (allocated : t.allocated = s.allocated) (later : ∀ p < s.allocated, (s.task p).Later (t.task p))
    (remaining : ∀ p < s.allocated, (t.task p).remainingTime = (s.task p).remainingTime) : t.timeUsed = s.timeUsed := by
  unfold State.timeUsed
  rw [allocated]
  have kept : (List.range s.allocated).filter (fun p => (t.task p).type = .demoProgram) =
      (List.range s.allocated).filter fun p => (s.task p).type = .demoProgram :=
    List.filter_congr fun p member => by rw [(later p (List.mem_range.mp member)).type]
  rw [kept]
  refine congrArg List.sum (List.map_congr_left fun p member => ?_)
  have old := List.mem_range.mp (List.mem_filter.mp member).1
  rw [(later p old).burstTime, remaining p old]

theorem TimeOk.move (ok : TimeOk s) (total : t.sched.totalTimeUsed = s.sched.totalTimeUsed)
    (allocated : t.allocated = s.allocated) (later : ∀ p < s.allocated, (s.task p).Later (t.task p))
    (remaining : ∀ p < s.allocated, (t.task p).remainingTime = (s.task p).remainingTime)
    (units : ∀ p, t.marks p (·.units) = s.marks p (·.units)) : TimeOk t where
  total := by rw [total, timeUsed_kept allocated later remaining, ok.total]
  units p old := by
    rw [allocated] at old
    rw [units, ok.units p old, (later p old).burstTime, remaining p old]

theorem schedStep_time (ok : TimeOk s) (inv : Inv s) (dispatches : DispatchesOk s) (fresh : Fresh s)
    (taken : SchedStep s a t) : TimeOk t := by
  have frame := taken.frame
  have remaining := taken.remaining
  have move := ok.move (t := t)
  cases taken with
  | @update r done here =>
    have held := inv.owned.held r.task (by rw [here]; rfl)
    have demo := inv.runs.demo r.task (by rw [here]; rfl)
    obtain ⟨type, nonneg⟩ : (s.task r.task).type = .demoProgram ∧ 0 ≤ (s.task r.task).remainingTime := by
      cases inv.tasks.wellFormed r.task held.1 with
      | shell shell => exact absurd shell demo
      | demo type _ nonneg => exact ⟨type, nonneg⟩
    have used := used_after (s.task r.task) nonneg
    refine ⟨?_, fun p old => ?_⟩
    · simp only [setPc_sched, onDispatch_sched, schedulerUpdateTaskAfterExecution, modifySched_sched, modifyTask_sched,
        ok.total]
      exact (sum_range_add held.1 (by simpa using used) (fun p other => by simp [other])
        (fun p => by by_cases mine : p = r.task <;> simp [mine]) (by simpa using type)).symm
    · rw [marks_added (n := if (s.task r.task).remainingTime > 0 then 1 else 0)
        (f := fun d => { d with units := d.units + if (s.task r.task).remainingTime > 0 then 1 else 0 }) dispatches
        (by rw [here]; rfl) rfl (fun _ => rfl) (fun _ => rfl), ok.units p old]
      by_cases mine : p = r.task
      · subst mine
        simpa using used.symm
      · simp [mine]
  | init here =>
    have total : s.sched.totalTimeUsed = 0 := by rw [(fresh here).1]
    exact move (by simp [total]) rfl (fun p _ => frame.later p) (fun _ _ => rfl) fun _ => rfl
  | dequeue here found =>
    refine move rfl rfl (fun p _ => frame.later p) (fun _ _ => rfl) fun p => ?_
    simp only [State.marks, setPc_dispatches, dequeued_dispatches, List.filter_cons]
    split <;> simp
  | _ =>
    have here := ‹s.pc = _›
    refine move (by simp) (by simp) (fun p _ => frame.later p) (fun p _ => ?_)
      fun p => by simp [State.marks, sum_marks_kept]
    rcases remaining p with same | ⟨r, done, there, -⟩
    · exact same
    · rw [here] at there
      cases there

theorem marks_fresh (picked : PickedOk s) {mark : Dispatch → Int} : s.marks s.allocated mark = 0 := by
  have none : s.dispatches.filter (·.task = s.allocated) = [] :=
    List.filter_eq_nil_iff.mpr fun d member => by simpa using Nat.ne_of_lt (picked d member).1
  simp [State.marks, none]

theorem create_time (ok : TimeOk s) (picked : PickedOk s) {command : CString} {pc : WorkerPc} :
    TimeOk ((s.createTask c command).setWorker c pc) := by
  have old : ∀ p < s.allocated, (s.createTask c command).task p = s.task p := fun p old => by simp [Nat.ne_of_lt old]
  refine ⟨?_, fun p bound => ?_⟩
  · have kept : (((List.range s.allocated).filter fun p => ((s.createTask c command).task p).type = .demoProgram).map
        fun p => ((s.createTask c command).task p).burstTime - ((s.createTask c command).task p).remainingTime).sum =
          s.timeUsed :=
      timeUsed_kept (t := { s.createTask c command with allocated := s.allocated }) rfl
        (fun p known => old p known ▸ .refl _) fun p known => congrArg Task.remainingTime (old p known)
    have added : ((s.createTask c command).setWorker c pc).timeUsed = s.timeUsed := by
      simp only [State.timeUsed, setWorker_allocated, createTask_allocated, setWorker_task, List.range_succ,
        List.filter_append, List.map_append, List.sum_append] at kept ⊢
      rw [kept]
      by_cases demo : ((s.createTask c command).task s.allocated).type = .demoProgram <;> simp_all
    exact ok.total.trans added.symm
  · have same : ((s.createTask c command).setWorker c pc).marks p (·.units) = s.marks p (·.units) := rfl
    rcases Nat.lt_succ_iff_lt_or_eq.mp bound with known | rfl
    · rw [same, ok.units p known, setWorker_task, old p known]
    · rw [same, marks_fresh picked]
      simp

theorem step_time (ok : TimeOk s) (inv : Inv s) (dispatches : DispatchesOk s) (picked : PickedOk s) (fresh : Fresh s)
    (taken : Step s e t) : TimeOk t := by
  cases taken with
  | sched taken => exact schedStep_time ok inv dispatches fresh taken
  | main taken =>
    have frame := taken.frame
    exact ok.move (by rw [frame.sched]) frame.allocated (fun p _ => frame.task ▸ .refl _) (fun p _ => by rw [frame.task])
      fun p => by rw [State.marks, frame.dispatches]; rfl
  | @worker c a _ taken =>
    have frame := taken.frame
    cases taken with
    | @create command here => exact create_time ok picked
    | _ =>
      exact ok.move (by simp) (by simp) frame.later (fun p old => by rw [frame.task p old]) fun p => by
        simp [State.marks]

theorem run_time {ok : State → Event → Prop} (run : ServerRun ok s) : TimeOk s := by
  refine run.invariant_of (J := fun s => Inv s ∧ DispatchesOk s ∧ PickedOk s ∧ Fresh s)
    (fun run => ⟨run_inv run, run_dispatches run, run_picked run, run_fresh run⟩) ⟨rfl, by simp [State.initial]⟩
    fun known _ ok _ taken => ?_
  obtain ⟨inv, dispatches, picked, fresh⟩ := known
  exact step_time ok inv dispatches picked fresh (step_cases taken)

/-! ### The quanta -/

def SchedPc.uncounted : SchedPc → Option Ptr
  | .setCurrent t | .clearPreempt t | .logStart t | .countRound t _ => some t
  | .slice r | .update r _ | .check r | .appendTrace r _ => some r.task
  | _ => none

def SchedPc.round : SchedPc → Option Round
  | .slice r | .update r _ | .check r => some r
  | _ => none

/-- The most units that the dispatch can have used up at a point before the end of its loop. -/
def SchedPc.used : SchedPc → Option Nat
  | .setCurrent _ | .clearPreempt _ | .logStart _ => some 0
  | .slice r | .update r _ => some r.q
  | .check r => some (r.q + 1)
  | _ => none

def UnitsOk : List Dispatch → Prop
  | [] => True
  | d :: older => d.units ≤ quantumAfter older d.task ∧ UnitsOk older

structure QuantaOk (s : State) : Prop where
  counted : ∀ p < s.allocated, (s.task p).type = .demoProgram →
    (s.task p).roundCount = s.marks p (fun _ => 1) - if s.pc.uncounted = some p then 1 else 0
  used : ∀ n, s.pc.used = some n → ∀ d ∈ s.dispatches.head?, d.units ≤ n
  round : ∀ r, s.pc.round = some r → r.q < r.quantum ∧ r.quantum = quantumAfter s.dispatches.tail r.task
  units : UnitsOk s.dispatches

theorem quantumAfter_eq {older : List Dispatch} :
    quantumAfter older p = if ((older.filter (·.task = p)).map fun _ => (1 : Int)).sum = 0 then 3 else 7 := by
  have counts : ((older.filter (·.task = p)).map fun _ => (1 : Int)).sum = older.countP (·.task = p) := by
    rw [List.countP_eq_length_filter]
    simp
  have none : older.countP (·.task = p) = 0 ↔ ¬older.any (·.task = p) := by
    simp [List.countP_eq_zero]
  unfold quantumAfter
  rw [counts]
  split <;> split <;> simp_all

theorem quantumAfter_pos (older : List Dispatch) (p : Ptr) : 0 < quantumAfter older p := by
  unfold quantumAfter
  split <;> omega

theorem SchedStep.count_kept (taken : SchedStep s a t) (noDequeue : ∀ p id, s.pc ≠ .dequeue p id) (p : Ptr) :
    t.marks p (fun _ => 1) = s.marks p fun _ => 1 := by
  rcases taken.dispatches with ⟨f, marks, marked⟩ | ⟨q, id, removed, rest, here, -⟩
  · rw [State.marks, State.marks, marked, sum_marks_kept marks.task fun _ => rfl]
  · exact absurd here (noDequeue q id)

theorem SchedStep.units_kept (taken : SchedStep s a t) (noUpdate : ∀ r done, s.pc ≠ .update r done)
    (noDequeue : ∀ p id, s.pc ≠ .dequeue p id) :
    ∃ f : Dispatch → Dispatch, (∀ d, (f d).task = d.task ∧ (f d).units = d.units) ∧
      t.dispatches = s.dispatches.modifyHead f := by
  cases taken with
  | update here => exact absurd here (noUpdate _ _)
  | dequeue here => exact absurd here (noDequeue _ _)
  | pipeFailed | forkFailed | sendMarker | complete | release | requeue | clearCurrentShell | clearFlag =>
    refine ⟨_, ?_, by simp only [setPc_dispatches, onDispatch_dispatches]; rfl⟩
    exact fun _ => ⟨rfl, rfl⟩
  | _ => exact ⟨id, fun _ => ⟨rfl, rfl⟩, by simp⟩

theorem QuantaOk.move (ok : QuantaOk s) (frame : SchedFrame s t)
    (roundCount : ∀ p, (t.task p).roundCount = (s.task p).roundCount)
    (kept : ∃ f : Dispatch → Dispatch, (∀ d, (f d).task = d.task ∧ (f d).units = d.units) ∧
      t.dispatches = s.dispatches.modifyHead f) (uncounted : t.pc.uncounted = s.pc.uncounted)
    (used : t.pc.used = s.pc.used) (round : t.pc.round = s.pc.round) :
    QuantaOk t := by
  obtain ⟨f, same, marked⟩ := kept
  refine ⟨fun p old type => ?_, fun n here d head => ?_, fun r here => ?_, ?_⟩
  · rw [frame.allocated] at old
    rw [(frame.later p).type] at type
    rw [roundCount, uncounted, ok.counted p old type, State.marks, State.marks, marked,
      sum_marks_kept (fun d => (same d).1) fun _ => rfl]
  · have known := ok.used n (used ▸ here)
    rw [marked] at head
    cases split : s.dispatches with
    | nil => simp [split] at head
    | cons d' older =>
      obtain rfl : f d' = d := by simpa [split] using head
      rw [(same d').2]
      exact known d' (by simp [split])
  · rw [marked, List.tail_modifyHead]
    exact ok.round r (round ▸ here)
  · have known := ok.units
    rw [marked]
    cases split : s.dispatches with
    | nil => trivial
    | cons d older =>
      rw [split] at known
      simpa [UnitsOk, (same d).1, (same d).2] using known

theorem afterCheck_goes {r : Round} {b : Bool} {n : Nat} (here : (afterCheck r b).used = some n) :
    r.q + 1 = n ∧ r.q + 1 < r.quantum := by
  unfold afterCheck at here
  split at here
  · cases here
  · split at here
    · exact ⟨Option.some.inj here, ‹_›⟩
    · cases here

theorem afterCheck_round {r r' : Round} {b : Bool} (here : (afterCheck r b).round = some r') :
    r.q + 1 < r.quantum ∧ { r with q := r.q + 1 } = r' := by
  unfold afterCheck at here
  split at here
  · cases here
  · split at here
    · exact ⟨‹_›, Option.some.inj here⟩
    · cases here

/-- `round_count` counts the dispatches before the one that begins, so it gives the quantum that they leave. -/
theorem QuantaOk.begins (ok : QuantaOk s) (inv : Inv s) (dispatches : DispatchesOk s) (here : s.pc = .logStart p)
    (type : (s.task p).type ≠ .shell) :
    (if (s.task p).roundCount = 0 then 3 else 7) = quantumAfter s.dispatches.tail p := by
  obtain ⟨d, older, split, running⟩ := dispatches.running p (by rw [here]; rfl)
  have old := (inv.owned.held p (by rw [here]; rfl)).1
  have rounds := ok.counted p old (demo_of_ne_shell inv old type)
  have counted : (s.task p).roundCount = ((older.filter (·.task = p)).map fun _ => (1 : Int)).sum := by
    rw [rounds, here]
    simp [State.marks, split, running.task, SchedPc.uncounted, Int.add_comm 1]
  rw [split, List.tail_cons, quantumAfter_eq, ← counted]

theorem QuantaOk.within (ok : QuantaOk s) (dispatches : DispatchesOk s) {r : Round} {done : Bool}
    (here : s.pc = .update r done) : ∃ d older, s.dispatches = d :: older ∧ d.task = r.task ∧ d.units ≤ r.q ∧
      r.q < r.quantum ∧ r.quantum = quantumAfter older r.task ∧ UnitsOk older := by
  obtain ⟨d, older, split, running⟩ := dispatches.running r.task (by rw [here]; rfl)
  have round := ok.round r (by rw [here]; rfl)
  have used := ok.used r.q (by rw [here]; rfl) d (by simp [split])
  have known := ok.units
  rw [split] at round known
  exact ⟨d, older, split, running.task, used, round.1, round.2, known.2⟩

theorem schedStep_quanta (ok : QuantaOk s) (inv : Inv s) (dispatches : DispatchesOk s) (taken : SchedStep s a t) :
    QuantaOk t := by
  have frame := taken.frame
  have move := ok.move frame
  have units := taken.units_kept
  have count := taken.count_kept
  cases taken with
  | @dequeue q id removed rest here found =>
    obtain ⟨rfl, -, -⟩ := inv.owned.dequeue inv.tasks here found
    refine ⟨fun p old type => ?_, fun n same d head => ?_, by simp [SchedPc.round], ?_, ok.units⟩
    · have before := ok.counted p old type
      rw [here] at before
      by_cases mine : p = removed
      · subst mine
        simp_all [State.marks, SchedPc.uncounted, Int.add_comm 1]
      · simpa [State.marks, SchedPc.uncounted, mine, Ne.symm mine] using before
    · obtain rfl : _ = d := Option.some.inj head
      exact Int.natCast_nonneg n
    · exact Int.natCast_nonneg _
  | @logShell q event here type =>
    refine ⟨fun p old demo => ?_, by simp [SchedPc.used], by simp [SchedPc.round], ok.units⟩
    have other : q ≠ p := by
      rintro rfl
      exact TaskType.noConfusion (type.symm.trans demo)
    have before := ok.counted p old demo
    rw [here] at before
    simpa [State.marks, SchedPc.uncounted, other] using before
  | @logDemo q event quantum here type known length =>
    have begins := ok.begins inv dispatches here type
    rw [← length] at begins
    refine ⟨fun p old type => ?_, fun n same d head => ?_, fun r same => ?_, ok.units⟩
    · have before := ok.counted p old type
      rw [here] at before
      exact before
    · cases same
      exact ok.used 0 (by rw [here]; rfl) d head
    · cases same
      exact ⟨begins ▸ quantumAfter_pos _ _, begins⟩
  | @update r done here =>
    obtain ⟨d, older, split, task, used, below, quantum, past⟩ := ok.within dispatches here
    have more : d.units + (if (s.task r.task).remainingTime > 0 then 1 else 0) ≤ r.q + 1 := by split <;> omega
    refine ⟨fun p old type => ?_, fun n same d' head => ?_, fun r' same => ?_, ?_⟩
    · have before := ok.counted p old (by rwa [(frame.later p).type] at type)
      have same : (afterUpdate r done).uncounted = s.pc.uncounted := by rw [here]; cases done <;> rfl
      rw [count (by simp [here]), setPc_pc, same]
      refine Eq.trans ?_ before
      by_cases mine : p = r.task <;> simp [mine]
    · cases done with
      | true => cases same
      | false =>
        cases same
        obtain rfl := by simpa [split] using head
        exact more
    · cases done with
      | true => cases same
      | false =>
        cases same
        exact ⟨below, by simpa [split] using quantum⟩
    · simp only [setPc_dispatches, onDispatch_dispatches, schedulerUpdateTaskAfterExecution, modifySched_dispatches,
        modifyTask_dispatches, split, List.modifyHead_cons, UnitsOk]
      refine ⟨?_, past⟩
      rw [task, ← quantum]
      omega
  | @check r here =>
    have round := ok.round r (by rw [here]; rfl)
    have uncounted : (afterCheck r s.preemptFlag).uncounted = s.pc.uncounted := by
      rcases afterCheck_cases r s.preemptFlag with ⟨_, -, same⟩ | same <;> rw [here, same] <;> rfl
    refine ⟨fun p old type => ?_, fun n same d head => ?_, fun r' same => ?_, ok.units⟩
    · rw [setPc_pc, uncounted]
      exact ok.counted p old type
    · obtain ⟨rfl, -⟩ := afterCheck_goes same
      exact ok.used _ (by rw [here]; rfl) d head
    · obtain ⟨more, rfl⟩ := afterCheck_round same
      exact ⟨more, round.2⟩
  | @countRound q o here =>
    have uncounted : (afterQuantum q o).uncounted = none := by cases o <;> rfl
    have used : (afterQuantum q o).used = none := by cases o <;> rfl
    have noRound : (afterQuantum q o).round = none := by cases o <;> rfl
    refine ⟨fun p old type => ?_, by simp [used], by simp [noRound], ok.units⟩
    have before := ok.counted p old (by rwa [(frame.later p).type] at type)
    rw [here] at before
    rw [setPc_pc, uncounted]
    by_cases mine : p = q
    · subst mine
      simp_all [State.marks, SchedPc.uncounted]
    · simpa [State.marks, SchedPc.uncounted, mine, Ne.symm mine] using before
  | relay here =>
    exact move (fun p => by simp [Function.update_apply]; split <;> simp_all) (units (by simp [here]) (by simp [here]))
      (by simp) (by simp) (by simp)
  | slice here =>
    exact move (fun p => by simp [Function.update_apply]; split <;> simp_all) (units (by simp [here]) (by simp [here]))
      (by rw [here]; rfl) (by rw [here]; rfl) (by rw [here]; rfl)
  | dequeueNone here =>
    exact move (fun _ => rfl) ⟨id, fun _ => ⟨rfl, rfl⟩, by simp⟩ (by rw [here]; rfl) (by rw [here]; rfl)
      (by rw [here]; rfl)
  | _ =>
    have here := ‹s.pc = _›
    exact move (fun _ => by simp) (units (by simp [here]) (by simp [here])) (by rw [here]; rfl)
      (by rw [here]; rfl) (by rw [here]; rfl)

theorem held_of_uncounted {pc : SchedPc} (here : pc.uncounted = some p) : pc.held = some p := by
  cases pc <;> first | exact here | cases here

theorem workerStep_quanta (ok : QuantaOk s) (inv : Inv s) (picked : PickedOk s) (taken : WorkerStep s c a t) :
    QuantaOk t := by
  have frame := taken.frame
  have old : ∀ p < s.allocated, (t.task p).type = .demoProgram →
      (t.task p).roundCount = t.marks p (fun _ => 1) - if t.pc.uncounted = some p then 1 else 0 := by
    intro p old type
    rw [frame.task p old] at type ⊢
    rw [frame.pc, State.marks, frame.dispatches]
    exact ok.counted p old type
  refine ⟨?_, by rw [frame.pc, frame.dispatches]; exact ok.used, by rw [frame.pc, frame.dispatches]; exact ok.round,
    by rw [frame.dispatches]; exact ok.units⟩
  cases taken with
  | @create command here =>
    intro p bound type
    rcases Nat.lt_succ_iff_lt_or_eq.mp bound with known | rfl
    · exact old p known type
    · have idle : s.pc.uncounted ≠ some s.allocated := fun there =>
        Nat.lt_irrefl _ (inv.owned.held _ (held_of_uncounted there)).1
      have none : ((s.createTask c command).setWorker c (.enqueue s.allocated)).marks s.allocated (fun _ => 1) = 0 :=
        marks_fresh (s := s) picked
      simp [none, idle]
  | _ => simpa using old

/-! ### The end of a demo -/

/-- The demo whose last slice found no remaining time. -/
def SchedPc.finishing : SchedPc → Option Ptr
  | .update r true | .appendTrace r .completed => some r.task
  | .countRound t .completed => some t
  | .sendMarker t .demoDone | .logBytes t .demoDone | .logEnded t .demoDone | .complete t .demoDone
  | .release t .demoDone => some t
  | _ => none

/-- A demo that finishes or has finished has no time left. -/
structure SpentOk (s : State) : Prop where
  finishing : ∀ p, s.pc.finishing = some p → (s.task p).remainingTime = 0
  completed : ∀ d ∈ s.dispatches, 0 < d.completions → d.picked.type ≠ .shell → (s.task d.task).remainingTime = 0

theorem step_spent (taken : Step s e t) (old : p < s.allocated) (spent : (s.task p).remainingTime = 0) :
    (t.task p).remainingTime = 0 := by
  rcases (step_later taken old).remainingTime with same | ⟨nonneg, less⟩
  · exact same.trans spent
  · omega

theorem held_of_finishing {pc : SchedPc} (here : pc.finishing = some p) : pc.held = some p := by
  cases pc <;> first | exact here | (rename_i e; cases e <;> first | exact here | cases here)

theorem schedStep_finishing (taken : SchedStep s a t) (there : t.pc.finishing = some p) :
    s.pc.finishing = some p ∨ (s.task p).remainingTime = 0 := by
  cases taken with
  | relay here => simp [here, SchedPc.finishing] at there
  | @slice r line done here type text sent last =>
    cases done with
    | true =>
      obtain rfl := Option.some.inj there
      exact .inr (of_decide_eq_true last.symm)
    | false => cases there
  | @update r done here =>
    cases done with
    | true => exact .inl (by rw [here]; exact there)
    | false => cases there
  | @check r here =>
    simp only [setPc_pc, afterCheck] at there
    split at there
    · cases there
    · split at there <;> cases there
  | @appendTrace r o trace here => exact .inl (by rw [here]; cases o <;> exact there)
  | @countRound q o here => exact .inl (by rw [here]; cases o <;> exact there)
  | sendMarker here | logBytes here | logEnded here | complete here =>
    exact .inl (by rw [here]; cases ‹Ending› <;> exact there)
  | _ => cases there

theorem SchedStep.completions (dispatches : DispatchesOk s) (taken : SchedStep s a t) {d : Dispatch}
    (member : d ∈ t.dispatches) (counted : 0 < d.completions) :
    ∃ d' ∈ s.dispatches, d.task = d'.task ∧ d.picked = d'.picked ∧
      (0 < d'.completions ∨ ∃ e, s.pc = .complete d'.task e) := by
  have kept : ∀ f : Dispatch → Dispatch, (∀ d, (f d).completions = d.completions ∧ (f d).task = d.task ∧
      (f d).picked = d.picked) → d ∈ s.dispatches.modifyHead f →
        ∃ d' ∈ s.dispatches, d.task = d'.task ∧ d.picked = d'.picked ∧
          (0 < d'.completions ∨ ∃ e, s.pc = .complete d'.task e) := by
    intro f same member
    cases split : s.dispatches with
    | nil => simp [split] at member
    | cons head older =>
      rw [split] at member
      rcases List.mem_cons.mp member with rfl | old
      · exact ⟨head, List.mem_cons_self, (same head).2.1, (same head).2.2, .inl ((same head).1 ▸ counted)⟩
      · exact ⟨d, List.mem_cons_of_mem _ old, rfl, rfl, .inl counted⟩
  cases taken with
  | dequeue here found =>
    rcases List.mem_cons.mp member with rfl | old
    · cases counted
    · exact ⟨d, old, rfl, rfl, .inl counted⟩
  | @complete q e here =>
    obtain ⟨head, older, split, running⟩ := dispatches.running q (by rw [here]; rfl)
    simp only [setPc_dispatches, onDispatch_dispatches, modifySched_dispatches, split, List.modifyHead_cons] at member
    rcases List.mem_cons.mp member with rfl | old
    · exact ⟨head, by simp [split], rfl, rfl, .inr ⟨e, by rw [here, running.task]⟩⟩
    · exact ⟨d, by simp [split, old], rfl, rfl, .inl counted⟩
  | update | pipeFailed | forkFailed | sendMarker | release | requeue | clearCurrentShell | clearFlag =>
    refine kept _ ?_ (by simp only [setPc_dispatches, onDispatch_dispatches] at member; exact member)
    exact fun _ => ⟨rfl, rfl, rfl⟩
  | _ => exact ⟨d, by simpa using member, rfl, rfl, .inl counted⟩

theorem schedStep_spentOk (ok : SpentOk s) (inv : Inv s) (dispatches : DispatchesOk s) (picked : PickedOk s)
    (taken : SchedStep s a t) : SpentOk t := by
  have kept : ∀ p < s.allocated, (s.task p).remainingTime = 0 → (t.task p).remainingTime = 0 := fun p old =>
    step_spent (.sched taken) old
  refine ⟨fun p there => ?_, fun d member counted type => ?_⟩
  · have old := ((step_inv inv (.sched taken)).owned.held p (held_of_finishing there)).1
    rw [taken.frame.allocated] at old
    rcases schedStep_finishing taken there with before | spent
    · exact kept p old (ok.finishing p before)
    · exact kept p old spent
  · obtain ⟨d', old, task, same, before⟩ := taken.completions dispatches member counted
    rw [task]
    rw [same] at type
    refine kept d'.task (picked d' old).1 ?_
    rcases before with counted | ⟨e, here⟩
    · exact ok.completed d' old counted type
    · refine ok.finishing d'.task ?_
      have ending := inv.runs.ending
      rw [here] at ending ⊢
      rcases ending with rfl | rfl
      · have shell := inv.runs.shell d'.task (by rw [here]; rfl)
        exact absurd ((picked d' old).2.type.symm.trans shell) type
      · rfl

section Run
variable {ok : State → Event → Prop}

theorem run_quanta (run : ServerRun ok s) : QuantaOk s := by
  refine run.invariant_of (J := fun s => Inv s ∧ DispatchesOk s ∧ PickedOk s)
    (fun run => ⟨run_inv run, run_dispatches run, run_picked run⟩) ?_ fun known _ ok _ taken => ?_
  · exact ⟨by simp [State.initial], by simp [State.initial], by simp [State.initial, SchedPc.round], trivial⟩
  · obtain ⟨inv, dispatches, picked⟩ := known
    cases step_cases taken with
    | sched taken => exact schedStep_quanta ok inv dispatches taken
    | worker taken => exact workerStep_quanta ok inv picked taken
    | main taken =>
      have frame := taken.frame
      refine ⟨?_, ?_, ?_, by rw [frame.dispatches]; exact ok.units⟩
      · simpa only [State.marks, frame.task, frame.allocated, frame.pc, frame.dispatches] using ok.counted
      · rw [frame.pc, frame.dispatches]; exact ok.used
      · rw [frame.pc, frame.dispatches]; exact ok.round

theorem run_spent (run : ServerRun ok s) : SpentOk s := by
  refine run.invariant_of (J := fun s => Inv s ∧ DispatchesOk s ∧ PickedOk s)
    (fun run => ⟨run_inv run, run_dispatches run, run_picked run⟩)
    ⟨fun p there => (by cases there), by simp [State.initial]⟩ fun {s e t} known _ ok _ taken => ?_
  obtain ⟨inv, dispatches, picked⟩ := known
  have moved : Step s e t := step_cases taken
  have kept : t.pc = s.pc → t.dispatches = s.dispatches → SpentOk t := by
    intro pc same
    refine ⟨fun p there => ?_, fun d member counted type => ?_⟩
    · rw [pc] at there
      exact step_spent moved (inv.owned.held p (held_of_finishing there)).1 (ok.finishing p there)
    · rw [same] at member
      exact step_spent moved (picked d member).1 (ok.completed d member counted type)
  cases moved with
  | sched taken => exact schedStep_spentOk ok inv dispatches picked taken
  | worker taken => exact kept taken.frame.pc taken.frame.dispatches
  | main taken => exact kept taken.frame.pc taken.frame.dispatches

end Run

structure TimeAccounted (s : State) : Prop where
  bounds : ∀ p < s.allocated, (s.task p).type = .demoProgram →
    0 ≤ (s.task p).remainingTime ∧ (s.task p).remainingTime ≤ (s.task p).burstTime
  total : s.sched.totalTimeUsed = s.timeUsed
  dispatch : ∀ newer d older, s.dispatches = newer ++ d :: older → d.picked.type = .demoProgram →
    d.units ≤ quantumAfter older d.task
  completed : ∀ d ∈ s.dispatches, d.picked.type = .demoProgram → 0 < d.completions →
    s.marks d.task (·.units) = d.picked.burstTime

theorem UnitsOk.split {newer older : List Dispatch} {d : Dispatch} (ok : UnitsOk (newer ++ d :: older)) :
    d.units ≤ quantumAfter older d.task := by
  induction newer with
  | nil => exact ok.1
  | cons _ newer ih => exact ih ok.2

theorem run_time_accounted (run : ServerRun Machine.always s) : TimeAccounted s := by
  have inv := run_inv run
  have picked := run_picked run
  have time := run_time run
  refine ⟨fun p old type => ?_, time.total, fun newer d older split _ => ?_, fun d member type counted => ?_⟩
  · cases inv.tasks.wellFormed p old with
    | shell shell => simp [shell] at type
    | demo _ _ nonneg bounded => exact ⟨nonneg, bounded⟩
  · have units := (run_quanta run).units
    rw [split] at units
    exact units.split
  · have spent := (run_spent run).completed d member counted (by simp [type])
    rw [time.units d.task (picked d member).1, spent, (picked d member).2.burstTime]
    exact Int.sub_zero _

theorem run_time_accounted_demo : ∃ s, ServerRun Machine.always s ∧ s.pc = .peek ∧
    s.dispatches.map (·.units) = [2, 3] ∧ TimeAccounted s := by
  obtain ⟨s, run, seen⟩ := serverRun_by Machine.always
    (Event.connect 5 ++ Event.submit 1 "demo 5" ++ Event.schedule 46)
    (fun s => s.pc = .peek ∧ s.dispatches.map (·.units) = [2, 3]) (by decide +kernel)
  obtain ⟨here, units⟩ := of_decide_eq_true seen
  exact ⟨s, run, here, units, run_time_accounted run⟩

end MyShell
