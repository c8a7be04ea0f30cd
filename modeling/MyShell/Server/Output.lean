import MyShell.Demo
import MyShell.Server.Accounting
import Mathlib.Algebra.Order.BigOperators.Group.List
import Mathlib.Algebra.Order.Group.Int

/-! # The output of a demo

However its slices are cut, what is written for a demo is the text that the demo program prints, and
then one END_MARKER. -/

namespace MyShell

open State

def Write.accepted (w : Write) : CString :=
  match w.sent with
  | .all => w.data
  | .failed accepted => w.data.take accepted

def State.output (s : State) (p : Ptr) : CString := (s.writes.filter (·.task = some p)).flatMap (·.data)

def State.received (s : State) (p : Ptr) : CString := (s.writes.filter (·.task = some p)).flatMap (·.accepted)

def State.marked (s : State) (p : Ptr) : Bool := s.writes.any fun w => w.task = some p ∧ w.endMarker

def SchedPc.marked : SchedPc → Option Ptr
  | .logBytes t _ | .logEnded t _ | .complete t _ | .release t _ => some t
  | _ => none

/-- The demo whose last line is not yet taken from its remaining time, or never will be. -/
def SchedPc.printed : SchedPc → Option Ptr
  | .update r _ => some r.task
  | pc => pc.finishing

def State.lines (s : State) (p : Ptr) : Nat :=
  ((s.task p).burstTime - (s.task p).remainingTime).toNat +
    if s.pc.printed = some p ∨ s.marked p = true then 1 else 0

structure OutputOk (s : State) : Prop where
  old : ∀ w ∈ s.writes, ∀ p, w.task = some p → p < s.allocated
  freed : ∀ p, s.marked p = true → s.status p = .released ∨ s.pc.marked = some p
  marked : ∀ p, s.pc.marked = some p → s.marked p = true
  update : ∀ r done, s.pc = .update r done → done = decide ((s.task r.task).remainingTime = 0)
  text : ∀ p < s.allocated, (s.task p).type = .demoProgram →
    s.output p = demoLines (s.task p).burstTime (s.lines p) ++ if s.marked p = true then END_MARKER else []

variable {s t : State} {a : Answer} {c : ClientId} {e : Event} {p : Ptr} {w : Write}

theorem output_append (appended : t.writes = s.writes ++ [w]) :
    t.output p = s.output p ++ if w.task = some p then w.data else [] := by
  unfold State.output
  rw [appended, List.filter_append, List.flatMap_append]
  by_cases mine : w.task = some p <;> simp [mine]

theorem marked_append (appended : t.writes = s.writes ++ [w]) :
    t.marked p = (s.marked p || decide (w.task = some p ∧ w.endMarker = true)) := by
  simp [State.marked, appended]

theorem output_of_writes (same : t.writes = s.writes) : t.output p = s.output p := by rw [State.output, same]; rfl

theorem marked_of_writes (same : t.writes = s.writes) : t.marked p = s.marked p := by rw [State.marked, same]; rfl

theorem marked_later (grown : s.writes <+: t.writes) (marked : s.marked p = true) : t.marked p = true := by
  obtain ⟨w, member, marker⟩ := List.any_eq_true.mp marked
  exact List.any_eq_true.mpr ⟨w, grown.subset member, marker⟩

theorem held_of_printed {pc : SchedPc} (here : pc.printed = some p) : pc.held = some p := by
  cases pc <;> first | exact here | exact held_of_finishing here

theorem OutputOk.fresh (ok : OutputOk s) : s.output s.allocated = [] := by
  refine List.flatMap_eq_nil_iff.mpr fun w member => ?_
  obtain ⟨old, written⟩ := List.mem_filter.mp member
  exact absurd (ok.old w old _ (of_decide_eq_true written)) (Nat.lt_irrefl _)

theorem OutputOk.known (ok : OutputOk s) (marked : s.marked p = true) : p < s.allocated := by
  obtain ⟨w, member, written⟩ := List.any_eq_true.mp marked
  exact ok.old w member p (of_decide_eq_true written).1

theorem OutputOk.unmarked (ok : OutputOk s) (inv : Inv s) (held : s.pc.held = some p) (running : s.pc.marked = none) :
    s.marked p = false := by
  rw [Bool.eq_false_iff]
  intro marked
  rcases ok.freed p marked with released | here
  · simp [(inv.owned.held p held).2] at released
  · simp [running] at here

theorem lines_kept (writes : t.writes = s.writes) (burst : (t.task p).burstTime = (s.task p).burstTime)
    (remaining : (t.task p).remainingTime = (s.task p).remainingTime)
    (printed : s.marked p = true ∨ (t.pc.printed = some p ↔ s.pc.printed = some p)) : t.lines p = s.lines p := by
  rw [State.lines, State.lines, marked_of_writes writes, burst, remaining]
  rcases printed with marked | same
  · simp [marked]
  · simp [same]

theorem OutputOk.still (ok : OutputOk s) (inv : Inv s) (taken : SchedStep s a t) (writes : t.writes = s.writes)
    (freed : ∀ p, s.pc.marked = some p → t.status p = .released ∨ t.pc.marked = some p)
    (marked : ∀ p, t.pc.marked = some p → s.pc.marked = some p)
    (update : ∀ r done, t.pc ≠ .update r done)
    (lines : ∀ p < s.allocated, (s.task p).type = .demoProgram → t.lines p = s.lines p) : OutputOk t := by
  have frame := taken.frame
  refine ⟨fun w member p => ?_, fun p there => ?_, fun p there => ?_, fun r done there => absurd there (update r done),
    fun p old type => ?_⟩
  · rw [frame.allocated]
    exact ok.old w (writes ▸ member) p
  · rw [marked_of_writes writes] at there
    rcases ok.freed p there with released | here
    · exact .inl (step_released inv (.sched taken) (ok.known there) released)
    · exact freed p here
  · rw [marked_of_writes writes]
    exact ok.marked p (marked p there)
  · rw [frame.allocated] at old
    have later := frame.later p
    rw [later.type] at type
    rw [output_of_writes writes, marked_of_writes writes, later.burstTime, lines p old type]
    exact ok.text p old type

theorem OutputOk.quiet (ok : OutputOk s) (inv : Inv s) (taken : SchedStep s a t) (writes : t.writes = s.writes)
    (remaining : ∀ p, (t.task p).remainingTime = (s.task p).remainingTime)
    (marked : t.pc.marked = s.pc.marked) (printed : t.pc.printed = s.pc.printed)
    (update : ∀ r done, t.pc ≠ .update r done) : OutputOk t :=
  ok.still inv taken writes (fun _ here => .inr (marked ▸ here)) (fun _ there => marked ▸ there) update fun p _ _ =>
    lines_kept writes (taken.frame.later p).burstTime (remaining p) (.inr (by rw [printed]))

theorem OutputOk.write (ok : OutputOk s) (inv : Inv s) (taken : SchedStep s a t) {q : Ptr} (held : s.pc.held = some q)
    (task : w.task = some q) (writes : t.writes = s.writes ++ [w]) (status : t.status = s.status)
    (remaining : ∀ p, (t.task p).remainingTime = (s.task p).remainingTime)
    (unmarked : s.pc.marked = none) (marks : t.pc.marked = if w.endMarker then some q else none)
    (unprinted : ∀ p ≠ q, s.pc.printed ≠ some p ∧ t.pc.printed ≠ some p)
    (update : ∀ r done, t.pc = .update r done → done = decide ((t.task r.task).remainingTime = 0))
    (text : (s.task q).type = .demoProgram → s.marked q = false → t.output q =
      demoLines (s.task q).burstTime (t.lines q) ++ if t.marked q = true then END_MARKER else []) : OutputOk t := by
  have frame := taken.frame
  refine ⟨fun w' member p mine => ?_, fun p there => ?_, fun p there => ?_, update, fun p old type => ?_⟩
  · rw [frame.allocated]
    rw [writes] at member
    rcases List.mem_append.mp member with old | new
    · exact ok.old w' old p mine
    · rw [List.mem_singleton.mp new, task] at mine
      exact Option.some.inj mine ▸ (inv.owned.held q held).1
  · rw [marked_append writes, Bool.or_eq_true] at there
    rcases there with before | now
    · rcases ok.freed p before with released | here
      · exact .inl (status ▸ released)
      · simp [unmarked] at here
    · obtain ⟨mine, marker⟩ := of_decide_eq_true now
      rw [task] at mine
      exact .inr (by rw [marks, marker, ← mine]; rfl)
  · rw [marks] at there
    split at there
    · obtain rfl := Option.some.inj there
      rename_i marker
      simp [marked_append writes, task, marker]
    · cases there
  · rw [frame.allocated] at old
    have later := frame.later p
    rw [later.type] at type
    rw [later.burstTime]
    by_cases same : p = q
    · subst same
      exact text type (ok.unmarked inv held unmarked)
    · have other : w.task ≠ some p := by
        rw [task]
        exact fun here => same (Option.some.inj here).symm
      have kept : t.marked p = s.marked p := by simp [marked_append writes, other]
      have silent := unprinted p same
      have before := ok.text p old type
      rw [output_append writes, if_neg other, List.append_nil, before]
      simp only [State.lines, kept, remaining, later.burstTime, silent.1, silent.2]

theorem lines_of_unprinted (unprinted : s.pc.printed ≠ some p) (unmarked : s.marked p = false) :
    s.lines p = ((s.task p).burstTime - (s.task p).remainingTime).toNat := by
  simp [State.lines, unprinted, unmarked]

theorem lines_of_printed (printed : s.pc.printed = some p ∨ s.marked p = true) :
    s.lines p = ((s.task p).burstTime - (s.task p).remainingTime).toNat + 1 := by
  rw [State.lines, if_pos printed]

theorem lines_of_update (ok : OutputOk s) (inv : Inv s) {r : Round} {done : Bool} (here : s.pc = .update r done)
    (writes : t.writes = s.writes) (printed : t.pc.printed = if done then some r.task else none)
    (later : ∀ p, (t.task p).burstTime = (s.task p).burstTime ∧ (t.task p).remainingTime =
      if p = r.task then remainingAfter (s.task p).remainingTime 1 else (s.task p).remainingTime)
    (p : Ptr) (old : p < s.allocated) (demo : (s.task p).type = .demoProgram) : t.lines p = s.lines p := by
  have was : s.pc.printed = some r.task := by rw [here]; rfl
  have remaining := (later p).2
  by_cases same : p = r.task
  · subst same
    rw [State.lines, State.lines, marked_of_writes writes, was, printed, (later _).1, remaining, if_pos rfl]
    have fresh := ok.unmarked inv (p := r.task) (by rw [here]; rfl) (by rw [here]; rfl)
    have last := ok.update r done here
    cases inv.tasks.wellFormed _ old with
    | shell shell => simp [shell] at demo
    | demo _ _ nonneg bounded =>
      cases done with
      | true =>
        have spent : (s.task r.task).remainingTime = 0 := of_decide_eq_true last.symm
        simp [spent, remainingAfter]
      | false =>
        have left : (s.task r.task).remainingTime ≠ 0 := of_decide_eq_false last.symm
        have less : remainingAfter (s.task r.task).remainingTime 1 = (s.task r.task).remainingTime - 1 := by
          unfold remainingAfter
          split <;> (try split) <;> omega
        simp [less, fresh]
        omega
  · rw [if_neg same] at remaining
    exact lines_kept writes (later p).1 remaining (.inr (by cases done <;> simp [was, printed, Ne.symm same]))

theorem schedStep_output (ok : OutputOk s) (inv : Inv s) (taken : SchedStep s a t) : OutputOk t := by
  have quiet := ok.quiet inv taken
  have still := ok.still inv taken
  have write := fun w q => ok.write (w := w) (q := q) inv taken
  have remaining := taken.remaining_kept
  have later := taken.frame.later
  cases taken with
  | @relay q r chunk here answer nonempty fits sent =>
    have shell := inv.runs.shell q (by rw [here]; rfl)
    exact write _ q (by rw [here]; rfl) rfl rfl rfl (remaining (by simp [here])) (by rw [here]; rfl)
      (by simp [here, SchedPc.marked]) (by simp [here, SchedPc.printed, SchedPc.finishing]) (by simp [here])
      fun demo => by simp [shell] at demo
  | @slice r line done here type text sent last =>
    have held := inv.owned.held r.task (by rw [here]; rfl)
    have remaining := remaining (by simp [here])
    have unprinted : s.pc.printed = none := by rw [here]; rfl
    refine write _ r.task (by rw [here]; rfl) rfl rfl rfl remaining (by rw [here]; rfl) (by simp [SchedPc.marked])
      (fun p other => ⟨by simp [unprinted], by simpa [SchedPc.printed] using Ne.symm other⟩)
      (fun r' done' there => ?_) fun demo fresh => ?_
    · obtain ⟨rfl, rfl⟩ := SchedPc.update.inj there
      rw [remaining, last]
    · have before := ok.text r.task held.1 demo
      rw [lines_of_unprinted (by simp [unprinted]) fresh, if_neg (by simp [fresh]), List.append_nil] at before
      rw [output_append rfl, marked_append rfl, lines_of_printed (.inl rfl), remaining, (later r.task).burstTime,
        demoLines_succ, before, text]
      cases inv.tasks.wellFormed r.task held.1 with
      | shell shell => simp [shell] at demo
      | demo _ _ nonneg bounded =>
        rw [Int.toNat_of_nonneg (by omega)]
        simp [fresh]
  | @sendMarker q e here sent =>
    have held := inv.owned.held q (by rw [here]; rfl)
    have remaining := remaining (by simp [here])
    have ending := inv.runs.ending
    rw [here] at ending
    refine write _ q (by rw [here]; rfl) rfl rfl rfl remaining (by rw [here]; rfl) rfl (fun p other => ?_) (by simp)
      fun demo fresh => ?_
    · rcases ending with rfl | rfl <;> simp [here, SchedPc.printed, SchedPc.finishing, Ne.symm other]
    · rcases ending with rfl | rfl
      · simp [inv.runs.shell q (by rw [here]; rfl)] at demo
      · have before := ok.text q held.1 demo
        rw [lines_of_printed (.inl (by rw [here]; rfl)), if_neg (by simp [fresh]), List.append_nil] at before
        rw [output_append rfl, marked_append rfl, lines_of_printed (.inl rfl), remaining, (later q).burstTime, before]
        simp
  | @update r done here =>
    have held : s.pc.held = some r.task := by rw [here]; rfl
    have old := (inv.owned.held r.task held).1
    refine still rfl (by simp [here, SchedPc.marked]) (by cases done <;> simp [afterUpdate, SchedPc.marked])
      (by cases done <;> simp [afterUpdate]) (lines_of_update ok inv here rfl (by cases done <;> rfl) (fun p => ?_))
    by_cases same : p = r.task
    · subst same; simp
    · simp [same]
  | @release q e here =>
    refine still rfl (by simp [here, SchedPc.marked]) (by simp [SchedPc.marked]) (by simp) fun p old demo => ?_
    have ended : s.pc.printed = some p → s.marked p = true := fun printed => by
      have mine : q = p := by
        rw [here] at printed
        cases e <;> first | exact Option.some.inj printed | cases printed
      exact mine ▸ ok.marked q (by rw [here]; rfl)
    refine lines_kept rfl (by simp) (by simp) ?_
    by_cases marked : s.marked p = true
    · exact .inl marked
    · exact .inr ⟨fun there => (by cases there), fun printed => absurd (ended printed) marked⟩
  | @sliceNothing r here type =>
    have demo := demo_of_ne_shell inv (inv.owned.held r.task (by rw [here]; rfl)).1
      (inv.runs.demo r.task (by rw [here]; rfl))
    exact absurd demo type
  | @check r here =>
    rcases afterCheck_cases r s.preemptFlag with ⟨o, going, same⟩ | same <;> rw [same] at quiet ⊢
    · exact quiet rfl (fun _ => rfl) (by rw [here]; rfl)
        (by rw [here]; cases o <;> first | rfl | exact absurd rfl going) (by simp)
    · exact quiet rfl (fun _ => rfl) (by rw [here]; rfl) (by rw [here]; rfl) (by simp)
  | @countRound q o here =>
    exact quiet rfl (remaining (by simp [here])) (by rw [here]; cases o <;> rfl) (by rw [here]; cases o <;> rfl)
      (by cases o <;> simp [afterQuantum])
  | appendTrace here =>
    exact quiet (by simp) (by simp) (by rw [here]; rfl) (by rw [here]; cases ‹Outcome› <;> rfl) (by simp)
  | logBytes here | logEnded here | complete here =>
    exact quiet (by simp) (by simp) (by rw [here]; rfl) (by rw [here]; cases ‹Ending› <;> rfl) (by simp)
  | _ =>
    have here := ‹s.pc = _›
    exact quiet (by simp) (by simp) (by rw [here]; rfl) (by rw [here]; rfl) (by simp)

theorem WorkerStep.created (taken : WorkerStep s c a t) (more : p < t.allocated) :
    p < s.allocated ∨ p = s.allocated ∧ (t.task p).remainingTime = (t.task p).burstTime := by
  cases taken with
  | create =>
    rcases Nat.lt_succ_iff_lt_or_eq.mp more with old | rfl
    · exact .inl old
    · exact .inr ⟨rfl, by simp⟩
  | _ => exact .inl more

theorem workerStep_output (ok : OutputOk s) (inv : Inv s) (taken : WorkerStep s c a t) : OutputOk t := by
  have frame := taken.frame
  have more := step_allocated (.worker taken)
  have same : ∀ p, t.output p = s.output p ∧ t.marked p = s.marked p := fun p => by
    rcases taken.wrote with writes | ⟨w, appended, own⟩
    · exact ⟨output_of_writes writes, marked_of_writes writes⟩
    · exact ⟨by simp [output_append appended, own.task], by simp [marked_append appended, own.task]⟩
  have mine : ∀ p w, w ∈ t.writes → w.task = some p → w ∈ s.writes := fun p w member written => by
    rcases taken.wrote with writes | ⟨w', appended, own⟩
    · exact writes ▸ member
    · rcases List.mem_append.mp (appended ▸ member) with old | new
      · exact old
      · simp [List.mem_singleton.mp new, own.task] at written
  refine ⟨fun w member p written => ?_, fun p marked => ?_, fun p here => ?_, fun r done here => ?_,
    fun p there type => ?_⟩
  · exact Nat.lt_of_lt_of_le (ok.old w (mine p w member written) p written) more
  · rw [(same p).2] at marked
    rw [frame.pc]
    rcases ok.freed p marked with released | here
    · exact .inl (step_released inv (.worker taken) (ok.known marked) released)
    · exact .inr here
  · rw [frame.pc] at here
    rw [(same p).2]
    exact ok.marked p here
  · rw [frame.pc] at here
    rw [frame.task r.task (inv.owned.held r.task (by rw [here]; rfl)).1]
    exact ok.update r done here
  · rw [(same p).1, State.lines, (same p).2, frame.pc]
    rcases taken.created there with old | ⟨rfl, whole⟩
    · rw [frame.task p old] at type ⊢
      exact ok.text p old type
    · have nothing := ok.fresh
      have unmarked : s.marked s.allocated = false :=
        Bool.eq_false_iff.mpr fun marked => Nat.lt_irrefl _ (ok.known marked)
      have unprinted : s.pc.printed ≠ some s.allocated := fun printed =>
        Nat.lt_irrefl _ (inv.owned.held _ (held_of_printed printed)).1
      simp [nothing, unmarked, unprinted, whole]

theorem run_output {ok : State → Event → Prop} (run : ServerRun ok s) : OutputOk s := by
  refine run.invariant_of run_inv ⟨?_, ?_, ?_, ?_, ?_⟩ fun inv _ ok _ taken => ?_
  case refine_6 =>
    cases step_cases taken with
    | sched taken => exact schedStep_output ok inv taken
    | worker taken => exact workerStep_output ok inv taken
    | main taken =>
      have frame := taken.frame
      obtain ⟨old, freed, marked, update, text⟩ := ok
      refine ⟨?_, ?_, ?_, ?_, ?_⟩
      · rwa [frame.writes, frame.allocated]
      · simpa only [State.marked, frame.writes, frame.status, frame.pc] using freed
      · simpa only [State.marked, frame.writes, frame.pc] using marked
      · rwa [frame.pc, frame.task]
      · simp only [frame.allocated, frame.task, State.lines, frame.pc, output_of_writes frame.writes,
          marked_of_writes frame.writes]
        exact text
  all_goals simp [State.initial, State.marked, SchedPc.marked]

/-! ### The command of a task -/

/-- A command line fits the buffer of its task, which was parsed from the whole of it. -/
structure CommandsOk (s : State) : Prop where
  fits : ∀ c command, s.worker c = .logCommand command ∨ s.worker c = .create command →
    command.length ≤ BUFFER_SIZE - 1
  parsed : ∀ p < s.allocated, parseDemoCommand (s.task p).command =
    if (s.task p).type = .demoProgram then some (s.task p).burstTime else none

theorem CommandsOk.later (ok : CommandsOk s) (allocated : t.allocated = s.allocated)
    (later : ∀ p < s.allocated, (s.task p).Later (t.task p))
    (fits : ∀ c command, t.worker c = .logCommand command ∨ t.worker c = .create command →
      command.length ≤ BUFFER_SIZE - 1) : CommandsOk t where
  fits := fits
  parsed p old := by
    rw [allocated] at old
    rw [(later p old).command, (later p old).type, (later p old).burstTime]
    exact ok.parsed p old

theorem step_commands (ok : CommandsOk s) (taken : Step s e t) : CommandsOk t := by
  have later : ∀ p < s.allocated, (s.task p).Later (t.task p) := fun p old => step_later taken old
  cases taken with
  | sched taken => exact ok.later taken.frame.allocated later (by rw [taken.frame.worker]; exact ok.fits)
  | main taken =>
    refine ok.later taken.frame.allocated later fun c command here => ?_
    by_cases starting : s.main = .spawn c
    · rcases taken.spawned starting with there | there
      · simp [there] at here
      · exact ok.fits c command (there ▸ here)
    · exact ok.fits c command (taken.worker starting ▸ here)
  | @worker c a _ taken =>
    have fits : ∀ c' command, t.worker c' = .logCommand command ∨ t.worker c' = .create command →
        command.length ≤ BUFFER_SIZE - 1 := fun c' command here => by
      by_cases same : c' = c
      · subst same
        cases taken with
        | @recv chunk _ _ _ fits =>
          obtain rfl : commandOf chunk = command := by simpa using here
          exact Nat.le_trans (List.takeWhile_sublist _).length_le fits
        | @command command' here' =>
          obtain rfl : command' = command := by simpa using here
          exact ok.fits _ _ (.inl here')
        | _ => simp at here
      · rw [taken.frame.worker c' same] at here
        exact ok.fits c' command here
    cases taken with
    | @create command here =>
      refine ⟨fits, fun p there => ?_⟩
      rcases Nat.lt_succ_iff_lt_or_eq.mp there with old | rfl
      · simpa [Nat.ne_of_lt old] using ok.parsed p old
      · have parsed := create_parsed (s.context c) s.nextTaskId s.nextArrivalOrder (ok.fits c command (.inr here))
        simp only [setWorker_task, createTask_task, Function.update_self, parsed.1]
        exact parsed.2
    | _ => exact ok.later (by simp) later fits

theorem run_commands {ok : State → Event → Prop} (run : ServerRun ok s) : CommandsOk s :=
  run.invariant (by constructor <;> simp [State.initial]) fun ok _ taken => step_commands ok (step_cases taken)

/-! ### A completed demo -/

theorem ending_endMarkers {o : Ending} (counted : 0 < o.tally.completions) : o.tally.endMarkers = 1 := by
  cases o <;> first | rfl | cases counted

theorem pc_endMarkers {pc : SchedPc} (counted : 0 < pc.tally.completions) : pc.tally.endMarkers = 1 := by
  cases pc <;> first | rfl | exact ending_endMarkers counted | cases counted

theorem DispatchesOk.endMarkers {d : Dispatch} (ok : DispatchesOk s) (member : d ∈ s.dispatches)
    (counted : 0 < d.completions) : d.endMarkers = 1 := by
  show d.tally.endMarkers = 1
  rcases ok.over_or_running member with ⟨-, e, tally, -⟩ | ⟨p, running⟩
  · rw [tally]
    exact ending_endMarkers (tally ▸ counted : 0 < e.tally.completions)
  · rw [running.tally]
    exact pc_endMarkers (running.tally ▸ counted : 0 < s.pc.tally.completions)

theorem marked_of_completed {ok : State → Event → Prop} (run : ServerRun ok s) {d : Dispatch}
    (member : d ∈ s.dispatches) (counted : 0 < d.completions) : s.marked d.task = true := by
  have here : (d.endMarkers : Int) ≤ s.marks d.task (·.endMarkers) := by
    refine List.single_le_sum (fun n member => ?_) _ (List.mem_map.mpr ⟨d, by simp [member], rfl⟩)
    obtain ⟨d', -, rfl⟩ := List.mem_map.mp member
    exact Int.natCast_nonneg _
  rw [(run_dispatches run).endMarkers member counted, ← (run_marks run).endMarkers] at here
  obtain ⟨w, written, marker⟩ := List.countP_pos_iff.mp (Int.ofNat_le.mp here)
  exact List.any_eq_true.mpr ⟨w, written, marker⟩

/-- What is written for a completed `demo N`, if all of it is accepted: what the demo program prints for `N`, the
lines up to `N`, and one END_MARKER. -/
def State.DemoText (s : State) (p : Ptr) (n : Nat) : Prop :=
  s.received p = (demoMain [decimal n]).stdout ++ END_MARKER ∧ (demoMain [decimal n]).stdout = demoLines n (n + 1)

theorem run_demo_output {d : Dispatch} {n : Nat} (run : ServerRun Machine.always s) (member : d ∈ s.dispatches)
    (completed : 0 < d.completions) (command : (s.task d.task).command = "demo ".toList ++ decimal n)
    (positive : 0 < n) (accepted : ∀ w ∈ s.writes, w.task = some d.task → w.sent = .all) :
    s.DemoText d.task n ↔ (n : Int) ≤ INT_MAX := by
  refine ⟨fun text => (demoMain_lines positive).mp text.2, fun small => ⟨?_, (demoMain_lines positive).mpr small⟩⟩
  have picked := run_picked run d member
  have argument : atoi (decimal n) = n := atoi_decimal small
  have counts : 0 < atoi (decimal n) := by
    rw [argument]
    exact Int.ofNat_lt.mpr positive
  have read := (run_commands run).parsed d.task picked.1
  rw [command, parseDemoCommand_decimal, if_pos counts] at read
  have demo : (s.task d.task).type = .demoProgram := by
    by_contra other
    simp [other] at read
  rw [if_pos demo] at read
  have burst := Option.some.inj read
  have marked := marked_of_completed run member completed
  have spent := (run_spent run).completed d member completed (by rw [← picked.2.type, demo]; simp)
  have text := (run_output run).text d.task picked.1 demo
  rw [lines_of_printed (.inr marked), spent, Int.sub_zero, if_pos marked, ← burst, ← demoMain_stdout counts] at text
  have received : s.received d.task = s.output d.task := by
    unfold State.received State.output
    refine List.flatMap_congr fun w written => ?_
    obtain ⟨old, mine⟩ := List.mem_filter.mp written
    rw [Write.accepted, accepted w old (of_decide_eq_true mine)]
  exact received.trans text

/-- The demo is preempted by a shorter one and goes on after it. -/
theorem run_demo_output_preempted : ∃ s, ServerRun Machine.always s ∧ s.dispatches.map (·.task) = [0, 1, 0] ∧
    s.DemoText 0 4 := by
  obtain ⟨s, run, seen⟩ := serverRun_by Machine.always
    (Event.connect 5 ++ Event.connect 6 ++ Event.submit 1 "demo 4" ++ Event.schedule 8 ++
      Event.submit 2 "demo 1" ++ Event.schedule 60)
    (fun s => s.dispatches.map (·.task) = [0, 1, 0] ∧ (∃ d ∈ s.dispatches, d.task = 0 ∧ 0 < d.completions) ∧
      (s.task 0).command = "demo ".toList ++ decimal (4 : Nat) ∧
      ∀ w ∈ s.writes, w.task = some 0 → w.sent = .all) (by decide +kernel)
  obtain ⟨order, ⟨d, member, mine, completed⟩, command, accepted⟩ := of_decide_eq_true seen
  have output := run_demo_output run member completed (by rw [mine]; exact command) (by decide)
    (by rw [mine]; exact accepted)
  exact ⟨s, run, order, mine ▸ output.mpr (by decide)⟩

/-- The number is cut to an `int`, and the demo counts to 1. -/
theorem large_demo_cut : ¬ ∀ (s : State) (d : Dispatch) (n : Nat), ServerRun Machine.always s → d ∈ s.dispatches →
    0 < d.completions → (s.task d.task).command = "demo ".toList ++ decimal n → 0 < n →
      (∀ w ∈ s.writes, w.task = some d.task → w.sent = .all) → s.DemoText d.task n := by
  intro claimed
  obtain ⟨s, run, seen⟩ := serverRun_by Machine.always
    (Event.connect 5 ++ Event.submit 1 "demo 4294967297" ++ Event.schedule 30)
    (fun s => (∃ d ∈ s.dispatches, d.task = 0 ∧ 0 < d.completions) ∧
      (s.task 0).command = "demo ".toList ++ decimal (4294967297 : Nat) ∧
      ∀ w ∈ s.writes, w.task = some 0 → w.sent = .all) (by decide +kernel)
  obtain ⟨⟨d, member, mine, completed⟩, command, accepted⟩ := of_decide_eq_true seen
  have text := claimed s d 4294967297 run member completed (by rw [mine]; exact command) (by decide)
    (by rw [mine]; exact accepted)
  exact absurd ((demoMain_lines (by decide)).mp text.2) (by decide)

end MyShell
