import MyShell.Server.Selection

/-! # The summary of a drained queue

The idle branch prints the trace when tasks have completed since it last did. It does not look at which
tasks they were, and the trace is never cleared, so that a batch has consumed time since the last summary
just when a demo was taken from the queue. -/

namespace MyShell

open State

def prints (s : State) : Event → Bool
  | .sched _ => s.pc = .idle ∧ s.sched.totalCompleted > s.lastPrintedTotal ∧ s.trace ≠ []
  | _ => false

/-- The end of a slice that takes a unit of time from a demo. -/
def consumes (s : State) : Event → Bool
  | .sched _ =>
    match s.pc with
    | .update r _ => (s.task r.task).type = .demoProgram ∧ (s.task r.task).remainingTime > 0
    | _ => false
  | _ => false

def takes (p : Ptr) (s : State) : Event → Bool
  | .sched _ =>
    match s.pc with
    | .dequeue _ id => (dequeueTaskById s.task id s.queue).map Prod.fst = some p
    | _ => false
  | _ => false

def TakesDemo (s : State) (e : Event) : Prop := ∃ p, takes p s e = true ∧ (s.task p).type = .demoProgram

variable {s t u : State} {a : Answer} {c : ClientId} {e e' : Event} {p : Ptr} {steps : List (State × Event)}

/-! ### Demos that have not run -/

theorem peek_none (inv : Inv s) {last : Int} (nothing : peekBestTaskSjrf s.task s.queue last = none) :
    s.queue = [] := by
  rw [peek_eq, Option.or_eq_none_iff, List.argmin_eq_none, List.filter_eq_nil_iff] at nothing
  obtain ⟨noShell, noDemo⟩ := nothing
  have old : ∀ p ∈ s.queue, p < s.allocated := fun p member => (inv.owned.queued p member).1
  have demo : ∀ p ∈ s.queue, (s.task p).type = .demoProgram := fun p member => by
    have passed := List.find?_eq_none.mp noShell p member
    cases inv.tasks.wellFormed p (old p member) with
    | shell type burst => simp [type, burst] at passed
    | demo type => exact type
  have spared : ∀ p ∈ s.queue, (s.task p).taskId = last ∧
      s.queue.countP (fun curr => (s.task curr).type = .demoProgram) > 1 := fun p member => by
    simpa [eligible, demo p member] using noDemo p member
  by_contra nonempty
  obtain ⟨p, member⟩ := List.exists_mem_of_ne_nil _ nonempty
  obtain ⟨last_p, many⟩ := spared p member
  obtain ⟨q, member', -, other⟩ := (one_lt_countP inv.owned.nodup member (by simpa using demo p member)).mp many
  have same : (s.task p).taskId = (s.task q).taskId := last_p.trans (spared q member').1.symm
  rw [inv.tasks.taskId p (old p member), inv.tasks.taskId q (old q member')] at same
  exact other (Int.ofNat_inj.mp ((Int.add_left_inj 1).mp same)).symm

/-- The task waits or runs, or its worker has still to bring it into the queue. -/
inductive Alive (s : State) (p : Ptr) : Prop where
  | created (old : p < s.allocated) (status : s.status p = .created)
  | queued (member : p ∈ s.queue)
  | held (here : s.pc.held = some p)

def Unspent (s : State) (p : Ptr) : Prop := (s.task p).remainingTime = (s.task p).burstTime

/-- The task of which no slice has come to its end since it was taken. -/
def SchedPc.starting : SchedPc → Option Ptr
  | .setCurrent t | .clearPreempt t | .logStart t => some t
  | .slice r | .update r _ => some r.task
  | _ => none

theorem held_of_starting {pc : SchedPc} (here : pc.starting = some p) : pc.held = some p := by
  cases pc <;> first | exact here | cases here

theorem takes_setCurrent (inv : Inv s) (taken : Step s e t) (begins : takes p s e = true) :
    p ∈ s.queue ∧ t.pc = .setCurrent p ∧ (t.task p).type = (s.task p).type := by
  cases taken with
  | worker => cases begins
  | main => cases begins
  | sched taken =>
    simp only [takes] at begins
    split at begins
    · rename_i q id here
      cases taken with
      | dequeue here' found =>
        cases here.symm.trans here'
        rw [found] at begins
        obtain ⟨rfl, queued, -⟩ := inv.owned.dequeue inv.tasks here found
        cases of_decide_eq_true begins
        exact ⟨queued, rfl, rfl⟩
      | dequeueNone here' missing =>
        cases here.symm.trans here'
        simp [missing] at begins
      | _ =>
        have there := ‹s.pc = _›
        rw [here] at there
        cases there
    · cases begins

theorem step_held (inv : Inv s) (taken : Step s e t) (there : t.pc.held = some p) :
    s.pc.held = some p ∨ takes p s e = true := by
  cases taken with
  | worker taken => exact .inl (taken.frame.pc ▸ there)
  | main taken => exact .inl (taken.frame.pc ▸ there)
  | sched taken =>
    cases taken with
    | dequeue here found =>
      obtain ⟨rfl, -⟩ := inv.owned.dequeue inv.tasks here found
      cases there
      exact .inr (by simp [takes, here, found])
    | relay => exact .inl (by simpa using there)
    | update here | check here | countRound here =>
      simp only [setPc_pc, afterUpdate_held, afterCheck_held, afterQuantum_held] at there
      exact .inl (by rw [here]; exact there)
    | _ =>
      have here := ‹s.pc = _›
      first
        | exact .inl (by rw [here]; exact there)
        | cases there

theorem step_created (taken : Step s e t) (old : p < t.allocated) (status : t.status p = .created) :
    p < s.allocated ∧ s.status p = .created ∨ p = s.allocated ∧ Unspent t p := by
  cases taken with
  | sched taken =>
    rw [taken.frame.allocated] at old
    refine .inl ⟨old, ?_⟩
    cases taken with
    | dequeue | requeue | release =>
      simp only [setPc_status, dequeued_status, enqueueTaskRequeue, onDispatch_status, setStatus_status,
        setQueue_status, Function.update_apply] at status
      split at status <;> simp_all
    | _ => simpa using status
  | main taken => exact .inl ⟨taken.frame.allocated ▸ old, taken.frame.status ▸ status⟩
  | worker taken =>
    cases taken with
    | create =>
      rcases Nat.lt_succ_iff_lt_or_eq.mp old with old | rfl
      · exact .inl ⟨old, by simpa [Nat.ne_of_lt old] using status⟩
      · exact .inr ⟨rfl, by simp [Unspent]⟩
    | enqueue =>
      refine .inl ⟨old, ?_⟩
      simp only [setWorker_status, enqueueTask_status, Function.update_apply] at status
      split at status <;> simp_all
    | remove =>
      refine .inl ⟨old, ?_⟩
      simp only [setWorker_status, removeTasksForClient_status] at status
      split at status <;> simp_all
    | _ => exact .inl ⟨old, by simpa using status⟩

theorem step_alive (inv : Inv s) (taken : Step s e t) (alive : Alive t p) :
    Alive s p ∨ p = s.allocated ∧ Unspent t p := by
  cases alive with
  | created old status => exact (step_created taken old status).imp_left fun before => .created before.1 before.2
  | held there =>
    rcases step_held inv taken there with here | begins
    · exact .inl (.held here)
    · exact .inl (.queued (takes_setCurrent inv taken begins).1)
  | queued member =>
    left
    cases taken with
    | sched taken =>
      cases taken with
      | dequeue here found => exact .queued ((dequeue_mem found p).mpr (.inr member))
      | requeue here =>
        rcases List.mem_append.mp member with old | new
        · exact .queued old
        · exact .held (by rw [here, List.mem_singleton.mp new]; rfl)
      | _ => exact .queued (by simpa using member)
    | main taken => exact .queued (taken.frame.queue ▸ member)
    | worker taken =>
      cases taken with
      | enqueue here =>
        rcases List.mem_append.mp member with old | new
        · exact .queued old
        · obtain rfl := List.mem_singleton.mp new
          have created := inv.owned.created _ _ here
          exact .created created.1 created.2
      | remove => exact .queued (List.mem_filter.mp member).1
      | _ => exact .queued (by simpa using member)

theorem Alive.old (inv : Inv s) (alive : Alive s p) : p < s.allocated := by
  cases alive with
  | created old => exact old
  | queued member => exact (inv.owned.queued p member).1
  | held here => exact (inv.owned.held p here).1

theorem step_unspent (inv : Inv s) (taken : Step s e t) (old : p < s.allocated) (idle : consumes s e = false)
    (unspent : Unspent s p) : Unspent t p := by
  unfold Unspent at unspent ⊢
  cases taken with
  | worker taken => rwa [taken.frame.task p old]
  | main taken => rwa [taken.frame.task]
  | sched taken =>
    rw [(taken.frame.later p).burstTime, ← unspent]
    rcases taken.remaining p with same | ⟨r, done, here, rfl, less⟩
    · exact same
    · have demo := demo_of_ne_shell inv old (inv.runs.demo r.task (by rw [here]; rfl))
      simp only [consumes, here, demo, true_and, decide_eq_false_iff_not, not_lt] at idle
      rw [less, remainingAfter, if_neg (Int.not_lt.mpr idle)]

theorem step_starting (inv : Inv s) (taken : Step s e t) (idle : consumes s e = false) (here : s.pc.starting = some p)
    (demo : (s.task p).type = .demoProgram) (unspent : Unspent s p) :
    t.pc.starting = some p ∧ (t.task p).type = .demoProgram := by
  have held := inv.owned.held p (held_of_starting here)
  refine ⟨?_, (step_later taken held.1).type.trans demo⟩
  cases taken with
  | worker taken => exact taken.frame.pc ▸ here
  | main taken => exact taken.frame.pc ▸ here
  | sched taken =>
    cases taken with
    | @logShell q _ there shell =>
      rw [there] at here
      cases here
      rw [shell] at demo
      cases demo
    | @update r done there =>
      rw [there] at here
      cases here
      -- a demo that has not run has time left
      have positive : (s.task r.task).remainingTime > 0 := by
        unfold Unspent at unspent
        cases inv.tasks.wellFormed r.task held.1 with
        | shell shell => simp [shell] at demo
        | demo _ burst => omega
      simp [consumes, there, demo, positive] at idle
    | _ =>
      have there := ‹s.pc = _›
      rw [there] at here
      first
        | exact here
        | cases here

/-! ### From one visit of the idle branch to the next -/

structure RestsUnspent (s : State) : Prop where
  created : ∀ p < s.allocated, s.status p = .created → Unspent s p
  idle : s.pc = .idle → ∀ p, Alive s p → Unspent s p

theorem step_rests (ok : RestsUnspent s) (inv : Inv s) (taken : Step s e t) : RestsUnspent t := by
  have created : ∀ p < t.allocated, t.status p = .created → Unspent t p := fun p old status => by
    rcases step_created taken old status with ⟨old, before⟩ | ⟨-, unspent⟩
    · have same : t.task p = s.task p := by
        cases taken with
        | worker taken => exact taken.frame.task p old
        | main taken => rw [taken.frame.task]
        | sched taken =>
          refine taken.other_task fun held => ?_
          rw [(inv.owned.held p held).2] at before
          cases before
      unfold Unspent
      rw [same]
      exact ok.created p old before
    · exact unspent
  refine ⟨created, fun there p alive => ?_⟩
  have stays (here : s.pc = .idle) (same : ∀ p < s.allocated, t.task p = s.task p) : Unspent t p := by
    rcases step_alive inv taken alive with before | ⟨-, new⟩
    · unfold Unspent
      rw [same p (before.old inv)]
      exact ok.idle here p before
    · exact new
  cases taken with
  | worker taken => exact stays (taken.frame.pc ▸ there) taken.frame.task
  | main taken => exact stays (taken.frame.pc ▸ there) fun p _ => by rw [taken.frame.task]
  | sched taken =>
    cases taken with
    | peekNone here nothing =>
      cases alive with
      | created old status => exact created p old status
      | queued member => simp [peek_none inv nothing] at member
      | held held => cases held
    | update => exact absurd there (ne_of_held (afterUpdate_held _ _) rfl)
    | check => exact absurd there (ne_of_held (afterCheck_held _ _) rfl)
    | countRound => exact absurd there (ne_of_held (afterQuantum_held _ _) rfl)
    | relay here =>
      have there : s.pc = .idle := by simpa using there
      rw [here] at there
      cases there
    | _ => cases there

theorem run_rests {ok : State → Event → Prop} (run : ServerRun ok s) : RestsUnspent s := by
  refine run.invariant_of run_inv ⟨?_, ?_⟩ fun inv _ ok _ taken => step_rests ok inv (step_cases taken)
  all_goals simp [State.initial]

structure Batch (steps : List (State × Event)) (s : State) : Prop where
  unspent : (∀ y ∈ steps, consumes y.1 y.2 = false) → ∀ p, Alive s p → Unspent s p
  starting : (∀ y ∈ steps, consumes y.1 y.2 = false) → (∃ y ∈ steps, TakesDemo y.1 y.2) →
    ∃ p, s.pc.starting = some p ∧ (s.task p).type = .demoProgram
  held : ∀ p, s.pc.held = some p → ∃ y ∈ steps, takes p y.1 y.2 = true ∧ (y.1.task p).type = (s.task p).type
  demo : (∃ y ∈ steps, consumes y.1 y.2 = true) → ∃ y ∈ steps, TakesDemo y.1 y.2

theorem consumes_held (consumed : consumes s e = true) :
    ∃ p, s.pc.held = some p ∧ (s.task p).type = .demoProgram := by
  cases e with
  | worker => cases consumed
  | main => cases consumed
  | sched a =>
    simp only [consumes] at consumed
    split at consumed
    · rename_i r done here
      exact ⟨r.task, by rw [here]; rfl, (of_decide_eq_true consumed).1⟩
    · cases consumed

theorem step_batch (ok : Batch steps s) (inv : Inv s) (taken : Step s e t) : Batch (steps ++ [(s, e)]) t := by
  have quiet : (∀ y ∈ steps ++ [(s, e)], consumes y.1 y.2 = false) →
      (∀ y ∈ steps, consumes y.1 y.2 = false) ∧ consumes s e = false := fun silent =>
    ⟨fun y member => silent y (List.mem_append_left _ member), silent (s, e) (by simp)⟩
  have unspent : (∀ y ∈ steps ++ [(s, e)], consumes y.1 y.2 = false) → ∀ p, Alive t p → Unspent t p := by
    intro silent p alive
    rcases step_alive inv taken alive with before | ⟨-, new⟩
    · exact step_unspent inv taken (before.old inv) (quiet silent).2 (ok.unspent (quiet silent).1 p before)
    · exact new
  refine ⟨unspent, fun silent ⟨y, member, p, begins, demo⟩ => ?_, fun p there => ?_, fun ⟨y, member, consumed⟩ => ?_⟩
  · rcases List.mem_append.mp member with before | now
    · obtain ⟨q, here, type⟩ := ok.starting (quiet silent).1 ⟨y, before, p, begins, demo⟩
      have alive : Alive s q := .held (held_of_starting here)
      exact ⟨q, step_starting inv taken (quiet silent).2 here type (ok.unspent (quiet silent).1 q alive)⟩
    · obtain rfl := List.mem_singleton.mp now
      obtain ⟨-, there, type⟩ := takes_setCurrent inv taken begins
      exact ⟨p, by rw [there]; rfl, type.trans demo⟩
  · rcases step_held inv taken there with here | begins
    · obtain ⟨y, member, begins, type⟩ := ok.held p here
      have later := step_later taken (inv.owned.held p here).1
      exact ⟨y, List.mem_append_left _ member, begins, type.trans later.type.symm⟩
    · exact ⟨(s, e), by simp, begins, (takes_setCurrent inv taken begins).2.2.symm⟩
  · have before : ∃ y ∈ steps, TakesDemo y.1 y.2 := by
      rcases List.mem_append.mp member with before | now
      · exact ok.demo ⟨y, before, consumed⟩
      · obtain rfl := List.mem_singleton.mp now
        obtain ⟨p, here, demo⟩ := consumes_held consumed
        obtain ⟨z, earlier, begins, type⟩ := ok.held p here
        exact ⟨z, earlier, p, begins, type.trans demo⟩
    obtain ⟨z, earlier, begins⟩ := before
    exact ⟨z, List.mem_append_left _ earlier, begins⟩

theorem prints_idle (printed : prints s e = true) : s.pc = .idle ∧ ∃ a, e = .sched a := by
  cases e with
  | sched a => exact ⟨(of_decide_eq_true printed).1, a, rfl⟩
  | worker => cases printed
  | main => cases printed

theorem batch_start (ok : RestsUnspent s) (inv : Inv s) (printed : prints s e = true) (taken : Step s e t) :
    Batch [] t := by
  obtain ⟨here, a, rfl⟩ := prints_idle printed
  have peek : t.pc = .peek := by
    cases taken with
    | sched taken =>
      cases taken with
      | idle => rfl
      | _ =>
        have there := ‹s.pc = _›
        rw [here] at there
        cases there
  refine ⟨fun _ p alive => ?_, fun _ ⟨y, member, _⟩ => absurd member List.not_mem_nil, fun p held => ?_,
    fun ⟨y, member, _⟩ => absurd member List.not_mem_nil⟩
  · rcases step_alive inv taken alive with before | ⟨-, new⟩
    · exact step_unspent inv taken (before.old inv) (by simp [consumes, here]) (ok.idle here p before)
    · exact new
  · rw [peek] at held
    cases held

/-- Between two summaries a slice has consumed time just when a demo was taken from the queue. -/
theorem run_summary (run : ServerRun Machine.always s) (first : prints s e = true) (taken : step s e = some t)
    (path : Machine.Path step t steps u) (second : prints u e' = true) :
    (∃ y ∈ steps, consumes y.1 y.2 = true) ↔ ∃ y ∈ steps, TakesDemo y.1 y.2 := by
  have inv := run_inv run
  have move := step_cases taken
  have along : Inv u ∧ Batch steps u := by
    apply path.invariant (I := fun steps u => Inv u ∧ Batch steps u)
      ⟨step_inv inv move, batch_start (run_rests run) inv first move⟩
    intro steps v e w ⟨inv, ok⟩ taken
    exact ⟨step_inv inv (step_cases taken), step_batch ok inv (step_cases taken)⟩
  obtain ⟨inv', batch⟩ := along
  refine ⟨batch.demo, fun begins => ?_⟩
  by_contra silent
  obtain ⟨p, there, -⟩ := batch.starting (fun y member => Bool.eq_false_iff.mpr fun consumed => silent ⟨y, member, consumed⟩) begins
  rw [(prints_idle second).1] at there
  cases there

/-- Client 1 runs a demo, up to its summary. -/
def Event.firstSummary : List Event := connect 5 ++ submit 1 "demo 1" ++ schedule 22

theorem run_summary_demos : ∃ s t u steps, ServerRun Machine.always s ∧ prints s (.sched {}) = true ∧
    step s (.sched {}) = some t ∧ Machine.Path step t steps u ∧ prints u (.sched {}) = true ∧
      ∃ y ∈ steps, consumes y.1 y.2 = true := by
  obtain ⟨s, run, seen⟩ := serverRun_by Machine.always Event.firstSummary
    (fun s => prints s (.sched {}) = true ∧ (step s (.sched {})).any (fun t =>
      (Machine.follow step Machine.always t (Event.submit 1 "demo 2" ++ Event.schedule 2)).any fun v =>
        takes 1 v (.sched {}) = true ∧ (v.task 1).type = .demoProgram ∧ (step v (.sched {})).any fun w =>
          (Machine.follow step Machine.always w (Event.schedule 21)).any fun u => prints u (.sched {}) = true) = true)
    (by decide +kernel)
  obtain ⟨first, seen⟩ := of_decide_eq_true seen
  obtain ⟨t, taken, seen⟩ := (Option.any_eq_true ..).mp seen
  obtain ⟨v, before, seen⟩ := Machine.exists_run _ seen
  obtain ⟨begins, demo, seen⟩ := of_decide_eq_true seen
  obtain ⟨w, removal, seen⟩ := (Option.any_eq_true ..).mp seen
  obtain ⟨u, after, seen⟩ := Machine.exists_run _ seen
  have second := of_decide_eq_true seen
  obtain ⟨earlier, path, -⟩ := before.path
  obtain ⟨later, path', -⟩ := after.path
  have whole := (path.next removal).trans path'
  refine ⟨s, t, u, _, run, first, taken, whole, second, (run_summary run first taken whole second).mpr ?_⟩
  exact ⟨(v, .sched {}), by simp, 1, begins, demo⟩

/-- A shell command completes after the summary, and the trace of the demo is printed again. -/
theorem summary_of_shells : ¬ ∀ s e t steps u e', ServerRun Machine.always s → prints s e = true →
    step s e = some t → Machine.Path step t steps u → (∀ y ∈ steps, prints y.1 y.2 = false) → prints u e' = true →
      ∃ y ∈ steps, consumes y.1 y.2 = true := by
  intro claimed
  obtain ⟨s, run, seen⟩ := serverRun_by Machine.always Event.firstSummary
    (fun s => prints s (.sched {}) = true ∧ (step s (.sched {})).any (fun t =>
      (Machine.follow step (fun s e => prints s e = false ∧ consumes s e = false) t
        (Event.submit 1 "ls" ++ Event.schedule 6 ++ [.sched { pipe := some (6, 7) }] ++ Event.schedule 11)).any
          fun u => prints u (.sched {}) = true) = true)
    (by decide +kernel)
  obtain ⟨first, seen⟩ := of_decide_eq_true seen
  obtain ⟨t, taken, seen⟩ := (Option.any_eq_true ..).mp seen
  obtain ⟨u, between, seen⟩ := Machine.exists_run _ seen
  obtain ⟨steps, path, quiet⟩ := between.path
  obtain ⟨y, member, consumed⟩ := claimed s _ t steps u _ run first taken path (fun y member => (quiet y member).1)
    (of_decide_eq_true seen)
  rw [(quiet y member).2] at consumed
  cases consumed

end MyShell
