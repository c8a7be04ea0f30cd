import MyShell.Server.Selection

/-! # Who runs after a preemption

`scheduler_should_preempt` and `peek_best_task_sjrf` order tasks each in their own way. Where the first
has preempted a demo for a new task, the second hands over to a task that is as urgent as the new one. -/

namespace MyShell

open State

def flagUp (d : Ptr) (s : State) (_ : Event) : Prop := s.preemptFlag = true ∧ s.sched.currentTask = some d

/-- `scheduler_notify_new_task` has raised the flag for the task `n` during the dispatch of the demo `d`,
and the scheduler has just seen it and preempts `d`. -/
inductive PreemptedFor (n d : Ptr) : State → Prop where
  | intro {s₁ s₂ s₃ t : State} {c : ClientId} {a a' : Answer} {r : Round}
      (run : ServerRun Machine.always s₁) (here : s₁.worker c = .notify n)
      (current : s₁.sched.currentTask = some d)
      (preempts : schedulerShouldPreempt (some (s₁.task n)) (some (s₁.task d)) = true)
      (notify : step s₁ (.worker c a) = some s₂) (flag : Machine.Run step (flagUp d) s₂ s₃)
      (check : s₃.pc = .check r) (running : r.task = d) (up : s₃.schedulerCheckPreempt = true)
      (taken : step s₃ (.sched a') = some t) : PreemptedFor n d t

/-- The step is not a peek that returns a task. -/
def picksNothing (s : State) (_ : Event) : Prop :=
  s.pc = .peek → peekBestTaskSjrf s.task s.queue s.sched.lastSelectedTaskId = none

instance (d : Ptr) (s : State) (e : Event) : Decidable (flagUp d s e) := inferInstanceAs (Decidable (_ ∧ _))

instance (s : State) (e : Event) : Decidable (picksNothing s e) := inferInstanceAs (Decidable (_ → _))

/-- From the preemption of the demo `d` to the next task that is peeked. -/
def HandsOver (d : Ptr) (s : State) : Prop :=
  match s.pc with
  | .appendTrace r o => r.task = d ∧ o = .preempted
  | .countRound t o => t = d ∧ o = .preempted
  | .logRequeue t _ | .setLast t => t = d
  | .requeue t | .clearCurrent t .demoRequeued | .clearFlag t .demoRequeued =>
    t = d ∧ s.sched.lastSelectedTaskId = (s.task d).taskId
  | .peek | .idle => s.sched.lastSelectedTaskId = (s.task d).taskId
  | _ => False

variable {s t u : State} {a : Answer} {e : Event} {n d x : Ptr}

theorem shouldPreempt_irrefl (task : Task) : schedulerShouldPreempt (some task) (some task) = false := by
  unfold schedulerShouldPreempt
  split <;> simp_all

theorem step_handsOver (ok : HandsOver d s) (old : d < s.allocated) (nothing : picksNothing s e)
    (taken : Step s e t) : HandsOver d t := by
  have same : (t.task d).taskId = (s.task d).taskId := (step_later taken old).taskId
  cases taken with
  | worker taken =>
    have frame := taken.frame
    unfold HandsOver at ok ⊢
    rwa [frame.pc, frame.sched, same]
  | main taken =>
    have frame := taken.frame
    unfold HandsOver at ok ⊢
    rwa [frame.pc, frame.sched, same]
  | sched taken =>
    cases taken with
    | peek here found => rw [nothing here] at found; cases found
    | peekNone here | idle here => simpa [HandsOver, here] using ok
    | @appendTrace r o trace here =>
      obtain ⟨rfl, rfl⟩ : r.task = d ∧ o = .preempted := by simpa [HandsOver, here] using ok
      exact ⟨rfl, rfl⟩
    | @countRound q o here =>
      obtain ⟨rfl, rfl⟩ : q = d ∧ o = .preempted := by simpa [HandsOver, here] using ok
      rfl
    | @logRequeue q o event here =>
      obtain rfl : q = d := by simpa [HandsOver, here] using ok
      rfl
    | @setLast q here =>
      obtain rfl : q = d := by simpa [HandsOver, here] using ok
      exact ⟨rfl, rfl⟩
    | @requeue q here =>
      obtain ⟨rfl, last⟩ : q = d ∧ s.sched.lastSelectedTaskId = (s.task d).taskId := by
        simpa [HandsOver, here] using ok
      exact ⟨rfl, last⟩
    | @clearCurrent q ending here =>
      cases ending with
      | demoRequeued => simpa [HandsOver, here] using ok
      | _ => simp [HandsOver, here] at ok
    | @clearCurrentShell q ending here ends =>
      cases ending with
      | demoRequeued => cases ends
      | _ => simp [HandsOver, here] at ok
    | @clearFlag q ending here =>
      cases ending with
      | demoRequeued =>
        have both : q = d ∧ s.sched.lastSelectedTaskId = (s.task d).taskId := by simpa [HandsOver, here] using ok
        exact both.2
      | _ => simp [HandsOver, here] at ok
    | _ =>
      have here := ‹s.pc = _›
      simp [HandsOver, here] at ok

theorem run_handsOver (inv : Inv s) (old : d < s.allocated) (ok : HandsOver d s)
    (run : Machine.Run step picksNothing s t) :
    Inv t ∧ d < t.allocated ∧ (s.task d).Later (t.task d) ∧ HandsOver d t := by
  apply run.invariant (I := fun t => Inv t ∧ d < t.allocated ∧ (s.task d).Later (t.task d) ∧ HandsOver d t)
    ⟨inv, old, .refl _, ok⟩
  intro t e u ⟨inv, old, later, ok⟩ nothing taken
  have move := step_cases taken
  exact ⟨step_inv inv move, Nat.lt_of_lt_of_le old (step_allocated move), later.trans (step_later move old),
    step_handsOver ok old nothing move⟩

theorem PreemptedFor.handsOver (preempted : PreemptedFor n d t) :
    Inv t ∧ d < t.allocated ∧ n ≠ d ∧ (t.task d).type = .demoProgram ∧ HandsOver d t := by
  obtain ⟨run, here, current, preempts, notify, flag, check, rfl, up, taken⟩ := preempted
  rename_i s₁ s₂ s₃ c a a' r
  have inv₃ : Inv s₃ := (step_inv (run_inv run) (step_cases notify)).run flag
  have old := (inv₃.owned.held r.task (by rw [check]; rfl)).1
  have demo := demo_of_ne_shell inv₃ old (inv₃.runs.demo r.task (by rw [check]; rfl))
  have move := step_cases taken
  have later := step_later move old
  have different : n ≠ r.task := by
    rintro rfl
    rw [shouldPreempt_irrefl] at preempts
    cases preempts
  refine ⟨step_inv inv₃ move, Nat.lt_of_lt_of_le old (step_allocated move), different,
    later.type.trans demo, ?_⟩
  have after : t = s₃.setPc (afterCheck r true) := by
    simp only [step, schedStep, check, Option.some.injEq] at taken
    rw [← taken, up]
  rw [after]
  exact ⟨rfl, rfl⟩

theorem priority_le {a b : Task} (le : a.priority ≤ b.priority) : a.remainingTime ≤ b.remainingTime := by
  by_contra less
  exact absurd (priority_lt.mpr (.inl (Int.not_le.mp less))) (not_lt_of_ge le)

theorem peek_other (inv : Inv s) (old : d < s.allocated) (demo : (s.task d).type = .demoProgram)
    (waits : n ∈ s.queue) (different : n ≠ d)
    (found : peekBestTaskSjrf s.task s.queue (s.task d).taskId = some x) :
    x ≠ d ∧ ((s.task n).type = .shell → (s.task x).type = .shell) ∧
      ((s.task n).type ≠ .shell → (s.task x).type = .shell ∨
        (s.task x).type = .demoProgram ∧ (s.task x).remainingTime ≤ (s.task n).remainingTime) := by
  have oldN := (inv.owned.queued n waits).1
  have otherId : (s.task n).taskId ≠ (s.task d).taskId := by
    rw [inv.tasks.taskId n oldN, inv.tasks.taskId d old]
    exact fun same => different (Int.ofNat_inj.mp ((Int.add_left_inj 1).mp same))
  rw [peek_eq, Option.or_eq_some_iff] at found
  rcases found with shell | ⟨missing, least⟩
  · have first := List.find?_some shell
    simp only [decide_eq_true_eq] at first
    have type := first.1
    refine ⟨?_, fun _ => type, fun _ => .inl type⟩
    rintro rfl
    rw [demo] at type
    cases type
  · have typeN : (s.task n).type = .demoProgram := by
      have skipped := List.find?_eq_none.mp missing n waits
      cases inv.tasks.wellFormed n oldN with
      | shell type burst => simp [type, burst] at skipped
      | demo type => exact type
    have kept := List.argmin_mem least
    simp only [List.mem_filter, eligible, decide_eq_true_eq] at kept
    obtain ⟨member, type, allowed⟩ := kept
    refine ⟨?_, fun shell => ?_, fun _ => .inr ⟨type, priority_le ?_⟩⟩
    · rintro rfl
      refine allowed ⟨rfl, (one_lt_countP inv.owned.nodup member (by simpa using demo)).mpr ?_⟩
      exact ⟨n, waits, by simpa using typeN, different⟩
    · rw [typeN] at shell
      cases shell
    · refine List.le_of_mem_argmin (f := fun p => (s.task p).priority) (List.mem_filter.mpr ⟨waits, ?_⟩) least
      exact decide_eq_true ⟨typeN, fun both => otherId both.1⟩

/-- The peek that follows a preemption of the demo `d` for `n` returns another task, as urgent as `n` if
`n` still waits then. -/
theorem run_hands_over (preempted : PreemptedFor n d s) (run : Machine.Run step picksNothing s t)
    (here : t.pc = .peek) (found : peekBestTaskSjrf t.task t.queue t.sched.lastSelectedTaskId = some x)
    (waits : n ∈ t.queue) :
    x ≠ d ∧ ((t.task n).type = .shell → (t.task x).type = .shell) ∧
      ((t.task n).type ≠ .shell → (t.task x).type = .shell ∨
        (t.task x).type = .demoProgram ∧ (t.task x).remainingTime ≤ (t.task n).remainingTime) := by
  obtain ⟨inv, old, different, demo, start⟩ := preempted.handsOver
  obtain ⟨inv', old', later, ok⟩ := run_handsOver inv old start run
  have last : t.sched.lastSelectedTaskId = (t.task d).taskId := by simpa [HandsOver, here] using ok
  rw [last] at found
  exact peek_other inv' old' (later.type.trans demo) waits different found

theorem run_hands_over_shell : ∃ s t, PreemptedFor 1 0 s ∧ Machine.Run step picksNothing s t ∧
    ∃ x, peekBestTaskSjrf t.task t.queue t.sched.lastSelectedTaskId = some x ∧ x ≠ 0 ∧
      ((t.task 1).type = .shell → (t.task x).type = .shell) := by
  obtain ⟨s₁, run, seen⟩ := serverRun_by Machine.always
    (Event.connect 5 ++ Event.connect 6 ++ Event.submit 1 "demo 9" ++ Event.schedule 8 ++ Event.receive 2 "ls")
    (fun s => s.worker 2 = .notify 1 ∧ s.sched.currentTask = some 0 ∧
      schedulerShouldPreempt (some (s.task 1)) (some (s.task 0)) = true ∧
      ((step s (.worker 2 {})).any fun s₂ =>
        (Machine.follow step (flagUp 0) s₂ (.worker 2 {} :: Event.schedule 1)).any fun s₃ =>
          s₃.pc = .check ⟨0, 0, 3, 0⟩ ∧ s₃.schedulerCheckPreempt = true ∧
          (step s₃ (.sched {})).any fun s₄ =>
            (Machine.follow step picksNothing s₄ (Event.schedule 7)).any fun t =>
              t.pc = .peek ∧ 1 ∈ t.queue ∧
              peekBestTaskSjrf t.task t.queue t.sched.lastSelectedTaskId = some 1) = true)
    (by decide +kernel)
  obtain ⟨here, current, preempts, seen⟩ := of_decide_eq_true seen
  obtain ⟨s₂, notify, seen⟩ := (Option.any_eq_true ..).mp seen
  obtain ⟨s₃, flag, seen⟩ := (Option.any_eq_true ..).mp seen
  obtain ⟨check, up, seen⟩ := of_decide_eq_true seen
  obtain ⟨s₄, taken, seen⟩ := (Option.any_eq_true ..).mp seen
  obtain ⟨t, later, seen⟩ := (Option.any_eq_true ..).mp seen
  obtain ⟨peek, waits, found⟩ := of_decide_eq_true seen
  have preempted : PreemptedFor 1 0 s₄ :=
    .intro run here current preempts notify (Machine.run_of_follow flag) check rfl up taken
  have goesOn := Machine.run_of_follow later
  obtain ⟨other, urgent, _⟩ := run_hands_over preempted goesOn peek found waits
  exact ⟨s₄, t, preempted, goesOn, 1, found, other, urgent⟩

end MyShell
