import MyShell.Server.Selection

/-! # First come, first served

A shell command gets its `arrival_order` in one section under `queue_mutex` and its place in the queue
in a later one, so that the two orders agree only where no worker overtakes another in between. -/

namespace MyShell

open State

/-- A shell command comes into the queue while none with a larger `arrival_order` waits there. -/
def insertsInOrder (s : State) : Event → Bool
  | .worker c _ =>
    match s.worker c with
    | .enqueue t =>
      (s.task t).type ≠ .shell ∨
        s.queue.all fun q => (s.task q).type = .shell → (s.task q).arrivalOrder < (s.task t).arrivalOrder
    | _ => true
  | _ => true

def Precedes (mem : Ptr → Task) (p q : Ptr) : Prop :=
  (mem p).type = .shell → (mem q).type = .shell → (mem p).arrivalOrder < (mem q).arrivalOrder

/-- Shell commands stand in the queue in the order of their arrival. -/
def ShellsInOrder (s : State) : Prop := s.queue.Pairwise (Precedes s.task)

variable {s t : State} {a : Answer} {c : ClientId} {e : Event} {p : Ptr}

/-- A step keeps an order of the queue that lasts while tasks change, if it holds between what waits and the
task that comes in. -/
theorem step_pairwise {R : Task → Task → Prop}
    (lasts : ∀ {x x' y y' : Task}, x.Later x' → y.Later y' → R x y → R x' y')
    (ok : s.queue.Pairwise fun p q => R (s.task p) (s.task q)) (inv : Inv s) (taken : Step s e t)
    (enqueued : ∀ c a p, e = .worker c a → s.worker c = .enqueue p → ∀ q ∈ s.queue, R (s.task q) (s.task p))
    (requeued : ∀ p, s.pc = .requeue p → ∀ q ∈ s.queue, R (s.task q) (s.task p)) :
    t.queue.Pairwise fun p q => R (t.task p) (t.task q) := by
  have kept : t.queue.Sublist s.queue → t.queue.Pairwise fun p q => R (t.task p) (t.task q) := by
    intro rest
    refine (List.Pairwise.sublist rest ok).imp_of_mem fun {p q} first second order => ?_
    have p_old := (inv.owned.queued p (rest.subset first)).1
    have q_old := (inv.owned.queued q (rest.subset second)).1
    exact lasts (step_later taken p_old) (step_later taken q_old) order
  have append : ∀ p, t.queue = s.queue ++ [p] → t.task = s.task → (∀ q ∈ s.queue, R (s.task q) (s.task p)) →
      t.queue.Pairwise fun p q => R (t.task p) (t.task q) := by
    intro p queue task last
    rw [queue, task, List.pairwise_append]
    refine ⟨ok, List.pairwise_singleton .., fun q member p' same => ?_⟩
    obtain rfl := List.mem_singleton.mp same
    exact last q member
  cases taken with
  | sched taken =>
    cases taken with
    | dequeue here found =>
      obtain ⟨_, before, after, split, rest⟩ := dequeue_split found
      refine kept ?_
      show List.Sublist _ _
      rw [setPc_queue, dequeued_queue, split, rest]
      exact List.Sublist.append_left (List.sublist_cons_self ..) before
    | @requeue q here => exact append q rfl rfl (requeued q here)
    | _ => exact kept (by simp)
  | @worker c a t taken =>
    cases taken with
    | @enqueue q here => exact append q rfl rfl (enqueued c a q rfl here)
    | remove here => exact kept (List.filter_sublist ..)
    | _ => exact kept (by simp)
  | main taken => exact kept (taken.frame.queue ▸ List.Sublist.refl _)

theorem step_shellsInOrder (ok : ShellsInOrder s) (inv : Inv s) (met : insertsInOrder s e = true) (taken : Step s e t) :
    ShellsInOrder t := by
  refine step_pairwise (R := fun x y => x.type = .shell → y.type = .shell → x.arrivalOrder < y.arrivalOrder)
    (fun first second order shell shell' => ?_) ok inv taken (fun c a p event here q member shell shell' => ?_)
    fun p here q _ _ shell => ?_
  · rw [first.type] at shell
    rw [second.type] at shell'
    rw [first.arrivalOrder, second.arrivalOrder]
    exact order shell shell'
  · subst event
    simp only [insertsInOrder, here, decide_eq_true_eq, List.all_eq_true] at met
    exact met.resolve_left (fun other => other shell') q member shell
  · exact absurd shell (inv.runs.demo p (by rw [here]; rfl))

theorem run_shellsInOrder (run : ServerRun (insertsInOrder · ·) s) : ShellsInOrder s :=
  run.invariant_of run_inv List.Pairwise.nil fun inv _ ok met taken => step_shellsInOrder ok inv met (step_cases taken)

theorem peek_first {mem : Ptr → Task} {queue : List Ptr} {last : Int} (wellFormed : ∀ p ∈ queue, (mem p).WellFormed)
    (found : peekBestTaskSjrf mem queue last = some p) (type : (mem p).type = .shell) :
    ∃ before after, queue = before ++ p :: after ∧ ∀ q ∈ before, (mem q).type ≠ .shell := by
  rw [peek_eq, Option.or_eq_some_iff] at found
  rcases found with first | ⟨_, least⟩
  · obtain ⟨_, before, after, split, skipped⟩ := List.find?_eq_some_iff_append.mp first
    refine ⟨before, after, split, fun q member shell => ?_⟩
    have passed := skipped q member
    cases wellFormed q (by simp [split, member]) with
    | shell type burst => simp [type, burst] at passed
    | demo demo => simp [demo] at shell
  · have kept := (List.mem_filter.mp (List.argmin_mem least)).2
    simp [eligible, type] at kept

/-- Where shell commands come into the queue in the order of their numbers, the scheduler takes them in
that order. -/
theorem run_first_come (run : ServerRun (insertsInOrder · ·) s)
    (found : peekBestTaskSjrf s.task s.queue s.sched.lastSelectedTaskId = some p) (type : (s.task p).type = .shell) :
    ∀ q ∈ s.queue, (s.task q).type = .shell → ¬ (s.task q).arrivalOrder < (s.task p).arrivalOrder := by
  intro q member shell smaller
  have inv := run_inv run
  have wellFormed : ∀ p ∈ s.queue, (s.task p).WellFormed := fun p member =>
    inv.tasks.wellFormed p (inv.owned.queued p member).1
  obtain ⟨before, after, split, skipped⟩ := peek_first wellFormed found type
  have order := run_shellsInOrder run
  rw [ShellsInOrder, split, List.pairwise_append, List.pairwise_cons] at order
  rw [split] at member
  rcases List.mem_append.mp member with passed | member
  · exact skipped q passed shell
  rcases List.mem_cons.mp member with rfl | behind
  · exact Int.lt_irrefl _ smaller
  · exact absurd (order.2.1.1 q behind type shell) (Int.not_lt.mpr (Int.le_of_lt smaller))

theorem run_first_come_two : ∃ s, ServerRun (insertsInOrder · ·) s ∧ s.queue = [0, 1] ∧
    ∀ q ∈ s.queue, (s.task q).type = .shell → ¬ (s.task q).arrivalOrder < (s.task 0).arrivalOrder := by
  obtain ⟨s, run, seen⟩ := serverRun_by (insertsInOrder · ·)
    (Event.schedule 1 ++ Event.connect 5 ++ Event.connect 6 ++ Event.submit 1 "ls" ++ Event.submit 2 "pwd")
    (fun s => s.queue = [0, 1] ∧ peekBestTaskSjrf s.task s.queue s.sched.lastSelectedTaskId = some 0 ∧
      (s.task 0).type = .shell) (by decide +kernel)
  obtain ⟨queue, found, type⟩ := of_decide_eq_true seen
  exact ⟨s, run, queue, run_first_come run found type⟩

/-- The command of client 2 was created later, and overtakes that of client 1 on the way into the queue. -/
theorem later_command_first : ¬ ∀ s, ServerRun Machine.always s → s.pc = .peek → ∀ p,
    peekBestTaskSjrf s.task s.queue s.sched.lastSelectedTaskId = some p → (s.task p).type = .shell →
      ∀ q ∈ s.queue, (s.task q).type = .shell → ¬ (s.task q).arrivalOrder < (s.task p).arrivalOrder := by
  intro claimed
  obtain ⟨s, run, seen⟩ := serverRun_by Machine.always
    (Event.schedule 1 ++ Event.connect 5 ++ Event.connect 6 ++ (Event.receive 1 "ls").take 3 ++ Event.submit 2 "pwd" ++
      [.worker 1 {}])
    (fun s => s.queue = [1, 0] ∧ s.pc = .peek ∧
      peekBestTaskSjrf s.task s.queue s.sched.lastSelectedTaskId = some 1 ∧ (s.task 1).type = .shell ∧
        (s.task 0).type = .shell ∧ (s.task 0).arrivalOrder < (s.task 1).arrivalOrder) (by decide +kernel)
  obtain ⟨queue, here, found, type, type', smaller⟩ := of_decide_eq_true seen
  exact claimed s run here 1 found type 0 (by simp [queue]) type' smaller

end MyShell
