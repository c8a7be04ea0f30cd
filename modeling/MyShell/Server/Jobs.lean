import MyShell.Server.Arrival
import MyShell.Server.Connections
import MyShell.Server.Disconnect
import MyShell.Server.Output

/-! # The commands of a client

The commands of a client that came to `create_task_from_command`, in their order. Its worker handles one at a
time, so the shell commands among them stand in the queue in this order too. -/

namespace MyShell

open State

def WorkerPc.handling : WorkerPc → Bool
  | .logCommand _ | .create _ | .refuse | .refuseMarker => true
  | _ => false

/-- The commands of a client are those whose tasks are its own. -/
structure JobsOk (s : State) : Prop where
  listed : ∀ p < s.allocated, .task p ∈ s.jobs (s.task p).clientId
  owner : ∀ c p, .task p ∈ s.jobs c → p < s.allocated ∧ (s.task p).clientId = c

def Job.Before : Job → Job → Prop
  | .task p, .task q => p < q
  | _, _ => True

/-- If both are shell commands of one client, the first arrived before the second. -/
def Task.OwnBefore (x y : Task) : Prop :=
  x.clientId = y.clientId → x.type = .shell → y.type = .shell → x.arrivalOrder < y.arrivalOrder

structure JobsInOrder (s : State) : Prop where
  sorted : ∀ c, (s.jobs c).Pairwise Job.Before
  newest : ∀ c p, (s.worker c).task = some p → (s.jobs c).getLast? = some (.task p)
  shells : s.queue.Pairwise fun p q => (s.task p).OwnBefore (s.task q)
  freed : ∀ p < s.allocated, s.status p = .released →
    s.marked p = true ∨ (s.worker (s.task p).clientId).removed = true

variable {s t : State} {a : Answer} {c : ClientId} {e : Event} {p q : Ptr}

theorem mem_added {jobs : ClientId → List Job} {job new : Job} {c' : ClientId} :
    job ∈ Function.update jobs c (jobs c ++ [new]) c' ↔ job ∈ jobs c' ∨ c' = c ∧ job = new := by
  by_cases same : c' = c
  · subst same; simp
  · simp [same]

theorem step_jobs (ok : JobsOk s) (inv : Inv s) (taken : Step s e t) : JobsOk t := by
  have later : ∀ p < s.allocated, (t.task p).clientId = (s.task p).clientId := fun p old =>
    (step_later taken old).clientId
  have kept : t.allocated = s.allocated → (∀ c p, .task p ∈ t.jobs c ↔ .task p ∈ s.jobs c) → JobsOk t := by
    intro allocated jobs
    refine ⟨fun p old => ?_, fun c p member => ?_⟩
    · rw [allocated] at old
      rw [jobs, later p old]
      exact ok.listed p old
    · have mine := ok.owner c p ((jobs c p).mp member)
      rw [allocated, later p mine.1]
      exact mine
  cases taken with
  | sched taken => exact kept taken.frame.allocated (by simp [taken.frame.jobs])
  | main taken => exact kept taken.frame.allocated (by simp [taken.frame.jobs])
  | @worker c a _ taken =>
    cases taken with
    | create here =>
      refine ⟨fun p there => mem_added.mpr ?_, fun c' p member => ?_⟩
      · rcases Nat.lt_succ_iff_lt_or_eq.mp there with old | rfl
        · rw [later p old]
          exact .inl (ok.listed p old)
        · exact .inr ⟨by simp [inv.clients.clientId], rfl⟩
      · rcases mem_added.mp member with old | ⟨rfl, new⟩
        · have mine := ok.owner c' p old
          exact ⟨Nat.lt_succ_of_lt mine.1, (later p mine.1).trans mine.2⟩
        · cases new
          exact ⟨Nat.lt_succ_self _, by simp [inv.clients.clientId]⟩
    | createFailed here => exact kept (by simp) fun c' p => mem_added.trans (by simp)
    | _ => exact kept (by simp) (by simp)

/-! ### The order of the tasks -/

theorem step_frees (taken : Step s e t) (old : p < s.allocated) (live : s.status p ≠ .released)
    (freed : t.status p = .released) :
    (∃ e, s.pc = .release p e) ∨ (t.worker (s.task p).clientId).removed = true := by
  cases taken with
  | main taken => exact absurd (taken.frame.status ▸ freed) live
  | sched taken =>
    cases taken with
    | @release q e here =>
      by_cases same : p = q
      · exact .inl ⟨e, same ▸ here⟩
      · exact absurd (by simpa [same] using freed) live
    | @dequeue _ _ q _ here found =>
      by_cases same : p = q
      · simp [same] at freed
      · exact absurd (by simpa [same] using freed) live
    | @requeue q here =>
      by_cases same : p = q
      · simp [same] at freed
      · exact absurd (by simpa [same] using freed) live
    | _ => exact absurd (by simpa using freed) live
  | @worker c a _ taken =>
    cases taken with
    | remove here =>
      by_cases member : p ∈ tasksOfClient s.task c s.queue
      · have mine := of_decide_eq_true (List.mem_filter.mp member).2
        exact .inr (by simp [mine, WorkerPc.removed])
      · exact absurd (by simpa [member] using freed) live
    | create here => exact absurd (by simpa [Nat.ne_of_lt old] using freed) live
    | @enqueue q here =>
      by_cases same : p = q
      · simp [same] at freed
      · exact absurd (by simpa [same] using freed) live
    | _ => exact absurd (by simpa using freed) live

theorem old_of_freed (taken : Step s e t) (there : p < t.allocated) (freed : t.status p = .released) :
    p < s.allocated := by
  cases taken with
  | sched taken => exact taken.frame.allocated ▸ there
  | main taken => exact taken.frame.allocated ▸ there
  | worker taken =>
    cases taken with
    | create here =>
      refine Nat.lt_of_le_of_ne (Nat.le_of_lt_succ there) fun same => ?_
      simp [same] at freed
    | _ => exact there

theorem step_freed (ok : JobsInOrder s) (inv : Inv s) (output : OutputOk s) (taken : Step s e t)
    (there : p < t.allocated) (freed : t.status p = .released) :
    t.marked p = true ∨ (t.worker (t.task p).clientId).removed = true := by
  have old := old_of_freed taken there freed
  have grown := marked_later (writes_grow inv taken) (p := p)
  rw [(step_later taken old).clientId]
  by_cases before : s.status p = .released
  · exact (ok.freed p old before).imp grown (step_removed inv.clients taken)
  · rcases step_frees taken old before freed with ⟨e, here⟩ | left
    · exact .inl (grown (output.marked p (by rw [here]; rfl)))
    · exact .inr left

section Run
variable {ok : State → Event → Prop}

theorem run_jobs (run : ServerRun ok s) : JobsOk s :=
  run.invariant_of run_inv ⟨by simp [State.initial], by simp [State.initial]⟩ fun inv _ ok _ taken =>
    step_jobs ok inv (step_cases taken)

end Run

end MyShell
