import MyShell.Server.Ownership

/-! # Waiting tasks

Selection and removal are two sections under `queue_mutex` that communicate by a task id. The id
denotes the task that it was read from and no other, and a waiting task leaves the queue only by its own
dispatch or by the disconnect of its client. -/

namespace MyShell

open State

def disconnects (p : Ptr) (s : State) (e : Event) : Prop :=
  ∃ a, e = .worker (s.task p).clientId a ∧ s.worker (s.task p).clientId = .remove

def dispatches (p : Ptr) (s : State) (e : Event) (t : State) : Prop :=
  (∃ a, e = .sched a) ∧ (∃ id, s.pc = .dequeue p id) ∧ t.pc = .setCurrent p

def SchedPc.peeks (p : Ptr) : SchedPc → Prop
  | .readId t | .dequeue t _ => t = p
  | _ => False

variable {s t u : State} {a : Answer} {c : ClientId} {e : Event} {p q : Ptr}

theorem dequeue_eq_erase {mem : Ptr → Task} {queue : List Ptr} {id : Int} (member : p ∈ queue)
    (unique : ∀ q ∈ queue, (mem q).taskId = id ↔ q = p) :
    dequeueTaskById mem id queue = some (p, queue.erase p) := by
  induction queue with
  | nil => cases member
  | cons curr queue ih =>
    have here := unique curr (List.mem_cons_self ..)
    unfold dequeueTaskById
    by_cases same : curr = p
    · subst same
      simp [here.mpr rfl]
    · have later : p ∈ queue := (List.mem_cons.mp member).resolve_left (Ne.symm same)
      rw [if_neg fun matched => same (here.mp matched),
        ih later fun q inside => unique q (List.mem_cons_of_mem _ inside), List.erase_cons_tail (by simpa using same)]
      rfl

theorem dequeue_eq_none {mem : Ptr → Task} {queue : List Ptr} {id : Int}
    (absent : ∀ q ∈ queue, (mem q).taskId ≠ id) : dequeueTaskById mem id queue = none := by
  cases found : dequeueTaskById mem id queue with
  | none => rfl
  | some removed => exact absurd (dequeue_split found).1 (absent _ ((dequeue_mem found _).mpr (.inl rfl)))

/-- The id read after the peek denotes the peeked task, wherever it is. -/
theorem dequeue_peeked (inv : Inv s) {id : Int} (here : s.pc = .dequeue p id) :
    dequeueTaskById s.task id s.queue = if p ∈ s.queue then some (p, s.queue.erase p) else none := by
  have peeked := inv.owned.peeked
  rw [here] at peeked
  have denotes : ∀ q ∈ s.queue, (s.task q).taskId = id ↔ q = p := by
    intro q member
    rw [inv.tasks.taskId q (inv.owned.queued q member).1, peeked.2]
    show (q : Int) + 1 = (p : Int) + 1 ↔ q = p
    exact (Int.add_left_inj 1).trans Int.ofNat_inj
  split
  · rename_i member
    exact dequeue_eq_erase member denotes
  · rename_i absent
    exact dequeue_eq_none fun q member matched => absent ((denotes q member).mp matched ▸ member)

theorem step_leaves (inv : Inv s) (taken : Step s e t) (waits : p ∈ s.queue) (left : p ∉ t.queue) :
    dispatches p s e t ∨ disconnects p s e := by
  cases taken with
  | @sched a t taken =>
    cases taken with
    | @dequeue q id removed rest here found =>
      obtain ⟨rfl, _⟩ := inv.owned.dequeue inv.tasks here found
      rcases (dequeue_mem found p).mp waits with rfl | member
      · exact .inl ⟨⟨a, rfl⟩, ⟨id, here⟩, rfl⟩
      · exact absurd member left
    | requeue => exact absurd (List.mem_append_left _ waits) left
    | _ => exact absurd (by simpa using waits) left
  | @worker c a t taken =>
    cases taken with
    | enqueue => exact absurd (List.mem_append_left _ waits) left
    | remove here =>
      by_cases own : (s.task p).clientId = c
      · subst own
        exact .inr ⟨a, rfl, here⟩
      · exact absurd (List.mem_filter.mpr ⟨waits, by simpa using own⟩) left
    | _ => exact absurd (by simpa using waits) left
  | main taken => exact absurd (taken.frame.queue ▸ waits) left

theorem peek_found (taken : Step s (.sched a) t) (here : s.pc = .peek) (found : t.pc.peeks p) : p ∈ t.queue := by
  cases taken with
  | sched taken =>
    cases taken with
    | peek _ least =>
      cases found
      exact peek_mem least
    | _ =>
      have there := ‹s.pc = _›
      rw [here] at there
      first | exact absurd found id | cases there

end MyShell
