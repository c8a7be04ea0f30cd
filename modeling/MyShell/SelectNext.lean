import MyShell.PointerQueue
import MyShell.Server.Selection

/-! # The selection of scheduler.c

`scheduler_select_next_task`, run by one thread: it drains the queue into a chain, enqueues the
tasks of the chain, and chooses among them. It gives the queue back in reverse, so it agrees with
`peek_best_task_sjrf` only where that cannot be seen. -/

namespace MyShell

structure Selector where
  queue : PointerQueue
  sched : SchedulerState
  preemptFlag : Bool := false
  preemptingTaskId : Int := -1

namespace Selector

/-! ### The function -/

section Function

variable (mem : Ptr → Task) (n : Nat)

def enqueueTask (s : Selector) (task : Ptr) : Selector :=
  let s := { s with queue := s.queue.enqueueTask task }
  if schedulerShouldPreempt (some (mem task)) (s.sched.currentTask.map mem) then
    { s with preemptFlag := true, preemptingTaskId := (mem task).taskId }
  else s

structure Drain where
  queue : PointerQueue
  tempQueue : Option Ptr := none
  queueSize : Nat := 0

def drainBody (d : Drain) : Loop.Next Drain Drain :=
  match d.queue.dequeueTask with
  | none => .leave d
  | some (t, queue) => .again ⟨queue.setNext t d.tempQueue, some t, d.queueSize + 1⟩

def rebuildBody : Selector × Option Ptr → Loop.Next (Selector × Option Ptr) Selector
  | (s, none) => .leave s
  | (s, some curr) =>
    .again ({ s with queue := s.queue.setNext curr none }.enqueueTask mem curr, s.queue.next curr)

/-- One iteration of the loops that choose a demo; the second of them passes over the task that the
first one chose. -/
def candidateStep (passedOver : Option Int) (candidate : Option Ptr) (curr : Ptr) : Option Ptr :=
  if passedOver ≠ some (mem curr).taskId ∧
      ((mem curr).type = .demoProgram ∨ (mem curr).type = .unknownProgram) then
    match candidate with
    | none => some curr
    | some best =>
      if (mem curr).remainingTime < (mem best).remainingTime then some curr
      else if (mem curr).remainingTime = (mem best).remainingTime ∧
          (mem curr).arrivalOrder < (mem best).arrivalOrder then some curr
      else some best
  else candidate

def chooseTask (queue : PointerQueue) (tempQueue : Option Ptr) (queueSize : Nat) (last : Int) :
    Option (Option Ptr) := do
  let shell ← Loop.run (Chain.searchBody queue.next (PointerQueue.isShell mem)) n tempQueue
  let selected ←
    match shell with
    | some t => some (some t)
    | none => Loop.run (Chain.gatherBody queue.next (candidateStep mem none)) n (tempQueue, none)
  match selected with
  | none => some none
  | some t =>
    if queueSize > 1 ∧ (mem t).taskId = last then
      let candidate ← Loop.run (Chain.gatherBody queue.next (candidateStep mem (some (mem t).taskId))) n
        (tempQueue, none)
      some (some (candidate.getD t))
    else some (some t)

def schedulerSelectNextTask (s : Selector) : Option (Option Ptr × Selector) := do
  -- queue_is_empty
  if s.queue.head = none then return (none, s)
  let d ← Loop.run drainBody n { queue := s.queue }
  let s ← Loop.run (rebuildBody mem) n ({ s with queue := d.queue }, d.tempQueue)
  match ← chooseTask mem n s.queue d.tempQueue d.queueSize s.sched.lastSelectedTaskId with
  | none => return (none, s)
  | some t =>
    return (some t, { s with sched :=
      { s.sched with lastSelectedTaskId := (mem t).taskId, quantumConsumed := 0 } })

end Function

variable {mem : Ptr → Task} {n : Nat} {s s' : Selector} {q q' : PointerQueue} {queue rest taken : List Ptr} {t : Ptr}

/-! ### The queue -/

theorem dequeueTask_next (found : q.dequeueTask = some (t, q')) : q'.next = Function.update q.next t none := by
  unfold PointerQueue.dequeueTask at found
  split at found
  · cases found
  · cases found
    rfl

theorem drain_loop (rep : q.Represents rest) (chain : Chain.Linked q.next t' taken)
    (apart : (taken ++ rest).Nodup) (enough : rest.length < n) :
    ∃ d, Loop.run drainBody n ⟨q, t', taken.length⟩ = some d ∧ d.queue.Represents [] ∧
      Chain.Linked d.queue.next d.tempQueue (rest.reverse ++ taken) ∧
      d.queueSize = (rest.reverse ++ taken).length := by
  induction rest generalizing q t' taken n with
  | nil =>
    obtain ⟨n, rfl⟩ : ∃ k, n = k + 1 := ⟨n - 1, by simp at enough; omega⟩
    refine ⟨⟨q, t', taken.length⟩, Loop.run_leave ?_, rep, chain, rfl⟩
    have head : q.head = none := rep.linked.first
    simp [drainBody, PointerQueue.dequeueTask, head]
  | cons t rest ih =>
    simp only [List.length_cons] at enough
    obtain ⟨n, rfl⟩ : ∃ k, n = k + 1 := ⟨n - 1, by omega⟩
    obtain ⟨q', returned, rep'⟩ := rep.dequeue
    have goesOn : drainBody ⟨q, t', taken.length⟩ = .again ⟨q'.setNext t t', some t, taken.length + 1⟩ := by
      simp [drainBody, returned]
    have whole : (t :: (taken ++ rest)).Nodup := (List.perm_middle.nodup_iff).mp apart
    obtain ⟨absent, _⟩ := List.nodup_cons.mp whole
    have notTaken : t ∉ taken := fun member => absent (List.mem_append_left _ member)
    have notRest : t ∉ rest := fun member => absent (List.mem_append_right _ member)
    have chain' : Chain.Linked (q'.setNext t t').next (some t) (t :: taken) := by
      refine ⟨rfl, ?_⟩
      rw [PointerQueue.setNext_next, dequeueTask_next returned]
      simpa [Chain.segment_update notTaken] using chain
    rw [Loop.run_again goesOn]
    simpa using ih (rep'.setNext notRest t') chain' whole (by omega)

theorem enqueue_linked (rep : q.Represents queue) (chain : Chain.Linked q.next t' rest) (absent : t ∉ rest)
    (apart : ∀ p ∈ queue, p ∉ rest) : Chain.Linked (q.enqueueTask t).next t' rest := by
  have kept : Chain.Linked (q.setNext t none).next t' rest := (Chain.segment_update absent).mpr chain
  unfold PointerQueue.enqueueTask
  cases found : q.tail with
  | none => simpa [found] using kept
  | some tail =>
    have member : tail ∈ queue := List.mem_of_getLast? (rep.tail ▸ found)
    simpa [found] using (Chain.segment_update (apart tail member)).mpr kept

theorem rebuild_loop (rep : s.queue.Represents queue) (mem : Ptr → Task)
    (chain : Chain.Linked s.queue.next t' rest) (nodup : (queue ++ rest).Nodup)
    (enough : rest.length < n) :
    ∃ s', Loop.run (rebuildBody mem) n (s, t') = some s' ∧ s'.queue.Represents (queue ++ rest) ∧
      s'.sched = s.sched := by
  induction rest generalizing s queue t' n with
  | nil =>
    obtain ⟨n, rfl⟩ : ∃ k, n = k + 1 := ⟨n - 1, by simp at enough; omega⟩
    cases chain
    exact ⟨s, Loop.run_leave rfl, by simpa using rep, rfl⟩
  | cons t rest ih =>
    simp only [List.length_cons] at enough
    obtain ⟨n, rfl⟩ : ∃ k, n = k + 1 := ⟨n - 1, by omega⟩
    obtain ⟨rfl, chain⟩ := chain
    have whole : (t :: (queue ++ rest)).Nodup := List.perm_middle.nodup_iff.mp nodup
    obtain ⟨absent, apart⟩ := List.nodup_cons.mp whole
    have notQueue : t ∉ queue := fun member => absent (List.mem_append_left _ member)
    have notRest : t ∉ rest := fun member => absent (List.mem_append_right _ member)
    have disjoint : ∀ p ∈ queue, p ∉ rest := fun p here there => (List.nodup_append.mp apart).2.2 p here p there rfl
    let next := { s with queue := s.queue.setNext t none }.enqueueTask mem t
    have queue' : next.queue = (s.queue.setNext t none).enqueueTask t := by
      show (enqueueTask mem _ t).queue = _
      unfold enqueueTask; dsimp only; split <;> rfl
    have sched : next.sched = s.sched := by
      show (enqueueTask mem _ t).sched = _
      unfold enqueueTask; dsimp only; split <;> rfl
    have rep' : next.queue.Represents (queue ++ [t]) := queue' ▸ (rep.setNext notQueue none).enqueue notQueue
    have chain' : Chain.Linked next.queue.next (s.queue.next t) rest := by
      rw [queue']
      apply enqueue_linked (rep.setNext notQueue none) _ notRest disjoint
      exact (Chain.segment_update notRest).mpr chain
    have goesOn : rebuildBody mem (s, some t) = .again (next, s.queue.next t) := rfl
    obtain ⟨s', returned, rep'', sched'⟩ := ih rep' chain' (by simpa using nodup) (by omega : rest.length < n)
    rw [Loop.run_again goesOn]
    exact ⟨s', returned, by simpa using rep'', sched'.trans sched⟩

/-! ### The choice -/

/-- What `scheduler_select_next_task` chooses from the chain. -/
def chosenFrom (mem : Ptr → Task) (last : Int) (chain : List Ptr) : Option Ptr :=
  ((chain.find? (PointerQueue.isShell mem)).or (chain.foldl (candidateStep mem none) none)).map fun t =>
    if chain.length > 1 ∧ (mem t).taskId = last then
      (chain.foldl (candidateStep mem (some (mem t).taskId)) none).getD t
    else t

theorem chooseTask_eq {chain : List Ptr} (linked : Chain.Linked q.next t' chain) (mem : Ptr → Task) (last : Int)
    (enough : chain.length < n) : chooseTask mem n q t' chain.length last = some (chosenFrom mem last chain) := by
  unfold chooseTask chosenFrom
  simp only [Chain.Linked.search linked enough, Chain.Linked.gather linked enough, Option.bind_eq_bind,
    Option.bind_some]
  cases chain.find? (PointerQueue.isShell mem) with
  | some t =>
    simp only [Option.some_or, Option.map_some]
    split <;> rfl
  | none =>
    simp only [Option.none_or]
    cases chain.foldl (candidateStep mem none) none with
    | none => rfl
    | some t =>
      simp only [Option.map_some]
      split <;> rfl

/-- `scheduler_select_next_task` chooses from the reversed queue, and leaves it so. -/
theorem select_eq (rep : s.queue.Represents queue) (mem : Ptr → Task) (enough : queue.length < n) :
    ∃ s', s.schedulerSelectNextTask mem n =
        some (chosenFrom mem s.sched.lastSelectedTaskId queue.reverse, s') ∧
      s'.queue.Represents queue.reverse := by
  unfold schedulerSelectNextTask
  cases queue with
  | nil =>
    have head : s.queue.head = none := rep.linked.first
    exact ⟨s, by simp [head, chosenFrom], rep⟩
  | cons t rest =>
    have head : s.queue.head ≠ none := by simp [rep.linked.1]
    have apart : (([] : List Ptr) ++ t :: rest).Nodup := rep.nodup
    have nothing : Chain.Linked s.queue.next none [] := rfl
    obtain ⟨d, drained, empty, chain, size⟩ := drain_loop rep nothing apart enough
    rw [List.append_nil] at chain size
    have nodup : (t :: rest).reverse.Nodup := (List.reverse_perm _).nodup_iff.mpr rep.nodup
    have length : (t :: rest).reverse.length < n := by simpa using enough
    obtain ⟨s', rebuilt, rep', sched⟩ := rebuild_loop (s := { s with queue := d.queue }) empty mem chain nodup length
    rw [List.nil_append] at rep'
    have first : d.tempQueue = s'.queue.head := by rw [Chain.Linked.first chain, Chain.Linked.first rep'.linked]
    have chosen := chooseTask_eq rep'.linked mem s.sched.lastSelectedTaskId length
    rw [← first, ← size] at chosen
    have drained : Loop.run drainBody n { queue := s.queue } = some d := drained
    have sched : s'.sched = s.sched := sched
    rw [if_neg head]
    simp only [Option.bind_eq_bind, drained, Option.bind_some, rebuilt, sched, chosen]
    cases chosenFrom mem s.sched.lastSelectedTaskId (t :: rest).reverse with
    | none => exact ⟨s', rfl, rep'⟩
    | some t => exact ⟨_, rfl, rep'⟩

/-! ### Agreement with `peek_best_task_sjrf` -/

theorem length_le_one_of_reverse (nodup : queue.Nodup) (same : queue.reverse = queue) : queue.length ≤ 1 := by
  cases queue with
  | nil => simp
  | cons t rest =>
    have last : (t :: rest).getLast? = some t := by
      rw [← List.head?_reverse, same]; rfl
    cases rest with
    | nil => simp
    | cons u rest =>
      have member : t ∈ u :: rest := List.mem_of_getLast? (by simpa [List.getLast?_cons] using last)
      exact absurd member (List.nodup_cons.mp nodup).1

theorem chosenFrom_short (wellFormed : ∀ p ∈ queue, (mem p).WellFormed) (short : queue.length ≤ 1) (last : Int) :
    chosenFrom mem last queue.reverse = peekBestTaskSjrf mem queue last := by
  rcases queue with _ | ⟨t, _ | ⟨u, rest⟩⟩
  · rfl
  · cases wellFormed t (List.mem_singleton_self t) with
    | shell type burst => simp [chosenFrom, peekBestTaskSjrf, PointerQueue.isShell, type, burst]
    | demo type =>
      simp [chosenFrom, peekBestTaskSjrf, PointerQueue.isShell, candidateStep, selectStep, type]
  · simp at short

/-- The function returns what `peek_best_task_sjrf` returns and keeps the order of the queue exactly
when the queue holds at most one task. -/
theorem select_agrees_iff (rep : s.queue.Represents queue) (wellFormed : ∀ p ∈ queue, (mem p).WellFormed)
    (enough : queue.length < n) :
    (∃ result s', s.schedulerSelectNextTask mem n = some (result, s') ∧
        s.queue.peekBestTaskSjrf mem n s.sched.lastSelectedTaskId = some result ∧ s'.queue.Represents queue) ↔
      queue.length ≤ 1 := by
  obtain ⟨s', returned, rep'⟩ := select_eq rep mem enough
  rw [returned, rep.peek mem _ enough]
  constructor
  · rintro ⟨result, s'', same, _, kept⟩
    cases same
    exact length_le_one_of_reverse rep.nodup (rep'.unique kept)
  · intro short
    refine ⟨_, s', rfl, by rw [chosenFrom_short wellFormed short], ?_⟩
    have palindrome : queue.reverse = queue := by
      rcases queue with _ | ⟨t, _ | ⟨u, rest⟩⟩
      · rfl
      · rfl
      · simp at short
    rwa [palindrome] at rep'

def shellTasks (p : Ptr) : Task := createTaskFromCommand ⟨5, 1⟩ (p + 1) (p + 1) "ls".toList

def oneShell : Selector := { queue := ({} : PointerQueue).enqueueTask 0, sched := { lastSelectedTaskId := -1 } }

def twoShells : Selector :=
  { queue := (({} : PointerQueue).enqueueTask 0).enqueueTask 1, sched := { lastSelectedTaskId := -1 } }

theorem oneShell_represents : oneShell.queue.Represents [0] :=
  PointerQueue.empty_represents.enqueue List.not_mem_nil

theorem twoShells_represents : twoShells.queue.Represents [0, 1] :=
  oneShell_represents.enqueue (by decide)

theorem select_agrees_one : ∃ result s', oneShell.schedulerSelectNextTask shellTasks 2 = some (result, s') ∧
    oneShell.queue.peekBestTaskSjrf shellTasks 2 (-1) = some result ∧ s'.queue.Represents [0] :=
  (select_agrees_iff oneShell_represents (fun _ _ => create_wellFormed) (by decide)).mpr (by decide)

/-- Of two shell commands it returns the later one. -/
theorem select_disagrees : ¬ ∀ (s : Selector) (mem : Ptr → Task) (queue : List Ptr) (n : Nat),
    s.queue.Represents queue →
    (∀ p ∈ queue, (mem p).WellFormed ∧ (mem p).taskId = p + 1 ∧ (mem p).arrivalOrder = p + 1) →
    queue.length < n →
      ∃ result s', s.schedulerSelectNextTask mem n = some (result, s') ∧
        s.queue.peekBestTaskSjrf mem n s.sched.lastSelectedTaskId = some result ∧ s'.queue.Represents queue := by
  intro agrees
  obtain ⟨result, s', selected, peeked, _⟩ := agrees twoShells shellTasks [0, 1] 3 twoShells_represents
    (fun _ _ => ⟨create_wellFormed, create_taskId, create_arrivalOrder⟩) (by decide)
  have second : (twoShells.schedulerSelectNextTask shellTasks 3).map (·.1) = some (some 1) := by decide +kernel
  have first : twoShells.queue.peekBestTaskSjrf shellTasks 3 twoShells.sched.lastSelectedTaskId = some (some 0) := by
    decide +kernel
  rw [selected] at second
  rw [first] at peeked
  cases peeked
  simp at second

end Selector

end MyShell
