import MyShell.Queue
import MyShell.Lib.Chain
import MyShell.Lib.Machine

/-! # The task queue in memory

The functions of `scheduler_queue.c` on `queue_head`, `queue_tail` and the `next` fields. The list
of `MyShell.Queue` is what they refine. The other fields of the tasks are in `mem`. A function with
a loop gets a number of iterations and returns `none` when it is not done by then. -/

namespace MyShell

structure PointerQueue where
  head : Option Ptr := none
  tail : Option Ptr := none
  next : Ptr → Option Ptr := fun _ => none

namespace PointerQueue

/-! ### The functions -/

section Functions

variable (q : PointerQueue) (mem : Ptr → Task) (n : Nat)

@[simps -fullyApplied] def setNext (p : Ptr) (v : Option Ptr) : PointerQueue :=
  { q with next := Function.update q.next p v }

def enqueueTask (task : Ptr) : PointerQueue :=
  let q := q.setNext task none
  match q.tail with
  | none => { q with head := some task, tail := some task }
  | some tail => { q.setNext tail (some task) with tail := some task }

/-- `enqueue_task` without the call of `scheduler_notify_new_task` after it. -/
def enqueueTaskRequeue (task : Ptr) : PointerQueue := q.enqueueTask task

def dequeueTask : Option (Ptr × PointerQueue) :=
  match q.head with
  | none => none
  | some task =>
    let head := q.next task
    some (task, { q.setNext task none with head, tail := if head = none then none else q.tail })

def unlink (prev : Option Ptr) (curr : Ptr) : PointerQueue :=
  let q' :=
    match prev with
    | none => { q with head := q.next curr }
    | some prev => q.setNext prev (q.next curr)
  { q' with tail := if q.tail = some curr then prev else q.tail }

def dequeueBody (taskId : Int) : Option Ptr × Option Ptr →
    Loop.Next (Option Ptr × Option Ptr) (Nat × PointerQueue)
  | (none, _) => .leave (0, q)
  | (some curr, prev) =>
    if (mem curr).taskId = taskId then .leave (1, (q.unlink prev curr).setNext curr none)
    else .again (q.next curr, some curr)

def dequeueTaskById (taskId : Int) : Option (Nat × PointerQueue) :=
  Loop.run (q.dequeueBody mem taskId) n (q.head, none)

def isShell (curr : Ptr) : Bool := (mem curr).type = .shell ∧ (mem curr).burstTime = -1

def countDemo (count : Nat) (curr : Ptr) : Nat := if (mem curr).type = .demoProgram then count + 1 else count

/-- `peek_best_task_sjrf`: a pass for a shell command, one that counts the demos, one that selects. -/
def peekBestTaskSjrf (lastSelectedTaskId : Int) : Option (Option Ptr) := do
  match ← Loop.run (Chain.searchBody q.next (isShell mem)) n q.head with
  | some selected => some (some selected)
  | none =>
    let demoCount ← Loop.run (Chain.gatherBody q.next (countDemo mem)) n (q.head, 0)
    let found ← Loop.run (Chain.gatherBody q.next (selectStep mem lastSelectedTaskId demoCount)) n (q.head, {})
    some found.selected

/-- The variables of the loop of `remove_tasks_for_client`, and the tasks it has freed. -/
structure Removal where
  queue : PointerQueue
  curr : Option Ptr
  prev : Option Ptr := none
  freed : List Ptr := []

def removeBody (clientId : ClientId) (r : Removal) : Loop.Next Removal (PointerQueue × List Ptr) :=
  match r.curr with
  | none => .leave (r.queue, r.freed)
  | some curr =>
    if (mem curr).clientId = clientId then
      .again { r with queue := r.queue.unlink r.prev curr, curr := r.queue.next curr, freed := r.freed ++ [curr] }
    else .again { r with curr := r.queue.next curr, prev := some curr }

def removeTasksForClient (clientId : ClientId) : Option (PointerQueue × List Ptr) := do
  let (q', freed) ← Loop.run (removeBody mem clientId) n { queue := q, curr := q.head }
  some ({ q' with tail := if q'.head = none then none else q'.tail }, freed)

end Functions

/-! ### The list in memory -/

/-- Following `next` from the head passes the tasks of the list, each once, and ends in the tail. -/
structure Represents (q : PointerQueue) (queue : List Ptr) : Prop where
  linked : Chain.Linked q.next q.head queue
  nodup : queue.Nodup
  tail : q.tail = queue.getLast?

variable {q q' : PointerQueue} {queue queue' before after : List Ptr} {mem : Ptr → Task} {t curr : Ptr} {n : Nat}

theorem empty_represents : ({} : PointerQueue).Represents [] := ⟨rfl, List.nodup_nil, rfl⟩

theorem Represents.unique (rep : q.Represents queue) (other : q.Represents queue') : queue = queue' :=
  rep.linked.unique other.linked

theorem Represents.head_none (rep : q.Represents queue) : q.head = none ↔ q.tail = none := by
  rw [rep.linked.first, rep.tail]
  simp

theorem Represents.enqueue (rep : q.Represents queue) (absent : t ∉ queue) :
    (q.enqueueTask t).Represents (queue ++ [t]) := by
  have nodup : (queue ++ [t]).Nodup := by
    simpa [List.nodup_append, rep.nodup] using fun p (member : p ∈ queue) (same : p = t) => absent (same ▸ member)
  rcases List.eq_nil_or_concat queue with rfl | ⟨front, last, rfl⟩
  · have tail : q.tail = none := rep.tail
    refine ⟨?_, nodup, ?_⟩ <;> simp [enqueueTask, tail]
  · have tail : q.tail = some last := by simpa using rep.tail
    have linked := rep.linked
    rw [List.concat_eq_append] at linked absent
    have once : last ∉ front := by
      have := rep.nodup
      simp [List.nodup_append] at this
      exact fun member => (this.2 last member) rfl
    have other : t ≠ last := fun same => absent (by simp [same])
    refine ⟨?_, nodup, by simp [enqueueTask, tail]⟩
    have front := Chain.segment_redirect (v := some t) (((Chain.segment_update (v := none) absent)).mpr linked) once
    simp only [enqueueTask, setNext_tail, tail]
    refine Chain.segment_append.mpr ⟨some t, by simpa using front, rfl, ?_⟩
    simp [other]

theorem Represents.dequeue (rep : q.Represents (t :: queue)) :
    ∃ q', q.dequeueTask = some (t, q') ∧ q'.Represents queue := by
  obtain ⟨head, rest⟩ := rep.linked
  obtain ⟨absent, nodup⟩ := List.nodup_cons.mp rep.nodup
  simp only [dequeueTask, head]
  refine ⟨_, rfl, ⟨?_, nodup, ?_⟩⟩
  · simpa using (Chain.segment_update absent).mpr rest
  · have first := Chain.Linked.first rest
    cases queue with
    | nil => simp [show q.next t = none from first]
    | cons next queue => simpa [first] using rep.tail

theorem getLast?_erase (nodup : (before ++ curr :: after).Nodup) :
    (if (before ++ curr :: after).getLast? = some curr then before.getLast?
      else (before ++ curr :: after).getLast?) = (before ++ after).getLast? := by
  cases after with
  | nil => simp
  | cons next rest =>
    have absent : curr ∉ next :: rest := (List.nodup_cons.mp (List.nodup_append.mp nodup).2.1).1
    have last : (before ++ curr :: next :: rest).getLast? = (next :: rest).getLast? := by
      simp [List.getLast?_append, List.getLast?_cons]
    have other : (next :: rest).getLast? ≠ some curr := fun same => absent (List.mem_of_getLast? same)
    rw [last, if_neg other]
    simp [List.getLast?_append, List.getLast?_cons]

theorem Represents.unlink (rep : q.Represents (before ++ curr :: after)) :
    (q.unlink before.getLast? curr).Represents (before ++ after) := by
  have nodup : (before ++ after).Nodup := List.Nodup.sublist (by simp) rep.nodup
  have tail := getLast?_erase rep.nodup
  rw [← rep.tail] at tail
  rcases List.eq_nil_or_concat before with rfl | ⟨front, last, rfl⟩
  · exact ⟨rep.linked.2, nodup, tail⟩
  · rw [List.concat_eq_append] at rep nodup tail ⊢
    have disjoint := rep.nodup
    simp only [List.append_assoc, List.singleton_append, List.nodup_append, List.nodup_cons] at disjoint
    have notFront : last ∉ front := fun member => disjoint.2.2 last member last (by simp) rfl
    have notAfter : last ∉ after := fun member => disjoint.2.1.1 (by simp [member])
    obtain ⟨mid, first, rfl, rest⟩ := Chain.segment_append.mp rep.linked
    simp only [PointerQueue.unlink, List.getLast?_concat]
    refine ⟨?_, nodup, by simpa using tail⟩
    exact Chain.segment_append.mpr ⟨q.next curr, Chain.segment_redirect first notFront,
      (Chain.segment_update notAfter).mpr rest⟩

theorem Represents.setNext (rep : q.Represents queue) (absent : t ∉ queue) (v : Option Ptr) :
    (q.setNext t v).Represents queue :=
  ⟨(Chain.segment_update absent).mpr rep.linked, rep.nodup, rep.tail⟩

theorem Represents.dequeueLoop {rest : List Ptr} (rep : q.Represents (before ++ rest)) (mem : Ptr → Task)
    (taskId : Int) (enough : rest.length < n) :
    match MyShell.dequeueTaskById mem taskId rest with
    | none => Loop.run (q.dequeueBody mem taskId) n (rest.head?, before.getLast?) = some (0, q)
    | some (_, rest') =>
      ∃ q', Loop.run (q.dequeueBody mem taskId) n (rest.head?, before.getLast?) = some (1, q') ∧
        q'.Represents (before ++ rest') := by
  induction rest generalizing before n with
  | nil =>
    obtain ⟨n, rfl⟩ : ∃ k, n = k + 1 := ⟨n - 1, by simp at enough; omega⟩
    exact Loop.run_leave rfl
  | cons curr rest ih =>
    simp only [List.length_cons] at enough
    obtain ⟨n, rfl⟩ : ∃ k, n = k + 1 := ⟨n - 1, by omega⟩
    unfold MyShell.dequeueTaskById
    by_cases matched : (mem curr).taskId = taskId
    · have absent : curr ∉ before ++ rest := by
        have := List.perm_middle.nodup_iff.mp rep.nodup
        exact (List.nodup_cons.mp this).1
      simp only [matched, if_true]
      exact ⟨_, Loop.run_leave (by simp [dequeueBody, matched]), rep.unlink.setNext absent none⟩
    · have goesOn : q.dequeueBody mem taskId ((curr :: rest).head?, before.getLast?) =
          .again (q.next curr, some curr) := by simp [dequeueBody, matched]
      have rep' : q.Represents ((before ++ [curr]) ++ rest) := by simpa using rep
      have next : q.next curr = rest.head? := by
        obtain ⟨_, _, _, rest⟩ := Chain.segment_append.mp rep.linked
        exact Chain.Linked.first rest
      have later := ih rep' (by omega : rest.length < n)
      rw [List.getLast?_concat] at later
      rw [if_neg matched, Loop.run_again goesOn, next]
      cases found : MyShell.dequeueTaskById mem taskId rest with
      | none => simpa [found] using later
      | some removed => simpa [found] using later

theorem Represents.dequeueById (rep : q.Represents queue) (mem : Ptr → Task) (taskId : Int)
    (enough : queue.length < n) :
    ∃ result q', q.dequeueTaskById mem n taskId = some (result, q') ∧
      match MyShell.dequeueTaskById mem taskId queue with
      | none => result = 0 ∧ q'.Represents queue
      | some (_, rest) => result = 1 ∧ q'.Represents rest := by
  have whole : q.Represents ([] ++ queue) := rep
  have loop := whole.dequeueLoop mem taskId enough
  unfold PointerQueue.dequeueTaskById
  rw [rep.linked.first]
  cases found : MyShell.dequeueTaskById mem taskId queue with
  | none =>
    simp only [found] at loop
    exact ⟨0, q, loop, rfl, rep⟩
  | some removed =>
    simp only [found] at loop
    obtain ⟨q', returned, rep'⟩ := loop
    exact ⟨1, q', returned, rfl, rep'⟩

theorem Represents.removeLoop {kept rest : List Ptr} (rep : q.Represents (kept ++ rest)) (mem : Ptr → Task)
    (clientId : ClientId) (freed : List Ptr) (enough : rest.length < n) :
    ∃ q', Loop.run (removeBody mem clientId) n ⟨q, rest.head?, kept.getLast?, freed⟩ =
        some (q', freed ++ tasksOfClient mem clientId rest) ∧
      q'.Represents (kept ++ MyShell.removeTasksForClient mem clientId rest) := by
  induction rest generalizing q kept freed n with
  | nil =>
    obtain ⟨n, rfl⟩ : ∃ k, n = k + 1 := ⟨n - 1, by simp at enough; omega⟩
    refine ⟨q, Loop.run_leave (by simp [removeBody, tasksOfClient]), ?_⟩
    simpa [MyShell.removeTasksForClient] using rep
  | cons curr rest ih =>
    simp only [List.length_cons] at enough
    obtain ⟨n, rfl⟩ : ∃ k, n = k + 1 := ⟨n - 1, by omega⟩
    have next : q.next curr = rest.head? := by
      obtain ⟨_, _, _, rest⟩ := Chain.segment_append.mp rep.linked
      exact Chain.Linked.first rest
    by_cases own : (mem curr).clientId = clientId
    · have goesOn : removeBody mem clientId ⟨q, (curr :: rest).head?, kept.getLast?, freed⟩ =
          .again ⟨q.unlink kept.getLast? curr, rest.head?, kept.getLast?, freed ++ [curr]⟩ := by
        simp [removeBody, own, next]
      rw [Loop.run_again goesOn]
      obtain ⟨q', returned, rep'⟩ := ih rep.unlink (freed ++ [curr]) (by omega : rest.length < n)
      refine ⟨q', by simpa [tasksOfClient, own] using returned, ?_⟩
      simpa [MyShell.removeTasksForClient, own] using rep'
    · have goesOn : removeBody mem clientId ⟨q, (curr :: rest).head?, kept.getLast?, freed⟩ =
          .again ⟨q, rest.head?, (kept ++ [curr]).getLast?, freed⟩ := by
        simp [removeBody, own, next]
      have rep' : q.Represents ((kept ++ [curr]) ++ rest) := by simpa using rep
      rw [Loop.run_again goesOn]
      obtain ⟨q', returned, rep''⟩ := ih rep' freed (by omega : rest.length < n)
      refine ⟨q', by simpa [tasksOfClient, own] using returned, ?_⟩
      simpa [MyShell.removeTasksForClient, own] using rep''

theorem Represents.remove (rep : q.Represents queue) (mem : Ptr → Task) (clientId : ClientId) (enough : queue.length < n) :
    ∃ q', q.removeTasksForClient mem n clientId = some (q', tasksOfClient mem clientId queue) ∧
      q'.Represents (MyShell.removeTasksForClient mem clientId queue) := by
  have whole : q.Represents ([] ++ queue) := rep
  obtain ⟨q', returned, rep'⟩ := whole.removeLoop mem clientId [] enough
  unfold PointerQueue.removeTasksForClient
  rw [rep.linked.first]
  simp only [List.getLast?_nil, List.nil_append] at returned rep'
  refine ⟨_, by rw [returned]; rfl, ?_⟩
  refine ⟨rep'.linked, rep'.nodup, ?_⟩
  show (if q'.head = none then none else q'.tail) = _
  split
  · rename_i empty
    rw [← rep'.tail, rep'.head_none.mp empty]
  · exact rep'.tail

theorem foldl_countDemo (mem : Ptr → Task) (queue : List Ptr) (count : Nat) :
    queue.foldl (countDemo mem) count = count + queue.countP fun curr => (mem curr).type = .demoProgram := by
  induction queue generalizing count with
  | nil => rfl
  | cons curr queue ih =>
    rw [List.foldl_cons, ih, List.countP_cons]
    unfold countDemo
    split <;> (simp_all; try omega)

theorem Represents.peek (rep : q.Represents queue) (mem : Ptr → Task) (lastSelectedTaskId : Int)
    (enough : queue.length < n) :
    q.peekBestTaskSjrf mem n lastSelectedTaskId =
      some (MyShell.peekBestTaskSjrf mem queue lastSelectedTaskId) := by
  unfold PointerQueue.peekBestTaskSjrf MyShell.peekBestTaskSjrf
  rw [Chain.Linked.search rep.linked enough, Chain.Linked.gather rep.linked enough, foldl_countDemo]
  simp only [Option.bind_eq_bind, Option.bind_some, Nat.zero_add, Chain.Linked.gather rep.linked enough]
  have shell : (queue.find? fun curr => (mem curr).type = .shell ∧ (mem curr).burstTime = -1) =
      queue.find? (isShell mem) := rfl
  rw [shell]
  cases queue.find? (isShell mem) <;> rfl

/-! ### Sequences of calls -/

inductive Op where
  | enqueue (task : Ptr) | requeue (task : Ptr) | dequeue
  | dequeueById (taskId : Int) | remove (clientId : ClientId) | peek (lastSelectedTaskId : Int)

/-- A call: the fields of the tasks at that time, and iterations enough for its loops. -/
structure Call where
  op : Op
  mem : Ptr → Task
  iterations : Nat

/-- The task is one of those that `next` leads to from the head. -/
def Holds (q : PointerQueue) (task : Ptr) : Prop := ∃ queue, Chain.Linked q.next q.head queue ∧ task ∈ queue

def step (q : PointerQueue) (call : Call) : Option PointerQueue :=
  match call.op with
  | .enqueue task => some (q.enqueueTask task)
  | .requeue task => some (q.enqueueTaskRequeue task)
  | .dequeue => q.dequeueTask.map (·.2)
  | .dequeueById taskId => (q.dequeueTaskById call.mem call.iterations taskId).map (·.2)
  | .remove clientId => (q.removeTasksForClient call.mem call.iterations clientId).map (·.1)
  | .peek lastSelectedTaskId => (q.peekBestTaskSjrf call.mem call.iterations lastSelectedTaskId).map fun _ => q

def Allowed (q : PointerQueue) (call : Call) : Prop :=
  match call.op with
  | .enqueue task | .requeue task => ¬ q.Holds task
  | .dequeue => q.head ≠ none
  | _ => True

theorem Represents.holds (rep : q.Represents queue) : q.Holds t ↔ t ∈ queue :=
  ⟨fun ⟨_, linked, member⟩ => linked.unique rep.linked ▸ member, fun member => ⟨queue, rep.linked, member⟩⟩

theorem removeTasksForClient_mono {clientId : ClientId} {m : Nat} {result : PointerQueue × List Ptr}
    (returned : q.removeTasksForClient mem n clientId = some result) (more : n ≤ m) :
    q.removeTasksForClient mem m clientId = some result := by
  unfold removeTasksForClient at returned ⊢
  obtain ⟨last, loop, returned⟩ := Option.bind_eq_some_iff.mp returned
  exact Option.bind_eq_some_iff.mpr ⟨last, Loop.run_mono loop more, returned⟩

theorem Represents.step {call : Call} (rep : q.Represents queue) (allowed : Allowed q call)
    (taken : step q call = some q') : ∃ queue', q'.Represents queue' := by
  obtain ⟨op, mem, n⟩ := call
  have enough : queue.length < n + queue.length + 1 := by omega
  have more : n ≤ n + queue.length + 1 := by omega
  cases op with
  | enqueue task | requeue task =>
    cases taken
    exact ⟨_, rep.enqueue fun member => allowed (rep.holds.mpr member)⟩
  | dequeue =>
    cases queue with
    | nil => exact absurd rep.linked allowed
    | cons task rest =>
      obtain ⟨q'', returned, rep'⟩ := rep.dequeue
      simp only [PointerQueue.step, returned, Option.map_some, Option.some.injEq] at taken
      exact ⟨rest, taken ▸ rep'⟩
  | dequeueById taskId =>
    obtain ⟨⟨result, q''⟩, returned, rfl⟩ := Option.map_eq_some_iff.mp taken
    obtain ⟨result', q', returned', rep'⟩ := rep.dequeueById mem taskId enough
    cases Loop.run_unique returned returned'
    split at rep' <;> exact ⟨_, rep'.2⟩
  | remove clientId =>
    obtain ⟨⟨q'', freed⟩, returned, rfl⟩ := Option.map_eq_some_iff.mp taken
    obtain ⟨q', returned', rep'⟩ := rep.remove mem clientId enough
    cases (removeTasksForClient_mono returned more).symm.trans returned'
    exact ⟨_, rep'⟩
  | peek last =>
    obtain ⟨_, _, rfl⟩ := Option.map_eq_some_iff.mp taken
    exact ⟨queue, rep⟩

/-- After any sequence of calls the queue is a list in memory, and every call acts on that list as
its abstract counterpart does. -/
theorem run_refines (run : Machine.Run step Allowed {} q) :
    ∃ queue, q.Represents queue ∧ (q.head = none ↔ q.tail = none) ∧
      (∀ task ∉ queue, (q.enqueueTask task).Represents (queue ++ [task]) ∧
        (q.enqueueTaskRequeue task).Represents (queue ++ [task])) ∧
      (∀ task rest, queue = task :: rest → ∃ q', q.dequeueTask = some (task, q') ∧ q'.Represents rest) ∧
      ∀ mem n, queue.length < n →
        (∀ taskId, ∃ result q', q.dequeueTaskById mem n taskId = some (result, q') ∧
          match MyShell.dequeueTaskById mem taskId queue with
          | none => result = 0 ∧ q'.Represents queue
          | some (_, rest) => result = 1 ∧ q'.Represents rest) ∧
        (∀ clientId, ∃ q', q.removeTasksForClient mem n clientId =
            some (q', tasksOfClient mem clientId queue) ∧
          q'.Represents (MyShell.removeTasksForClient mem clientId queue)) ∧
        ∀ last, q.peekBestTaskSjrf mem n last = some (MyShell.peekBestTaskSjrf mem queue last) := by
  have represented : ∃ queue, q.Represents queue := by
    apply run.invariant (I := fun q : PointerQueue => ∃ queue, q.Represents queue) ⟨[], empty_represents⟩
    intro q call q' ⟨queue, rep⟩ allowed taken
    exact rep.step allowed taken
  obtain ⟨queue, rep⟩ := represented
  refine ⟨queue, rep, rep.head_none, fun task absent => ⟨rep.enqueue absent, rep.enqueue absent⟩, ?_, ?_⟩
  · rintro task rest rfl
    exact rep.dequeue
  · intro mem n enough
    exact ⟨fun taskId => rep.dequeueById mem taskId enough, fun clientId => rep.remove mem clientId enough,
      fun last => rep.peek mem last enough⟩

theorem run_enqueue (before : ∃ q, Machine.Run step Allowed {} q ∧ q.Represents queue) (absent : t ∉ queue) :
    ∃ q, Machine.Run step Allowed {} q ∧ q.Represents (queue ++ [t]) := by
  obtain ⟨q, run, rep⟩ := before
  have allowed : Allowed q ⟨.enqueue t, fun _ => {}, 0⟩ := fun held => absent (rep.holds.mp held)
  exact ⟨q.enqueueTask t, run.next allowed rfl, rep.enqueue absent⟩

theorem run_remove (before : ∃ q, Machine.Run step Allowed {} q ∧ q.Represents queue) (mem : Ptr → Task)
    (clientId : ClientId) : ∃ q, Machine.Run step Allowed {} q ∧ q.Represents (MyShell.removeTasksForClient mem clientId queue) := by
  obtain ⟨q, run, rep⟩ := before
  obtain ⟨q', removed, left⟩ := rep.remove mem clientId (Nat.lt_succ_self _)
  have allowed : Allowed q ⟨.remove clientId, mem, queue.length + 1⟩ := trivial
  exact ⟨q', run.next allowed (by simp [step, removed]), left⟩

def twoClients (p : Ptr) : Task := { clientId := if p ∈ [2, 3, 5, 6] then 2 else 1 }

/-- A client leaves with two tasks in the middle and two at the end, and the next task goes behind the others. -/
theorem run_refines_removed : ∃ q, Machine.Run step Allowed {} q ∧ q.Represents [1, 4, 7] ∧
    (q.enqueueTask 8).Represents [1, 4, 7, 8] ∧ ∃ q', q.dequeueTask = some (1, q') ∧ q'.Represents [4, 7] := by
  have queued : ∃ q, Machine.Run step Allowed {} q ∧ q.Represents [] := ⟨{}, .refl, empty_represents⟩
  have queued := run_enqueue queued (t := 1) (by decide)
  have queued := run_enqueue queued (t := 2) (by decide)
  have queued := run_enqueue queued (t := 3) (by decide)
  have queued := run_enqueue queued (t := 4) (by decide)
  have queued := run_enqueue queued (t := 5) (by decide)
  have queued := run_enqueue queued (t := 6) (by decide)
  have left : ∃ q, Machine.Run step Allowed {} q ∧ q.Represents [1, 4] := run_remove queued twoClients 2
  obtain ⟨q, run, rep⟩ := run_enqueue left (t := 7) (by decide)
  obtain ⟨queue, rep', -, append, first, -⟩ := run_refines run
  obtain rfl := rep'.unique rep
  exact ⟨q, run, rep, (append 8 (by decide)).1, first 1 [4, 7] rfl⟩

end PointerQueue

end MyShell
