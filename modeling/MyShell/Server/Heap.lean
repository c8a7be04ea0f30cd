import MyShell.Server.Selection
import MyShell.Server.Waiting

/-! # Blocks that are used again

`malloc` may return a block that was freed. A pointer to the freed task then denotes the new one, and three
sections of the server may read through such a pointer: `scheduler_thread` the id of the task that it has peeked,
and a worker the task that it has enqueued and, in `scheduler_notify_new_task`, the current one. -/

namespace MyShell

open State

abbrev Addr := Nat

structure Heap where
  server : State := {}
  -- the block of every task, and the task that got a block last
  block : Ptr → Addr := fun _ => 0
  holder : Addr → Ptr := fun _ => 0

namespace Heap

variable (h : Heap)

def now (p : Ptr) : Ptr := h.holder (h.block p)

/-- The server as its pointers show it: a task that lost its block has the fields of the one that got it. -/
def view : State := { h.server with task := fun p => h.server.task (h.now p) }

/-- `scheduler_thread` is where the task that it has peeked is the one that its pointer denotes. -/
def aim : State :=
  match h.server.pc with
  | .readId t => h.server.setPc (.readId (h.now t))
  | _ => h.server

/-- No task that is not freed has the block. -/
def isFree (b : Addr) : Bool :=
  (List.range h.server.allocated).all fun p => h.server.status p = .released || h.block p ≠ b

def withServer (t : State) : Heap := { h with server := t }

/-- `create_task_from_command` got the block `b`. -/
def allocate (b : Addr) (t : State) : Heap where
  server := t
  block := Function.update h.block h.server.allocated b
  holder := Function.update h.holder b h.server.allocated

/-- One step of a thread, with the block that its `malloc` returns. -/
def step (h : Heap) : Event × Addr → Option Heap
  | (.sched a, _) => (schedStep h.aim a).map h.withServer
  | (.worker c a, b) =>
    match h.server.worker c with
    | .create _ =>
      if a.malloc then
        if h.isFree b then (workerStep h.server c a).map (h.allocate b) else none
      else (workerStep h.server c a).map h.withServer
    | .notify _ | .logCreated _ =>
      (workerStep h.view c a).map fun t => h.withServer { t with task := h.server.task }
    | _ => (workerStep h.server c a).map h.withServer
  | (.main a, _) => (mainStep h.server a).map h.withServer

end Heap

/-- No client leaves between the peek of its task and the read of the id. -/
def keepsPeeked (s : State) : Event → Bool
  | .worker c _ =>
    match s.worker c, s.pc with
    | .remove, .readId t => (s.task t).clientId ≠ c
    | _, _ => true
  | _ => true

/-- The step is not the removal that follows a peek. -/
def beforeRemoval (s : State) : Event → Bool
  | .sched _ =>
    match s.pc with
    | .dequeue _ _ => false
    | _ => true
  | _ => true

/-- The states differ in the preempt flag and in the log only. -/
def Alike (s t : State) : Prop :=
  ∃ flag id log, t = { s with preemptFlag := flag, preemptingTaskId := id, log }

structure Heap.Ok (h : Heap) : Prop where
  inv : Inv h.server
  live : ∀ p < h.server.allocated, h.server.status p ≠ .released → h.now p = p
  known : ∀ p < h.server.allocated, h.now p < h.server.allocated

variable {h h' : Heap} {s t u : State} {a : Answer} {c : ClientId} {e : Event} {x : Event × Addr} {p q : Ptr}

/-! ### Steps of the server -/

theorem Alike.refl : Alike s s := ⟨_, _, _, rfl⟩

/-- The state that the thread of an event sees itself in. -/
def Heap.seen (h : Heap) : Event → State
  | .sched _ => h.aim
  | _ => h.server

theorem Heap.aim_kept (h : Heap) : h.aim.allocated = h.server.allocated ∧ h.aim.status = h.server.status ∧
    h.aim.queue = h.server.queue ∧ h.aim.task = h.server.task ∧ h.aim.worker = h.server.worker := by
  unfold Heap.aim
  split <;> exact ⟨rfl, rfl, rfl, rfl, rfl⟩

theorem WorkerStep.allocated (taken : WorkerStep s c a t) (other : ∀ command, s.worker c ≠ .create command) :
    t.allocated = s.allocated := by
  cases taken with
  | create here => exact absurd here (other _)
  | _ => simp

/-- What a step does with the blocks: it gives away one that no task has, or none. -/
def Heap.Gives (h h' : Heap) (t : State) : Prop :=
  (h'.block = h.block ∧ h'.holder = h.holder ∧ t.allocated = h.server.allocated) ∨
    ∃ b, h.isFree b = true ∧ h' = h.allocate b t ∧ t.allocated = h.server.allocated + 1

/-- A step is one of the server, but for the flag that a worker sets and the burst time that it logs. -/
theorem Heap.step_server (taken : h.step x = some h') :
    ∃ t, Step (h.seen x.1) x.1 t ∧ Alike t h'.server ∧ h.Gives h' t := by
  obtain ⟨e, b⟩ := x
  cases e with
  | sched a =>
    obtain ⟨t, moved, rfl⟩ := Option.map_eq_some_iff.mp taken
    have frame := (schedStep_cases moved).frame
    exact ⟨t, .sched (schedStep_cases moved), .refl, .inl ⟨rfl, rfl, by rw [frame.allocated, h.aim_kept.1]⟩⟩
  | main a =>
    obtain ⟨t, moved, rfl⟩ := Option.map_eq_some_iff.mp taken
    have frame := (mainStep_cases moved).frame
    exact ⟨t, .main (mainStep_cases moved), .refl, .inl ⟨rfl, rfl, frame.allocated⟩⟩
  | worker c a =>
    unfold Heap.step at taken
    cases here : h.server.worker c with
    | create command =>
      simp only [here] at taken
      split at taken
      · rename_i answer
        split at taken
        · rename_i free
          obtain ⟨t, moved, rfl⟩ := Option.map_eq_some_iff.mp taken
          refine ⟨t, step_cases moved, .refl, .inr ⟨b, free, rfl, ?_⟩⟩
          simp only [workerStep, here, answer, if_true, Option.some.injEq] at moved
          subst moved
          rfl
        · cases taken
      · rename_i answer
        obtain ⟨t, moved, rfl⟩ := Option.map_eq_some_iff.mp taken
        refine ⟨t, step_cases moved, .refl, .inl ⟨rfl, rfl, ?_⟩⟩
        simp only [workerStep, here, answer, Bool.false_eq_true, if_false, Option.some.injEq] at moved
        subst moved
        rfl
    | notify t =>
      simp only [here] at taken
      obtain ⟨u, moved, rfl⟩ := Option.map_eq_some_iff.mp taken
      have through : workerStep h.view c a = some ((h.view.schedulerNotifyNewTask t).setWorker c (.logCreated t)) := by
        simp [workerStep, Heap.view, here]
      rw [through] at moved
      cases moved
      have base : workerStep h.server c a = some ((h.server.schedulerNotifyNewTask t).setWorker c (.logCreated t)) := by
        simp [workerStep, here]
      refine ⟨_, step_cases base, ?_, .inl ⟨rfl, rfl, (workerStep_cases base).allocated (by simp [here])⟩⟩
      unfold schedulerNotifyNewTask
      split <;> split <;> exact ⟨_, _, _, rfl⟩
    | logCreated t =>
      simp only [here] at taken
      obtain ⟨u, moved, rfl⟩ := Option.map_eq_some_iff.mp taken
      have through : workerStep h.view c a =
          some ((h.view.addLog (.decision .created c (h.view.task t).burstTime t)).setWorker c .recv) := by
        simp [workerStep, Heap.view, here]
      rw [through] at moved
      cases moved
      have base : workerStep h.server c a =
          some ((h.server.addLog (.decision .created c (h.server.task t).burstTime t)).setWorker c .recv) := by
        simp [workerStep, here]
      exact ⟨_, step_cases base, ⟨_, _, _, rfl⟩, .inl ⟨rfl, rfl, rfl⟩⟩
    | _ =>
      simp only [here] at taken
      obtain ⟨t, moved, rfl⟩ := Option.map_eq_some_iff.mp taken
      exact ⟨t, step_cases moved, .refl, .inl ⟨rfl, rfl, (workerStep_cases moved).allocated (by simp [here])⟩⟩

theorem Alike.inv (alike : Alike s t) (inv : Inv s) : Inv t := by
  obtain ⟨_, _, _, rfl⟩ := alike
  refine ⟨inv.tasks.later rfl rfl rfl fun _ _ => .refl _, ?_, ?_, ?_⟩
  · exact inv.clients.later rfl rfl rfl rfl (fun _ => Iff.rfl) fun _ _ => .refl _
  · exact inv.owned.schedMove ⟨rfl, rfl, rfl, rfl, rfl, rfl, rfl, rfl, rfl, rfl, fun _ => .refl _⟩ rfl rfl (.inl rfl)
      inv.owned.peeked
  · exact inv.runs.move inv.runs.current inv.runs.ending (fun _ => .refl _) (.inl rfl) (.inl rfl)

theorem Inv.aim (inv : Inv s) (here : s.pc = .readId p) (old : q < s.allocated) : Inv (s.setPc (.readId q)) := by
  have current := inv.runs.current
  rw [here] at current
  refine ⟨inv.tasks.later rfl rfl rfl fun _ _ => .refl _, ?_, ?_, ?_⟩
  · exact inv.clients.later rfl rfl rfl rfl (fun _ => Iff.rfl) fun _ _ => .refl _
  · exact inv.owned.schedMove ⟨rfl, rfl, rfl, rfl, rfl, rfl, rfl, rfl, rfl, rfl, fun _ => .refl _⟩ rfl rfl (.inr rfl) old
  · exact inv.runs.move current trivial (fun _ => .refl _) (.inr rfl) (.inr rfl)

theorem Heap.seen_kept (h : Heap) (e : Event) : (h.seen e).allocated = h.server.allocated ∧
    (h.seen e).status = h.server.status := by
  cases e with
  | sched a => exact ⟨h.aim_kept.1, h.aim_kept.2.1⟩
  | worker c a => exact ⟨rfl, rfl⟩
  | main a => exact ⟨rfl, rfl⟩

theorem Heap.Ok.seen (ok : h.Ok) (e : Event) : Inv (h.seen e) := by
  cases e with
  | sched a =>
    show Inv h.aim
    unfold Heap.aim
    split
    · rename_i t here
      have peeked := ok.inv.owned.peeked
      rw [here] at peeked
      exact ok.inv.aim here (ok.known t peeked)
    · exact ok.inv
  | worker c a => exact ok.inv
  | main a => exact ok.inv

/-! ### Which task has a block -/

theorem Heap.Ok.step (ok : h.Ok) (taken : h.step x = some h') : h'.Ok := by
  obtain ⟨t, moved, alike, gives⟩ := Heap.step_server taken
  have before := ok.seen x.1
  have after := alike.inv (step_inv before moved)
  have kept := h.seen_kept x.1
  have live : ∀ p < h.server.allocated, h'.server.status p ≠ .released → h.server.status p ≠ .released := by
    intro p old live freed
    have later : t.status p = .released := step_released before moved (kept.1.symm ▸ old) (kept.2.symm ▸ freed)
    obtain ⟨_, _, _, same⟩ := alike
    rw [same] at live
    exact live later
  rcases gives with ⟨block, holder, allocated⟩ | ⟨b, free, rfl, allocated⟩
  · have same : h'.now = h.now := by
      unfold Heap.now
      rw [block, holder]
    have count : h'.server.allocated = h.server.allocated := by
      obtain ⟨_, _, _, same⟩ := alike
      rw [same, allocated]
    refine ⟨after, fun p old alive => ?_, fun p old => ?_⟩
    · rw [count] at old
      rw [same]
      exact ok.live p old (live p old alive)
    · rw [count] at old ⊢
      rw [same]
      exact ok.known p old
  · have old_of : ∀ p < t.allocated, p = h.server.allocated ∨ p < h.server.allocated ∧ p ≠ h.server.allocated := by
      intro p there
      rw [allocated] at there
      rcases Nat.lt_succ_iff_lt_or_eq.mp there with old | new
      · exact .inr ⟨old, Nat.ne_of_lt old⟩
      · exact .inl new
    have elsewhere : ∀ p < h.server.allocated, t.status p ≠ .released → h.block p ≠ b := by
      intro p old alive
      have apart := List.all_eq_true.mp free p (List.mem_range.mpr old)
      simpa [live p old alive] using apart
    refine ⟨after, fun p there alive => ?_, fun p there => ?_⟩
    · rcases old_of p there with rfl | ⟨old, other⟩
      · simp [Heap.now, Heap.allocate]
      · simpa [Heap.now, Heap.allocate, other, elsewhere p old alive] using ok.live p old (live p old alive)
    · show (h.allocate b t).now p < t.allocated
      rw [allocated]
      rcases old_of p there with rfl | ⟨old, other⟩
      · simp [Heap.now, Heap.allocate]
      · by_cases mine : h.block p = b
        · simp [Heap.now, Heap.allocate, other, mine]
        · simpa [Heap.now, Heap.allocate, other, mine] using Nat.lt_succ_of_lt (ok.known p old)

abbrev HeapRun (ok : Heap → Event × Addr → Prop) (h : Heap) : Prop := Machine.Run Heap.step ok {} h

theorem heapRun_by (ok : Heap → Event × Addr → Prop) [∀ h x, Decidable (ok h x)] (events : List (Event × Addr))
    (test : Heap → Bool) (passed : (Machine.follow Heap.step ok {} events).any test = true) :
    ∃ h, HeapRun ok h ∧ test h = true :=
  Machine.exists_run events passed

theorem run_heap {ok : Heap → Event × Addr → Prop} (run : HeapRun ok h) : h.Ok :=
  run.invariant ⟨initial_inv, by simp, by simp⟩ fun ok _ taken => ok.step taken

/-! ### From the peek to the removal -/

def Aims (p : Ptr) (s : State) : Prop := (s.pc = .readId p ∧ p ∈ s.queue) ∨ ∃ id, s.pc = .dequeue p id

theorem Alike.pc (alike : Alike s t) : t.pc = s.pc := by
  obtain ⟨_, _, _, rfl⟩ := alike
  rfl

theorem Alike.queue (alike : Alike s t) : t.queue = s.queue := by
  obtain ⟨_, _, _, rfl⟩ := alike
  rfl

theorem Heap.seen_eq (other : ∀ p a, x.1 = .sched a → h.server.pc ≠ .readId p) : h.seen x.1 = h.server := by
  obtain ⟨e, b⟩ := x
  cases e with
  | sched a =>
    show h.aim = h.server
    unfold Heap.aim
    split
    · rename_i t here
      exact absurd here (other t a rfl)
    · rfl
  | worker c a => rfl
  | main a => rfl

theorem Heap.Ok.aims (ok : h.Ok) (waits : ∀ p, h.server.pc = .readId p → p ∈ h.server.queue) (e : Event) :
    h.seen e = h.server := by
  cases e with
  | sched a =>
    show h.aim = h.server
    unfold Heap.aim
    split
    · rename_i t here
      have queued := ok.inv.owned.queued t (waits t here)
      rw [ok.live t queued.1 (by simp [queued.2]), ← here]
      rfl
    · rfl
  | worker c a => rfl
  | main a => rfl

theorem step_waits (inv : Inv s) (taken : Step s e t) (before : beforeRemoval s e = true)
    (stays : ¬ disconnects p s e) (waits : p ∈ s.queue) : p ∈ t.queue := by
  by_contra left
  rcases step_leaves inv taken waits left with ⟨⟨a, rfl⟩, ⟨id, here⟩, -⟩ | leaves
  · simp [beforeRemoval, here] at before
  · exact stays leaves

theorem aims_step (inv : Inv s) (taken : Step s e t) (before : beforeRemoval s e = true)
    (stays : s.pc = .readId p → ¬ disconnects p s e) (aims : Aims p s) : Aims p t := by
  rcases aims with ⟨here, waits⟩ | ⟨id, here⟩
  · have waits := step_waits inv taken before (stays here) waits
    cases taken with
    | worker taken => exact .inl ⟨taken.frame.pc.trans here, waits⟩
    | main taken => exact .inl ⟨taken.frame.pc.trans here, waits⟩
    | sched taken =>
      cases taken with
      | readId there =>
        cases here.symm.trans there
        exact .inr ⟨_, rfl⟩
      | _ => cases here.symm.trans ‹s.pc = _›
  · cases taken with
    | worker taken => exact .inr ⟨id, taken.frame.pc.trans here⟩
    | main taken => exact .inr ⟨id, taken.frame.pc.trans here⟩
    | sched taken => simp [beforeRemoval, here] at before

theorem not_disconnects (kept : keepsPeeked s e = true) (here : s.pc = .readId p) : ¬ disconnects p s e := by
  rintro ⟨a, rfl, leaving⟩
  simp [keepsPeeked, leaving, here] at kept

theorem waits_of_aims (aims : Aims p s) (here : s.pc = .readId q) : q ∈ s.queue := by
  rcases aims with ⟨there, waits⟩ | ⟨id, there⟩
  · cases here.symm.trans there
    exact waits
  · cases here.symm.trans there

theorem run_aims {ok : Heap → Event × Addr → Prop} (heap : h.Ok) (aims : Aims p h.server)
    (before : ∀ {h x}, ok h x → beforeRemoval h.server x.1 = true)
    (stays : ∀ {h x}, ok h x → h.server.pc = .readId p → ¬ disconnects p h.server x.1)
    (run : Machine.Run Heap.step ok h h') : h'.Ok ∧ Aims p h'.server := by
  apply run.invariant (I := fun h => h.Ok ∧ Aims p h.server) ⟨heap, aims⟩
  intro h x h' ⟨heap, aims⟩ met taken
  obtain ⟨t, moved, alike, -⟩ := Heap.step_server taken
  rw [heap.aims fun q => waits_of_aims aims] at moved
  have later := aims_step heap.inv moved (before met) (stays met) aims
  refine ⟨heap.step taken, ?_⟩
  unfold Aims at later ⊢
  rwa [alike.pc, alike.queue]

theorem run_waits (heap : h.Ok) (aims : Aims p h.server) (waits : p ∈ h.server.queue)
    (run : Machine.Run Heap.step
      (fun h x => beforeRemoval h.server x.1 = true ∧ ¬ disconnects p h.server x.1) h h') : p ∈ h'.server.queue := by
  refine run.invariant_of (I := fun h => p ∈ h.server.queue) (J := fun h => h.Ok ∧ Aims p h.server)
    (fun run => run_aims heap aims (fun met => met.1) (fun met _ => met.2) run) waits ?_
  intro h x h' ⟨heap, aims⟩ _ waits met taken
  obtain ⟨t, moved, alike, -⟩ := Heap.step_server taken
  rw [heap.aims fun q => waits_of_aims aims] at moved
  rw [alike.queue]
  exact step_waits heap.inv moved met.1 met.2 waits

theorem Heap.step_leaves (ok : h.Ok) (taken : h.step x = some h') (waits : p ∈ h.server.queue)
    (left : p ∉ h'.server.queue) : dispatches p h.server x.1 h'.server ∨ disconnects p h.server x.1 := by
  obtain ⟨e, b⟩ := x
  obtain ⟨t, moved, alike, -⟩ := Heap.step_server taken
  rw [alike.queue] at left
  cases e with
  | worker c a => exact (MyShell.step_leaves ok.inv moved waits left).resolve_left (by simp [dispatches]) |> .inr
  | main a => exact (MyShell.step_leaves ok.inv moved waits left).resolve_left (by simp [dispatches]) |> .inr
  | sched a =>
    have there : p ∈ (h.seen (.sched a)).queue := h.aim_kept.2.2.1.symm ▸ waits
    rcases MyShell.step_leaves (ok.seen (.sched a)) moved there left with ⟨-, ⟨id, here⟩, now⟩ | ⟨a', event, -⟩
    · refine .inl ⟨⟨a, rfl⟩, ⟨id, ?_⟩, alike.pc.trans now⟩
      have at' : h.aim.pc = .dequeue p id := here
      unfold Heap.aim at at'
      split at at'
      · cases at'
      · exact at'
    · cases event

/-- In every run that creates fewer than 2^31 - 1 tasks the numbers of the tasks are distinct ids, the queue holds
a task once and never the one that runs, and a task leaves the queue by its dispatch or with its client. Where no
client leaves between the peek of its task and the read of the id, the removal that follows takes the task peeked,
if its client has not left since. -/
theorem run_waiting {ok : Heap → Event × Addr → Prop} (run : HeapRun ok h) (few : h.server.allocated < 2 ^ 31 - 1) :
    (h.server.nextTaskId ≤ INT_MAX ∧ h.server.nextArrivalOrder ≤ INT_MAX) ∧
    (∀ p < h.server.allocated, ∀ q < h.server.allocated, p ≠ q →
      (h.server.task p).taskId ≠ (h.server.task q).taskId ∧
        (h.server.task p).arrivalOrder ≠ (h.server.task q).arrivalOrder) ∧
    h.server.queue.Nodup ∧
    (∀ p, h.server.pc.held = some p → p ∉ h.server.queue) ∧
    (∀ p x h₁ h₂ q id, h.server.pc = .peek → h.step x = some h₁ → h₁.server.pc = .readId p →
      Machine.Run Heap.step (fun h x => beforeRemoval h.server x.1 = true ∧ keepsPeeked h.server x.1 = true) h₁ h₂ →
        h₂.server.pc = .dequeue q id → q = p ∧ dequeueTaskById h₂.server.task id h₂.server.queue =
          if p ∈ h₂.server.queue then some (p, h₂.server.queue.erase p) else none) ∧
    (∀ p x h₁ h₂ q id, h.server.pc = .peek → h.step x = some h₁ → h₁.server.pc = .readId p →
      Machine.Run Heap.step (fun h x => beforeRemoval h.server x.1 = true ∧ ¬ disconnects p h.server x.1) h₁ h₂ →
        h₂.server.pc = .dequeue q id → dequeueTaskById h₂.server.task id h₂.server.queue =
          some (p, h₂.server.queue.erase p)) ∧
    ∀ p x h', h.step x = some h' → p ∈ h.server.queue → p ∉ h'.server.queue →
      dispatches p h.server x.1 h'.server ∨ disconnects p h.server x.1 := by
  have heap := run_heap run
  have inv := heap.inv
  have tasks := inv.tasks
  have peeked : ∀ p x h₁, h.server.pc = .peek → h.step x = some h₁ → h₁.server.pc = .readId p →
      Aims p h₁.server ∧ p ∈ h₁.server.queue := by
    intro p ⟨e, b⟩ h₁ here taken found
    obtain ⟨t, moved, alike, -⟩ := Heap.step_server taken
    rw [Heap.seen_eq (by simp [here])] at moved
    have waits : p ∈ h₁.server.queue := by
      rw [alike.queue]
      rw [alike.pc] at found
      cases moved with
      | sched moved => exact peek_found (.sched moved) here (by rw [found]; rfl)
      | worker moved => cases (moved.frame.pc.trans here).symm.trans found
      | main moved => cases (moved.frame.pc.trans here).symm.trans found
    exact ⟨.inl ⟨found, waits⟩, waits⟩
  refine ⟨?_, ?_, inv.owned.nodup, ?_, ?_, ?_, ?_⟩
  · have few : @LT.lt Nat _ h.server.allocated (2 ^ 31 - 1) := few
    rw [tasks.nextTaskId, tasks.nextArrivalOrder, INT_MAX]
    omega
  · intro p old q old' different
    rw [tasks.taskId p old, tasks.taskId q old', tasks.arrivalOrder p old, tasks.arrivalOrder q old']
    have apart : (p : Int) + 1 ≠ q + 1 := fun same => different (Int.ofNat_inj.mp ((Int.add_left_inj 1).mp same))
    exact ⟨apart, apart⟩
  · intro p held member
    have status := (inv.owned.held p held).2
    rw [(inv.owned.queued p member).2] at status
    cases status
  · intro p x h₁ h₂ q id here taken found later there
    have aims := (peeked p x h₁ here taken found).1
    obtain ⟨heap', aims'⟩ := run_aims (heap.step taken) aims (fun met => met.1)
      (fun met here => not_disconnects met.2 here) later
    rcases aims' with ⟨other, -⟩ | ⟨id', same⟩
    · cases there.symm.trans other
    · cases there.symm.trans same
      exact ⟨rfl, dequeue_peeked heap'.inv there⟩
  · intro p x h₁ h₂ q id here taken found later there
    obtain ⟨aims, waits⟩ := peeked p x h₁ here taken found
    have waits' := run_waits (heap.step taken) aims waits later
    obtain ⟨heap', aims'⟩ := run_aims (heap.step taken) aims (fun met => met.1) (fun met _ => met.2) later
    rcases aims' with ⟨other, -⟩ | ⟨id', same⟩
    · cases there.symm.trans other
    · cases there.symm.trans same
      rw [dequeue_peeked heap'.inv there, if_pos waits']
  · intro p x h' taken waits left
    exact Heap.step_leaves heap taken waits left

/-- Client 1 leaves, and its block goes to a task of client 2. -/
theorem run_waiting_reused : ∃ h, HeapRun (fun _ _ => True) h ∧ h.server.queue = [1, 2] ∧ h.block 1 = h.block 0 ∧
    h.server.queue.Nodup ∧ (h.server.task 1).taskId ≠ (h.server.task 0).taskId := by
  obtain ⟨h, run, seen⟩ := heapRun_by Machine.always
    ((Event.connect 5 ++ Event.connect 6 ++ Event.submit 1 "ls" ++ Event.leave 1 ++ Event.submit 2 "demo 9").map (·, 0) ++
      (Event.submit 2 "pwd").map (·, 1))
    (fun h => h.server.allocated = 3 ∧ h.server.queue = [1, 2] ∧ h.block 1 = h.block 0) (by decide +kernel)
  obtain ⟨three, queue, block⟩ := of_decide_eq_true seen
  obtain ⟨_, distinct, nodup, _⟩ := run_waiting run (by rw [three]; decide)
  exact ⟨h, run, queue, block, nodup, (distinct 1 (by rw [three]; decide) 0 (by rw [three]; decide) (by decide)).1⟩

/-- The client of the peeked task leaves, the block goes to a task of another client, and the id that is read is
that of the new task: it is removed in place of the one peeked. -/
theorem other_task_removed : ¬ ∀ h p x h₁ h₂ q id, HeapRun Machine.always h → h.server.allocated < 2 ^ 31 - 1 →
    h.server.pc = .peek → h.step x = some h₁ → h₁.server.pc = .readId p →
      Machine.Run Heap.step (fun h x => beforeRemoval h.server x.1 = true) h₁ h₂ → h₂.server.pc = .dequeue q id →
        dequeueTaskById h₂.server.task id h₂.server.queue =
          if p ∈ h₂.server.queue then some (p, h₂.server.queue.erase p) else none := by
  intro claimed
  obtain ⟨h, run, seen⟩ := heapRun_by Machine.always
    ((Event.connect 5 ++ Event.connect 6 ++ Event.submit 1 "ls" ++ Event.schedule 1).map (·, 0))
    (fun h => h.server.allocated = 1 ∧ h.server.pc = .peek ∧ (h.step (.sched {}, 0)).any fun h₁ =>
      h₁.server.pc = .readId 0 ∧ (Machine.follow Heap.step (fun h x => beforeRemoval h.server x.1 = true) h₁
        ((Event.leave 1 ++ Event.submit 2 "pwd" ++ Event.schedule 1).map (·, 0))).any fun h₂ =>
          h₂.server.pc = .dequeue 1 2 ∧ h₂.server.queue = [1] ∧ (h₂.server.task 1).taskId = 2) (by decide +kernel)
  obtain ⟨one, here, rest⟩ := of_decide_eq_true seen
  obtain ⟨h₁, taken, rest⟩ := (Option.any_eq_true ..).mp rest
  obtain ⟨found, rest⟩ := of_decide_eq_true rest
  obtain ⟨h₂, later, seen⟩ := Machine.exists_run _ rest
  obtain ⟨there, queue, id⟩ := of_decide_eq_true seen
  have removed := claimed h 0 _ h₁ h₂ 1 2 run (by rw [one]; decide) here taken found later there
  simp [queue, dequeueTaskById, id] at removed

/-! ### Which task is dispatched -/

structure Dispatching (s : State) : Prop where
  picked : PickedOk s
  dispatches : DispatchesOk s
  fresh : Fresh s
  chosen : Chosen s
  waits : ∀ p, s.pc = .readId p → p ∈ s.queue

theorem Alike.dispatching (alike : Alike s t) (ok : Dispatching s) : Dispatching t := by
  obtain ⟨_, _, _, rfl⟩ := alike
  exact ⟨ok.picked, ⟨ok.dispatches.running, ok.dispatches.settled⟩, ok.fresh,
    ⟨ok.chosen.last, ok.chosen.peeked, ok.chosen.all⟩, ok.waits⟩

theorem step_dispatching (ok : Dispatching s) (inv : Inv s) (met : spawns s e = true) (kept : keepsPeeked s e = true)
    (taken : Step s e t) : Dispatching t := by
  refine ⟨step_picked ok.picked inv taken, step_dispatches ok.dispatches inv ok.picked taken, step_fresh ok.fresh taken,
    step_chosen ok.chosen inv ok.picked ok.dispatches ok.fresh met taken, fun p there => ?_⟩
  by_cases here : s.pc = .readId p
  · exact step_waits inv taken (by cases e <;> simp [beforeRemoval, here]) (not_disconnects kept here) (ok.waits p here)
  · cases taken with
    | worker taken => exact absurd (taken.frame.pc.symm.trans there) here
    | main taken => exact absurd (taken.frame.pc.symm.trans there) here
    | sched taken =>
      cases taken with
      | peek _ found =>
        cases there
        exact peek_mem found
      | relay before => exact absurd (before.symm.trans there) (by simp)
      | update => exact absurd there (ne_of_held (afterUpdate_held _ _) rfl)
      | check => exact absurd there (ne_of_held (afterCheck_held _ _) rfl)
      | countRound => exact absurd there (ne_of_held (afterQuantum_held _ _) rfl)
      | _ => cases there

theorem run_dispatching (run : HeapRun (fun h x => spawns h.server x.1 && keepsPeeked h.server x.1) h) :
    Dispatching h.server := by
  refine run.invariant_of (I := fun h => Dispatching h.server) run_heap ?_ fun {h x h'} heap _ ok met taken => ?_
  · exact ⟨by simp [PickedOk], ⟨fun p running => (by cases running), by simp [State.past, SchedPc.dispatching, SchedPc.held]⟩,
      fun _ => ⟨rfl, rfl⟩, ⟨trivial, trivial, trivial⟩, by simp⟩
  · obtain ⟨spawned, kept⟩ := (Bool.and_eq_true ..).mp met
    obtain ⟨t, moved, alike, -⟩ := Heap.step_server taken
    rw [heap.aims ok.waits] at moved
    exact alike.dispatching (step_dispatching ok heap.inv spawned kept moved)

/-- Where no client leaves between the peek of its task and the read of the id, every dispatch takes the shell
command nearest to the head, or else the demo with the least remaining time that was not dispatched just before. -/
theorem run_well_chosen (run : HeapRun (fun h x => spawns h.server x.1 && keepsPeeked h.server x.1) h) :
    ∀ newer d older, h.server.dispatches = newer ++ d :: older → WellChosen d older := by
  intro newer d older split
  have all := (run_dispatching run).chosen.all
  rw [split] at all
  exact all.wellChosen

theorem run_well_chosen_demos : ∃ h, HeapRun (fun h x => spawns h.server x.1 && keepsPeeked h.server x.1) h ∧
    h.block 1 = h.block 0 ∧ h.server.dispatches.map (·.picked.taskId) = [3, 2] ∧
      ∀ newer d older, h.server.dispatches = newer ++ d :: older → WellChosen d older := by
  obtain ⟨h, run, seen⟩ := heapRun_by (fun h x => spawns h.server x.1 && keepsPeeked h.server x.1)
    ((Event.connect 5 ++ Event.connect 6 ++ Event.submit 1 "ls" ++ Event.leave 1 ++ Event.submit 2 "demo 9").map (·, 0) ++
      (Event.submit 2 "demo 9" ++ Event.schedule 30).map (·, 1))
    (fun h => h.block 1 = h.block 0 ∧ h.server.dispatches.map (·.picked.taskId) = [3, 2]) (by decide +kernel)
  obtain ⟨block, order⟩ := of_decide_eq_true seen
  exact ⟨h, run, block, order, run_well_chosen run⟩

theorem Picks.member {queue : List Task} {previous : Option Int} {task : Task} (picks : Picks queue previous task) :
    task ∈ queue := by
  cases picks with
  | shell before after split => simp [split]
  | demo _ member => exact member

/-- The task that is dispatched was not in the queue when the scheduler picked one. -/
theorem unpicked_task_dispatched : ¬ ∀ h, HeapRun (fun h x => spawns h.server x.1) h →
    ∀ newer d older, h.server.dispatches = newer ++ d :: older → WellChosen d older := by
  intro claimed
  obtain ⟨h, run, seen⟩ := heapRun_by (fun h x => spawns h.server x.1)
    ((Event.connect 5 ++ Event.connect 6 ++ Event.submit 1 "ls" ++ Event.schedule 2 ++ Event.leave 1 ++
      Event.submit 2 "pwd" ++ Event.schedule 2).map (·, 0))
    (fun h => h.server.dispatches.map (fun d => (d.picked.taskId, d.queue.map (·.taskId))) = [(2, [1])])
    (by decide +kernel)
  obtain ⟨d, dispatched, pair⟩ := List.map_eq_singleton_iff.mp (of_decide_eq_true seen)
  have member := List.mem_map_of_mem (f := (·.taskId)) (claimed h run [] d [] dispatched).picks.member
  obtain ⟨id, queue⟩ := Prod.mk.inj pair
  simp [id, queue] at member

end MyShell
