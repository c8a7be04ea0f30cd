import MyShell.Lib.OnePass
import MyShell.Server.Dispatch
import Mathlib.Data.Prod.Lex
import Mathlib.Order.ConditionallyCompleteLattice.Basic
import Mathlib.Data.Int.ConditionallyCompleteOrder

/-! # Which task is dispatched

The specification of `peek_best_task_sjrf` on the tasks of the queue, the proof that its two passes
meet it, and what `last_selected_task_id` means along a run. -/

namespace MyShell

open State

/-- Shortest remaining time first, and first come first served among equals. -/
def Task.priority (task : Task) : Int ×ₗ Int := toLex (task.remainingTime, task.arrivalOrder)

/-- The task was dispatched last, and another demo waits. -/
def LeftOut (queue : List Task) (previous : Option Int) (task : Task) : Prop :=
  previous = some task.taskId ∧ ∃ other ∈ queue, other.type = .demoProgram ∧ other.taskId ≠ task.taskId

/-- The choice of the scheduler among the tasks of a queue, when `previous` is the id of the task
dispatched before. -/
inductive Picks (queue : List Task) (previous : Option Int) (task : Task) : Prop where
  | shell (before after : List Task) (split : queue = before ++ task :: after) (type : task.type = .shell)
      (first : ∀ other ∈ before, other.type ≠ .shell)
  | demo (noShell : ∀ other ∈ queue, other.type ≠ .shell) (member : task ∈ queue) (type : task.type = .demoProgram)
      (allowed : ¬LeftOut queue previous task)
      (least : ∀ other ∈ queue, other.type = .demoProgram → ¬LeftOut queue previous other →
        task.priority ≤ other.priority)

/-! ### The two passes -/

section Peek
variable {mem : Ptr → Task} {queue : List Ptr} {last : Int} {previous : Option Int} {t : Ptr}

def eligible (mem : Ptr → Task) (last : Int) (demoCount : Nat) (curr : Ptr) : Bool :=
  (mem curr).type = .demoProgram ∧ ¬((mem curr).taskId = last ∧ demoCount > 1)

theorem priority_lt {a b : Task} : a.priority < b.priority ↔
    a.remainingTime < b.remainingTime ∨ a.remainingTime = b.remainingTime ∧ a.arrivalOrder < b.arrivalOrder :=
  Prod.Lex.toLex_lt_toLex

def Selection.Good (mem : Ptr → Task) (acc : Selection) : Prop :=
  ∀ m, acc.selected = some m → acc.shortestTime = (mem m).remainingTime

theorem selectStep_selects (mem : Ptr → Task) (last : Int) (demoCount : Nat) :
    OnePass.Selects (fun p => (mem p).priority) (eligible mem last demoCount) Selection.selected
      (Selection.Good mem) (selectStep mem last demoCount) where
  good acc x good m selected := by
    revert selected
    unfold selectStep
    split
    · split
      · exact good m
      · split
        · rintro ⟨⟩; rfl
        · split
          · rintro ⟨⟩; rfl
          · exact good m
    · exact good m
  skip acc x _ passed := by
    have passed := of_decide_eq_false passed
    unfold selectStep
    split
    · rename_i demo
      rw [if_pos (by_contra fun stays => passed ⟨demo, stays⟩)]
    · rfl
  first acc x _ kept empty := by
    simp only [eligible, decide_eq_true_eq] at kept
    rw [selectStep, if_pos kept.1, if_neg kept.2, empty]
  better acc x m good kept selected := by
    simp only [eligible, decide_eq_true_eq] at kept
    rw [selectStep, if_pos kept.1, if_neg kept.2, selected]
    simp only [good m selected, priority_lt]
    split <;> simp_all

theorem peek_eq : peekBestTaskSjrf mem queue last =
    (queue.find? fun curr => (mem curr).type = .shell ∧ (mem curr).burstTime = -1).or
      ((queue.filter (eligible mem last (queue.countP fun curr => (mem curr).type = .demoProgram))).argmin
        fun p => (mem p).priority) := by
  unfold peekBestTaskSjrf
  split
  · rename_i selected found
    rw [found]; rfl
  · rename_i missing
    rw [missing, Option.none_or]
    exact (selectStep_selects mem last _).argmin queue (by simp [Selection.Good]) rfl

/-- What the scheduler remembers of the last dispatch decides rightly which task to pass over. -/
structure Remembers (mem : Ptr → Task) (queue : List Ptr) (last : Int) (previous : Option Int) : Prop where
  nodup : queue.Nodup
  ids : ∀ p ∈ queue, ∀ q ∈ queue, (mem p).taskId = (mem q).taskId → p = q
  last : ∀ p ∈ queue, (mem p).taskId = last ↔ previous = some (mem p).taskId

theorem one_lt_countP {kind : Ptr → Bool} {x : Ptr} (nodup : queue.Nodup) (member : x ∈ queue)
    (same : kind x = true) :
    1 < queue.countP kind ↔ ∃ y ∈ queue, kind y = true ∧ y ≠ x := by
  rw [List.countP_eq_length_filter]
  have mine : x ∈ queue.filter kind := List.mem_filter.mpr ⟨member, same⟩
  have iff : ∀ y, y ∈ queue ∧ kind y = true ↔ y ∈ queue.filter kind := fun y => List.mem_filter.symm
  have nodup := nodup.filter kind
  simp only [← and_assoc, iff]
  generalize queue.filter kind = kinds at mine nodup
  rcases kinds with _ | ⟨a, _ | ⟨b, rest⟩⟩
  · cases mine
  · obtain rfl := List.mem_singleton.mp mine
    simp
  · have different : a ≠ b := fun same => (List.nodup_cons.mp nodup).1 (same ▸ List.mem_cons_self)
    refine iff_of_true (by simp) ?_
    by_cases first : a = x
    · exact ⟨b, by simp, fun same => different (first.trans same.symm)⟩
    · exact ⟨a, by simp, first⟩

theorem leftOut_iff (remembers : Remembers mem queue last previous) (member : t ∈ queue)
    (type : (mem t).type = .demoProgram) : LeftOut (queue.map mem) previous (mem t) ↔
      (mem t).taskId = last ∧ queue.countP (fun curr => (mem curr).type = .demoProgram) > 1 := by
  rw [LeftOut, ← remembers.last t member, gt_iff_lt, one_lt_countP remembers.nodup member (by simpa using type)]
  refine and_congr_right fun _ => ⟨?_, ?_⟩
  · rintro ⟨other, listed, demo, different⟩
    obtain ⟨p, inside, rfl⟩ := List.mem_map.mp listed
    exact ⟨p, inside, by simpa using demo, fun same => different (by rw [same])⟩
  · rintro ⟨p, inside, demo, different⟩
    exact ⟨mem p, List.mem_map_of_mem inside, by simpa using demo,
      fun same => different (remembers.ids p inside t member same)⟩

theorem peek_picks (remembers : Remembers mem queue last previous) (wellFormed : ∀ p ∈ queue, (mem p).WellFormed)
    (found : peekBestTaskSjrf mem queue last = some t) : Picks (queue.map mem) previous (mem t) := by
  rw [peek_eq, Option.or_eq_some_iff] at found
  rcases found with shell | ⟨missing, least⟩
  · obtain ⟨type, before, after, split, first⟩ := List.find?_eq_some_iff_append.mp shell
    simp only [decide_eq_true_eq] at type
    refine .shell (before.map mem) (after.map mem) (by simp [split]) type.1 fun other listed => ?_
    obtain ⟨p, inside, rfl⟩ := List.mem_map.mp listed
    have skipped := first p inside
    cases wellFormed p (by simp [split, inside]) with
    | shell type burst => simp [type, burst] at skipped
    | demo type => simp [type]
  · have kept := List.argmin_mem least
    simp only [List.mem_filter, eligible, decide_eq_true_eq] at kept
    obtain ⟨member, type, allowed⟩ := kept
    refine .demo (fun other listed => ?_) (List.mem_map_of_mem member) type ?_ fun other listed demo out => ?_
    · obtain ⟨p, inside, rfl⟩ := List.mem_map.mp listed
      have skipped := List.find?_eq_none.mp missing p inside
      cases wellFormed p inside with
      | shell type burst => simp [type, burst] at skipped
      | demo type => simp [type]
    · rwa [leftOut_iff remembers member type]
    · obtain ⟨p, inside, rfl⟩ := List.mem_map.mp listed
      rw [leftOut_iff remembers inside demo] at out
      exact List.le_of_mem_argmin (f := fun p => (mem p).priority)
        (List.mem_filter.mpr ⟨inside, decide_eq_true ⟨demo, out⟩⟩) least

end Peek

/-! ### The last selected task along a run -/

def spawns (s : State) : Event → Bool
  | .sched a =>
    match s.pc with
    | .pipe _ => a.pipe.isSome
    | .fork _ _ _ => a.fork
    | _ => true
  | _ => true

def previousId (older : List Dispatch) : Option Int := older.head?.map (·.picked.taskId)

def Ending.Last (e : Ending) (s : State) (p : Ptr) : Prop :=
  match e with
  | .shellDone | .demoDone => s.sched.lastSelectedTaskId = -1 ∧ s.status p = .released
  | .demoRequeued => s.sched.lastSelectedTaskId = (s.task p).taskId
  | .shellFailed => False

/-- What `last_selected_task_id` says between two iterations: the last task was put back, or is freed. -/
def LastBetween (s : State) : Prop :=
  match s.dispatches.head? with
  | none => s.sched.lastSelectedTaskId = -1
  | some d => s.sched.lastSelectedTaskId = d.picked.taskId ∨
      s.sched.lastSelectedTaskId = -1 ∧ s.status d.task = .released

def LastOk (s : State) : Prop :=
  match s.pc with
  | .peek | .idle | .readId _ | .dequeue _ _ => LastBetween s
  | .requeue t => s.sched.lastSelectedTaskId = (s.task t).taskId
  | .release _ _ => s.sched.lastSelectedTaskId = -1
  | .clearCurrent t e | .clearFlag t e => e.Last s t
  | _ => True

def PeekedOk (s : State) : Prop :=
  match s.pc with
  | .readId t | .dequeue t _ => Picks s.peeked (previousId s.dispatches) (s.task t)
  | _ => True

def AllPicked : List Dispatch → Prop
  | [] => True
  | d :: older => Picks d.queue (previousId older) d.picked ∧ AllPicked older

variable {s t : State} {a : Answer} {c : ClientId} {e : Event} {p : Ptr}

theorem remembers_of_last (inv : Inv s) (picked : PickedOk s) (last : LastBetween s) :
    Remembers s.task s.queue s.sched.lastSelectedTaskId (previousId s.dispatches) := by
  have id : ∀ p ∈ s.queue, (s.task p).taskId = p + 1 := fun p member =>
    inv.tasks.taskId p (inv.owned.queued p member).1
  have numbered : ∀ p ∈ s.queue, (s.task p).taskId ≠ -1 := fun p member => by
    rw [id p member]
    exact ne_of_gt (lt_of_lt_of_le (by decide) (Int.natCast_nonneg (p + 1)))
  refine ⟨inv.owned.nodup, fun p here q there same => ?_, fun p member => ?_⟩
  · rw [id p here, id q there] at same
    exact Int.ofNat_inj.mp (Int.add_left_inj _ |>.mp same)
  · unfold LastBetween at last
    unfold previousId
    cases split : s.dispatches.head? with
    | none =>
      rw [split] at last
      simp [last, numbered p member]
    | some d =>
      rw [split] at last
      rcases last with same | ⟨none, freed⟩
      · simp [same, eq_comm]
      · -- the last task is freed, so no task of the queue has its id
        have listed := List.mem_of_mem_head? split
        have other : d.picked.taskId ≠ (s.task p).taskId := by
          intro same
          rw [← (picked d listed).2.taskId, inv.tasks.taskId d.task (picked d listed).1, id p member] at same
          obtain rfl : d.task = p := Int.ofNat_inj.mp (Int.add_left_inj _ |>.mp same)
          simp [(inv.owned.queued _ member).2] at freed
        simp [none, numbered p member, other]

theorem lastBetween_of_ending (picked : PickedOk s) (dispatches : DispatchesOk s)
    (here : s.pc.dispatching = some p) {e : Ending} (last : e.Last s p)
    (same : t.sched.lastSelectedTaskId = s.sched.lastSelectedTaskId) (status : t.status = s.status)
    (marked : t.dispatches = s.dispatches.modifyHead ({ · with finished := true })) : LastBetween t := by
  obtain ⟨d, older, split, running⟩ := dispatches.running p here
  have id := (picked d (by simp [split])).2.taskId
  rw [LastBetween, marked, split, List.modifyHead_cons, List.head?_cons]
  rw [same, status]
  simp only [running.task] at id ⊢
  cases e with
  | shellDone | demoDone => exact .inr last
  | demoRequeued => exact .inl (Eq.trans last id)
  | shellFailed => exact absurd last not_false

theorem schedStep_last (ok : LastOk s) (inv : Inv s) (picked : PickedOk s) (dispatches : DispatchesOk s)
    (fresh : Fresh s) (met : spawns s (.sched a) = true) (taken : SchedStep s a t) : LastOk t := by
  cases taken with
  | init here =>
    show LastBetween _
    simp [LastBetween, (fresh here).2]
  | peekNone here | peek here | readId here | idle here | dequeueNone here =>
    rw [LastOk, here] at ok
    exact ok
  | setLast here => rfl
  | requeue here =>
    rw [LastOk, here] at ok
    exact ok
  | complete here => rfl
  | @release q e here =>
    have ending := inv.runs.ending
    rw [here] at ending
    rw [LastOk, here] at ok
    rcases ending with rfl | rfl <;> exact ⟨ok, by simp⟩
  | pipeFailed here answer => simp [spawns, here, answer] at met
  | forkFailed here answer => simp [spawns, here, answer] at met
  | clearCurrent here =>
    rw [LastOk, here] at ok
    exact ok
  | clearCurrentShell here ends =>
    rw [LastOk, here] at ok
    exact lastBetween_of_ending picked dispatches (by rw [here]; rfl) ok rfl rfl rfl
  | clearFlag here =>
    rw [LastOk, here] at ok
    exact lastBetween_of_ending picked dispatches (by rw [here]; rfl) ok rfl rfl rfl
  | relay here => simp [LastOk, here]
  | @update r done => cases done <;> trivial
  | @check r => rcases afterCheck_cases r s.preemptFlag with ⟨_, -, same⟩ | same <;> simp [LastOk, same]
  | @countRound q o => cases o <;> trivial
  | _ => trivial

theorem step_last (ok : LastOk s) (inv : Inv s) (picked : PickedOk s) (dispatches : DispatchesOk s) (fresh : Fresh s)
    (met : spawns s e = true) (taken : Step s e t) : LastOk t := by
  have released : ∀ p < s.allocated, s.status p = .released → t.status p = .released := fun p old =>
    step_released inv taken old
  have keep : t.pc = s.pc → t.sched = s.sched → t.dispatches = s.dispatches →
      (∀ p < s.allocated, (t.task p).taskId = (s.task p).taskId) → LastOk t := by
    intro pc sched same id
    have between : LastBetween s → LastBetween t := by
      intro last
      unfold LastBetween at last ⊢
      rw [same, sched]
      cases split : s.dispatches.head? with
      | none => rwa [split] at last
      | some d =>
        rw [split] at last
        exact last.imp_right fun freed => ⟨freed.1, released _ (picked d (List.mem_of_mem_head? split)).1 freed.2⟩
    have ending : ∀ q x, s.pc.dispatching = some q → Ending.Last x s q → Ending.Last x t q := by
      intro q x here last
      obtain ⟨d, older, split, running⟩ := dispatches.running q here
      have old : q < s.allocated := running.task ▸ (picked d (by simp [split])).1
      cases x with
      | shellDone | demoDone => exact ⟨sched ▸ last.1, released q old last.2⟩
      | demoRequeued => exact (congrArg _ sched).trans (Eq.trans last (id q old).symm)
      | shellFailed => exact last
    unfold LastOk at ok ⊢
    rw [pc]
    cases here : s.pc <;> rw [here] at ok <;> try trivial
    case peek | idle | readId | dequeue => exact between ok
    case requeue q =>
      exact (congrArg _ sched).trans (ok.trans (id q (inv.owned.held q (by rw [here]; rfl)).1).symm)
    case release => exact (congrArg _ sched).trans ok
    case clearCurrent q x | clearFlag q x => exact ending q x (by rw [here]; rfl) ok
  cases taken with
  | sched taken => exact schedStep_last ok inv picked dispatches fresh met taken
  | worker taken =>
    have frame := taken.frame
    exact keep frame.pc frame.sched frame.dispatches fun p old => by rw [frame.task p old]
  | main taken =>
    have frame := taken.frame
    exact keep frame.pc frame.sched frame.dispatches fun p _ => by rw [frame.task]

/-! ### Every dispatch -/

theorem step_peeked (ok : PeekedOk s) (inv : Inv s) (picked : PickedOk s) (last : LastOk s) (taken : Step s e t) :
    PeekedOk t := by
  have keep : t.pc = s.pc → t.peeked = s.peeked → t.dispatches = s.dispatches →
      (∀ p < s.allocated, t.task p = s.task p) → PeekedOk t := by
    intro pc peeked same task
    have old := inv.owned.peeked
    unfold PeekedOk at ok ⊢
    rw [pc, peeked, same]
    cases here : s.pc <;> rw [here] at ok old <;> try trivial
    case readId q => simpa only [task q old] using ok
    case dequeue q id => simpa only [task q old.1] using ok
  cases taken with
  | worker taken => exact keep taken.frame.pc taken.frame.peeked taken.frame.dispatches taken.frame.task
  | main taken =>
    have frame := taken.frame
    exact keep frame.pc frame.peeked frame.dispatches fun p _ => by rw [frame.task]
  | sched taken =>
    cases taken with
    | peek here found =>
      rw [LastOk, here] at last
      exact peek_picks (remembers_of_last inv picked last)
        (fun p member => inv.tasks.wellFormed p (inv.owned.queued p member).1) found
    | readId here =>
      rw [PeekedOk, here] at ok
      exact ok
    | relay here => simp [PeekedOk, here]
    | @update r done => cases done <;> trivial
    | @check r => rcases afterCheck_cases r s.preemptFlag with ⟨_, -, same⟩ | same <;> simp [PeekedOk, same]
    | @countRound q o => cases o <;> trivial
    | _ => trivial

theorem AllPicked.marked {f : Dispatch → Dispatch} (marks : Marks f) {list : List Dispatch} (ok : AllPicked list) :
    AllPicked (list.modifyHead f) := by
  cases list with
  | nil => trivial
  | cons d older =>
    refine ⟨?_, ok.2⟩
    rw [marks.queue, marks.picked]
    exact ok.1

theorem step_allPicked (ok : AllPicked s.dispatches) (inv : Inv s) (peeked : PeekedOk s) (taken : Step s e t) :
    AllPicked t.dispatches := by
  cases taken with
  | worker taken => rwa [taken.frame.dispatches]
  | main taken => rwa [taken.frame.dispatches]
  | sched taken =>
    rcases taken.dispatches with ⟨f, marks, marked⟩ | ⟨p, id, removed, rest, here, found, begun⟩
    · exact marked ▸ ok.marked marks
    · obtain ⟨rfl, -, -⟩ := inv.owned.dequeue inv.tasks here found
      rw [PeekedOk, here] at peeked
      exact begun ▸ ⟨peeked, ok⟩

theorem AllPicked.split {newer older : List Dispatch} {d : Dispatch} (ok : AllPicked (newer ++ d :: older)) :
    Picks d.queue (previousId older) d.picked := by
  induction newer with
  | nil => exact ok.1
  | cons _ newer ih => exact ih ok.2

structure Chosen (s : State) : Prop where
  last : LastOk s
  peeked : PeekedOk s
  all : AllPicked s.dispatches

theorem step_chosen (ok : Chosen s) (inv : Inv s) (picked : PickedOk s) (dispatches : DispatchesOk s) (fresh : Fresh s)
    (met : spawns s e = true) (taken : Step s e t) : Chosen t where
  last := step_last ok.last inv picked dispatches fresh met taken
  peeked := step_peeked ok.peeked inv picked ok.last taken
  all := step_allPicked ok.all inv ok.peeked taken

/-- The dispatch took the right task, and no demo before another one twice in a row. -/
structure WellChosen (d : Dispatch) (older : List Dispatch) : Prop where
  picks : Picks d.queue (previousId older) d.picked
  alternates : d.picked.type = .demoProgram → previousId older = some d.picked.taskId →
    ∀ other ∈ d.queue, other.type = .demoProgram → other.taskId = d.picked.taskId

theorem AllPicked.wellChosen {newer older : List Dispatch} {d : Dispatch} (ok : AllPicked (newer ++ d :: older)) :
    WellChosen d older := by
  have picks := ok.split
  refine ⟨picks, fun type repeated other member demo => ?_⟩
  cases picks with
  | shell _ _ _ shell => simp [shell] at type
  | demo _ _ _ allowed =>
    by_contra different
    exact allowed ⟨repeated, other, member, demo, different⟩

end MyShell
