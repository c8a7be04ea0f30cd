import MyShell.Server.Accounting
import MyShell.Server.Summary
import MyShell.Server.Waiting

/-! # What a shell command waits for

A shell command in the queue comes before every demo, and before the shell commands behind it. What had been
chosen when it came may still run, for the rest of one quantum. -/

namespace MyShell

open State

def SchedPc.choice : SchedPc → Option Ptr
  | .readId t | .dequeue t _ => some t
  | _ => none

/-- The time that can be used up before the scheduler looks at the queue again. -/
def SchedPc.timeLeft (mem : Ptr → Task) : SchedPc → Nat
  | .readId t | .dequeue t _ | .setCurrent t | .clearPreempt t | .logStart t => if (mem t).type = .shell then 0 else 7
  | .slice r | .update r _ => r.quantum - r.q
  | .check r => r.quantum - r.q - 1
  | _ => 0

namespace State

variable (s : State)

def ahead (p : Ptr) : List Ptr := (s.queue.takeWhile (· ≠ p)).filter fun q => (s.task q).type = .shell

end State

/-- The dispatches that can come before the one of `p`, behind the tasks `ahead`. -/
def stillToCome (choice : Option Ptr) (ahead : List Ptr) (p : Ptr) : Nat :=
  (ahead.filter (choice ≠ some ·)).length + if choice.any (· ≠ p) then 1 else 0

/-- The dispatches so far, and those that can come before the one of `p`. -/
def State.overtaking (s : State) (p : Ptr) : Nat := s.dispatches.length + stillToCome s.pc.choice (s.ahead p) p

structure Handed (s : State) (p : Ptr) : Prop where
  run : ServerRun Machine.always s
  old : p < s.allocated
  shell : (s.task p).type = .shell
  status : s.status p ≠ .created

variable {s t : State} {a : Answer} {c : ClientId} {e : Event} {p q : Ptr}

theorem Handed.step (handed : Handed s p) (taken : step s e = some t) : Handed t p where
  run := handed.run.next trivial taken
  old := Nat.lt_of_lt_of_le handed.old (step_allocated (step_cases taken))
  shell := (step_later (step_cases taken) handed.old).type.trans handed.shell
  status created := by
    have old := Nat.lt_of_lt_of_le handed.old (step_allocated (step_cases taken))
    rcases step_created (step_cases taken) old created with ⟨-, before⟩ | ⟨new, -⟩
    · exact handed.status before
    · exact absurd handed.old (new ▸ Nat.lt_irrefl _)

theorem Handed.back (handed : Handed s p) (taken : MyShell.step s e = some t) (waits : p ∈ t.queue) : p ∈ s.queue := by
  have inv := run_inv handed.run
  cases step_cases taken with
  | sched taken =>
    cases taken with
    | dequeue here found => exact (dequeue_mem found p).mpr (.inr waits)
    | @requeue q here =>
      rcases List.mem_append.mp waits with old | new
      · exact old
      · rw [List.mem_singleton.mp new] at handed
        exact absurd handed.shell (inv.runs.demo q (by rw [here]; rfl))
    | _ => simpa using waits
  | @worker c a t taken =>
    cases taken with
    | @enqueue q here =>
      rcases List.mem_append.mp waits with old | new
      · exact old
      · rw [List.mem_singleton.mp new] at handed
        exact absurd (inv.owned.created c q here).2 handed.status
    | remove => exact (List.mem_filter.mp waits).1
    | _ => simpa using waits
  | main taken => exact taken.frame.queue ▸ waits

theorem peek_ahead (inv : Inv s) {last : Int} (waits : p ∈ s.queue) (shell : (s.task p).type = .shell)
    (found : peekBestTaskSjrf s.task s.queue last = some q) : (s.task q).type = .shell ∧ (q = p ∨ q ∈ s.ahead p) := by
  have burst : (s.task p).burstTime = -1 := by
    cases inv.tasks.wellFormed p (inv.owned.queued p waits).1 with
    | shell _ burst => exact burst
    | demo type => simp [shell] at type
  unfold peekBestTaskSjrf at found
  split at found <;> rename_i first
  · cases found
    obtain ⟨kind, before, after, split, others⟩ := List.find?_eq_some_iff_append.mp first
    have shellFirst : (s.task q).type = .shell := (of_decide_eq_true kind).1
    refine ⟨shellFirst, or_iff_not_imp_left.mpr fun other => ?_⟩
    have behind : ∀ x ∈ before, decide (x ≠ p) = true := by
      intro x member
      refine decide_eq_true fun same => ?_
      have passed := others x member
      simp [same, shell, burst] at passed
    refine List.mem_filter.mpr ⟨?_, decide_eq_true shellFirst⟩
    rw [split, List.takeWhile_append_of_pos behind]
    exact List.mem_append_right _ (by simp [other])
  · have none := List.find?_eq_none.mp first p waits
    simp [shell, burst] at none

/-! ### The time -/

theorem timeLeft_afterUpdate (mem : Ptr → Task) (r : Round) (done : Bool) :
    (afterUpdate r done).timeLeft mem ≤ r.quantum - r.q - 1 := by
  cases done
  · exact Nat.le_refl _
  · exact Nat.zero_le _

theorem timeLeft_afterCheck (mem : Ptr → Task) (r : Round) (b : Bool) :
    (afterCheck r b).timeLeft mem ≤ r.quantum - r.q - 1 := by
  unfold afterCheck
  split
  · exact Nat.zero_le _
  · split
    · exact Nat.le_of_eq (Nat.sub_sub r.quantum r.q 1).symm
    · exact Nat.zero_le _

theorem timeLeft_afterQuantum (mem : Ptr → Task) (q : Ptr) (o : Outcome) : (afterQuantum q o).timeLeft mem = 0 := by
  cases o <;> rfl

theorem schedStep_timeLeft (inv : Inv s) (quanta : QuantaOk s) (fresh : Fresh s) (shell : (s.task p).type = .shell)
    (waits : p ∈ s.queue) (taken : SchedStep s a t) :
    t.sched.totalTimeUsed + t.pc.timeLeft t.task ≤ s.sched.totalTimeUsed + s.pc.timeLeft s.task := by
  cases taken with
  | init here => simp [SchedPc.timeLeft, here, (fresh here).1]
  | @peek q here found =>
    have kind := (peek_ahead inv waits shell found).1
    simp [SchedPc.timeLeft, here, kind]
  | readId here | dequeue here | setCurrent here | clearPreempt here | sliceNothing here =>
    simp [SchedPc.timeLeft, here]
  | logDemo here type _ quantum =>
    simp only [SchedPc.timeLeft, here, type, quantum]
    simp
    split <;> decide
  | slice here => simp [SchedPc.timeLeft, here]
  | @update r done here =>
    have round := (quanta.round r (by rw [here]; rfl)).1
    have before : s.pc.timeLeft s.task = r.quantum - r.q := by rw [here]; rfl
    rw [before]
    refine (Int.add_le_add_left (Int.ofNat_le.mpr (timeLeft_afterUpdate _ r done)) _).trans ?_
    simp
    split <;> omega
  | @check r here =>
    have before : s.pc.timeLeft s.task = r.quantum - r.q - 1 := by rw [here]; rfl
    rw [before]
    exact Int.add_le_add_left (Int.ofNat_le.mpr (timeLeft_afterCheck s.task r s.preemptFlag)) _
  | dequeueNone => simp [SchedPc.timeLeft]
  | countRound => simp [timeLeft_afterQuantum]
  | _ => simp [SchedPc.timeLeft, *]

theorem timeLeft_kept (owned : Owned s) (later : ∀ q < s.allocated, t.task q = s.task q) :
    s.pc.timeLeft t.task = s.pc.timeLeft s.task := by
  have peeked := owned.peeked
  have held := owned.held
  generalize s.pc = pc at peeked held
  cases pc with
  | readId q => exact congrArg (fun task : Task => if task.type = .shell then 0 else 7) (later q peeked)
  | dequeue q id => exact congrArg (fun task : Task => if task.type = .shell then 0 else 7) (later q peeked.1)
  | setCurrent q | clearPreempt q | logStart q =>
    exact congrArg (fun task : Task => if task.type = .shell then 0 else 7) (later q (held q rfl).1)
  | _ => rfl

theorem step_timeLeft (handed : Handed s p) (taken : step s e = some t) (waits : p ∈ s.queue) :
    t.sched.totalTimeUsed + t.pc.timeLeft t.task ≤ s.sched.totalTimeUsed + s.pc.timeLeft s.task := by
  have inv := run_inv handed.run
  cases step_cases taken with
  | sched taken =>
    exact schedStep_timeLeft inv (run_quanta handed.run) (run_fresh handed.run) handed.shell waits taken
  | worker taken =>
    have frame := taken.frame
    rw [frame.sched, frame.pc, timeLeft_kept inv.owned frame.task]
  | main taken =>
    have frame := taken.frame
    rw [frame.sched, frame.pc, frame.task]

/-! ### The queue -/

theorem takeWhile_sublist {old new : List Ptr} (sub : new.Sublist old) (unique : old.Nodup) (member : p ∈ new) :
    (new.takeWhile (· ≠ p)).Sublist (old.takeWhile (· ≠ p)) := by
  induction sub with
  | slnil => exact .slnil
  | @cons new old q sub ih =>
    obtain ⟨once, unique⟩ := List.nodup_cons.mp unique
    have other : q ≠ p := fun same => once (same ▸ sub.subset member)
    rw [List.takeWhile_cons_of_pos (by simpa using other)]
    exact (ih unique member).cons q
  | @cons_cons new old q sub ih =>
    by_cases same : q = p
    · simp [same]
    · have later := (List.mem_cons.mp member).resolve_left (Ne.symm same)
      simpa [same] using ih (List.nodup_cons.mp unique).2 later

theorem takeWhile_behind {queue : List Ptr} (waits : p ∈ queue) (rest : List Ptr) :
    (queue ++ rest).takeWhile (· ≠ p) = queue.takeWhile (· ≠ p) := by
  induction queue with
  | nil => cases waits
  | cons q queue ih =>
    by_cases same : q = p
    · simp [same]
    · have later := (List.mem_cons.mp waits).resolve_left (Ne.symm same)
      simpa [same] using ih later

theorem step_ahead (handed : Handed s p) (taken : step s e = some t) (waits : p ∈ t.queue) :
    (t.ahead p).Sublist (s.ahead p) := by
  have inv := run_inv handed.run
  have before := handed.back taken waits
  have taken := step_cases taken
  have type : ∀ q ∈ s.queue, (t.task q).type = (s.task q).type :=
    fun q member => (step_later taken (inv.owned.queued q member).1).type
  have shrinks : t.queue.Sublist s.queue → (t.ahead p).Sublist (s.ahead p) := by
    intro sub
    have before := takeWhile_sublist sub inv.owned.nodup waits
    have same : t.ahead p = (t.queue.takeWhile (· ≠ p)).filter fun q => (s.task q).type = .shell :=
      List.filter_congr fun q member => by rw [type q (sub.subset (List.takeWhile_subset _ member))]
    rw [same]
    exact before.filter _
  have grows : (∃ rest, t.queue = s.queue ++ rest) → (t.ahead p).Sublist (s.ahead p) := by
    rintro ⟨rest, queue⟩
    have same : t.ahead p = s.ahead p := by
      unfold State.ahead
      rw [queue, takeWhile_behind before]
      exact List.filter_congr fun q member => by rw [type q (List.takeWhile_subset _ member)]
    exact same ▸ .refl _
  cases taken with
  | main taken => exact shrinks (taken.frame.queue ▸ .refl _)
  | sched taken =>
    cases taken with
    | dequeue here found =>
      obtain ⟨-, first, last, split, rest⟩ := dequeue_split found
      refine shrinks ?_
      simp [split, rest]
    | requeue => exact grows ⟨_, rfl⟩
    | _ => exact shrinks (by simp)
  | worker taken =>
    cases taken with
    | enqueue => exact grows ⟨_, rfl⟩
    | remove => exact shrinks (List.filter_sublist ..)
    | _ => exact shrinks (by simp)

/-! ### The dispatches -/

theorem stillToCome_mono {old new : List Ptr} (choice : Option Ptr) (sub : new.Sublist old) (p : Ptr) :
    stillToCome choice new p ≤ stillToCome choice old p :=
  Nat.add_le_add_right (sub.filter _).length_le _

theorem stillToCome_choose {ahead : List Ptr} (among : q = p ∨ q ∈ ahead) :
    stillToCome (some q) ahead p ≤ stillToCome none ahead p := by
  have all : ahead.filter (none ≠ some ·) = ahead := List.filter_eq_self.mpr fun _ _ => rfl
  unfold stillToCome
  rw [all]
  by_cases mine : q = p
  · rw [if_neg (by simpa using mine)]
    exact Nat.le_add_right_of_le (List.length_filter_le ..)
  · have less : (ahead.filter (some q ≠ some ·)).length < ahead.length :=
      List.length_filter_lt_length_iff_exists.mpr ⟨q, among.resolve_left mine, by simp⟩
    rw [if_pos (by simpa using mine)]
    exact Nat.le_add_right_of_le less

theorem filter_absent {ahead : List Ptr} (absent : q ∉ ahead) :
    ahead.filter (none ≠ some ·) = ahead.filter (some q ≠ some ·) :=
  List.filter_congr fun x member => by simpa using fun same : q = x => absent (same ▸ member)

theorem stillToCome_drop {ahead : List Ptr} (absent : q ∉ ahead) :
    stillToCome none ahead p ≤ stillToCome (some q) ahead p := by
  unfold stillToCome
  rw [filter_absent absent]
  exact Nat.le_add_right ..

theorem stillToCome_dispatch {old new : List Ptr} (sub : new.Sublist old) (gone : q ∉ new) (other : q ≠ p) :
    stillToCome none new p + 1 ≤ stillToCome (some q) old p := by
  have fewer := (sub.filter (some q ≠ some ·)).length_le
  unfold stillToCome
  rw [filter_absent gone]
  simpa [other] using fewer

theorem afterUpdate_choice (r : Round) (done : Bool) : (afterUpdate r done).choice = none := by
  cases done <;> rfl

theorem afterCheck_choice (r : Round) (b : Bool) : (afterCheck r b).choice = none := by
  unfold afterCheck
  split
  · rfl
  · split <;> rfl

theorem afterQuantum_choice (q : Ptr) (o : Outcome) : (afterQuantum q o).choice = none := by cases o <;> rfl

theorem overtaking_kept (sub : (t.ahead p).Sublist (s.ahead p)) (dispatches : t.dispatches.length = s.dispatches.length)
    (choice : t.pc.choice = s.pc.choice) : t.overtaking p ≤ s.overtaking p := by
  unfold State.overtaking
  rw [dispatches, choice]
  exact Nat.add_le_add_left (stillToCome_mono _ sub p) _

theorem schedStep_overtaking (inv : Inv s) (shell : (s.task p).type = .shell) (before : p ∈ s.queue)
    (waits : p ∈ t.queue) (sub : (t.ahead p).Sublist (s.ahead p)) (taken : SchedStep s a t) :
    t.overtaking p ≤ s.overtaking p := by
  have kept := overtaking_kept sub
  cases taken with
  | @peek q here found =>
    have among := (peek_ahead inv before shell found).2
    unfold State.overtaking
    rw [here]
    exact Nat.add_le_add_left (stillToCome_choose among) _
  | @dequeueNone q id here found =>
    have absent : q ∉ s.ahead p := by
      intro member
      have queued : q ∈ s.queue := List.takeWhile_subset _ (List.mem_filter.mp member).1
      rw [dequeue_peeked inv here, if_pos queued] at found
      cases found
    unfold State.overtaking
    rw [here]
    exact Nat.add_le_add_left (stillToCome_drop absent) _
  | @dequeue q id removed rest here found =>
    obtain ⟨rfl, -, -⟩ := inv.owned.dequeue inv.tasks here found
    have unique := (dequeue_perm found).nodup_iff.mpr inv.owned.nodup
    have gone := (List.nodup_cons.mp unique).1
    have other : removed ≠ p := fun same => gone (same ▸ waits)
    have behind : removed ∉ ((s.dequeued removed rest).setPc (.setCurrent removed)).ahead p :=
      fun member => gone (List.takeWhile_subset _ (List.mem_filter.mp member).1)
    have fewer := stillToCome_dispatch sub behind other
    have one : ((s.dequeued removed rest).setPc (.setCurrent removed)).dispatches.length = s.dispatches.length + 1 := by
      simp
    unfold State.overtaking
    rw [here, one, Nat.add_right_comm, Nat.add_assoc]
    exact Nat.add_le_add_left fewer _
  | update here => exact kept (by simp) (by rw [here]; exact afterUpdate_choice _ _)
  | check here => exact kept (by simp) (by rw [here]; exact afterCheck_choice _ _)
  | countRound here => exact kept (by simp) (by rw [here]; exact afterQuantum_choice _ _)
  | _ => exact kept (by simp) (by simp [SchedPc.choice, *])

/-- No step makes room for another dispatch before that of a shell command that waits. -/
theorem step_overtaking (handed : Handed s p) (taken : step s e = some t) (waits : p ∈ t.queue) :
    t.overtaking p ≤ s.overtaking p := by
  have sub := step_ahead handed taken waits
  have before := handed.back taken waits
  cases step_cases taken with
  | sched taken => exact schedStep_overtaking (run_inv handed.run) handed.shell before waits sub taken
  | worker taken => exact overtaking_kept sub (by rw [taken.frame.dispatches]) (by rw [taken.frame.pc])
  | main taken => exact overtaking_kept sub (by rw [taken.frame.dispatches]) (by rw [taken.frame.pc])

/-! ### The wait -/

theorem timeLeft_le (quanta : QuantaOk s) (mem : Ptr → Task) : s.pc.timeLeft mem ≤ 7 := by
  have round := quanta.round
  have most : ∀ older q, quantumAfter older q ≤ 7 := by
    intro older q
    unfold quantumAfter
    split <;> decide
  have one : ∀ task : Task, (if task.type = .shell then 0 else 7) ≤ 7 := by
    intro task
    split <;> decide
  generalize s.pc = pc at round
  cases pc with
  | readId | dequeue | setCurrent | clearPreempt | logStart => exact one _
  | slice r | update r _ =>
    have quantum := (round r rfl).2
    exact (Nat.sub_le ..).trans (quantum ▸ most _ _)
  | check r =>
    have quantum := (round r rfl).2
    exact (Nat.sub_le ..).trans ((Nat.sub_le ..).trans (quantum ▸ most _ _))
  | _ => exact Nat.zero_le _

theorem Handed.descends {α : Type} [Preorder α] {μ : State → α} (handed : Handed s p)
    (lower : ∀ {s t : State} {e : Event}, Handed s p → MyShell.step s e = some t → p ∈ t.queue → μ t ≤ μ s)
    (path : Machine.Reach MyShell.step s t) (waits : p ∈ t.queue) : μ t ≤ μ s :=
  path.descends (I := (Handed · p)) (P := (p ∈ ·.queue)) (fun handed taken => handed.step taken)
    (fun handed taken => handed.back taken) (fun handed taken _ waits => lower handed taken waits) handed waits

/-- While a shell command waits, the demos get at most the rest of one quantum, and the dispatches are those of the
shell commands that were before it and of the task that had been chosen. -/
theorem run_overtaken (run : ServerRun Machine.always s) (path : Machine.Reach step s t) (queued : p ∈ s.queue)
    (shell : (s.task p).type = .shell) (waits : p ∈ t.queue) :
    t.sched.totalTimeUsed ≤ s.sched.totalTimeUsed + 7 ∧
      t.dispatches.length ≤ s.dispatches.length + (s.ahead p).length + 1 := by
  have owned := (run_inv run).owned.queued p queued
  have handed : Handed s p := ⟨run, owned.1, shell, by simp [owned.2]⟩
  constructor
  · have least : t.sched.totalTimeUsed + t.pc.timeLeft t.task ≤ s.sched.totalTimeUsed + s.pc.timeLeft s.task :=
      handed.descends (μ := fun u => u.sched.totalTimeUsed + u.pc.timeLeft u.task)
        (fun handed taken waits => step_timeLeft handed taken (handed.back taken waits)) path waits
    have most := timeLeft_le (run_quanta run) s.task
    omega
  · have least : t.overtaking p ≤ s.overtaking p := handed.descends (μ := (·.overtaking p)) step_overtaking path waits
    have most : stillToCome s.pc.choice (s.ahead p) p ≤ (s.ahead p).length + 1 :=
      Nat.add_le_add (List.length_filter_le ..) (by split <;> decide)
    unfold State.overtaking at least
    omega

/-- The shell commands of two clients come while a demo runs. -/
theorem run_overtaken_demo : ∃ s t, ServerRun Machine.always s ∧ Machine.Reach step s t ∧ s.ahead 2 = [1] ∧
    t.sched.totalTimeUsed ≤ s.sched.totalTimeUsed + 7 ∧ t.dispatches.length ≤ s.dispatches.length + 1 + 1 ∧
      s.dispatches.length + 1 = t.dispatches.length := by
  obtain ⟨s, run, seen⟩ := serverRun_by Machine.always
    (Event.connect 5 ++ Event.connect 6 ++ Event.connect 7 ++ Event.submit 1 "demo 9" ++ Event.schedule 9 ++
      Event.submit 2 "ls" ++ Event.submit 3 "pwd")
    (fun s => 2 ∈ s.queue ∧ (s.task 2).type = .shell ∧ s.ahead 2 = [1] ∧ s.dispatches.length = 1 ∧
      (Machine.follow step Machine.always s (Event.schedule 14)).any fun t =>
        2 ∈ t.queue ∧ t.dispatches.length = 2) (by decide +kernel)
  obtain ⟨queued, shell, ahead, before, seen⟩ := of_decide_eq_true seen
  obtain ⟨t, path, seen⟩ := Machine.exists_run _ seen
  obtain ⟨waits, after⟩ := of_decide_eq_true seen
  obtain ⟨time, dispatches⟩ := run_overtaken run path queued shell waits
  rw [ahead] at dispatches
  exact ⟨s, t, run, path, ahead, time, dispatches, by rw [before, after]⟩

end MyShell
