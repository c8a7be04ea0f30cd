import MyShell.Server.Jobs
import MyShell.Server.Placement
import MyShell.Server.Waiting
import Mathlib.Data.List.Infix

/-! # The order of the responses on a connection

A response does not name its command. Shell commands of a client are run in their order, so a client gets its
responses whole and in order if it sends nothing behind an unanswered demo; the scheduler runs the tasks of one
that does so as it runs any others, and their output mixes. -/

namespace MyShell

open State

def State.out (s : State) (p : Ptr) : CString :=
  (s.writes.filter fun w => w.task = some p ∧ w.endMarker = false).flatMap (·.data)

def State.outOf (s : State) : Job → CString
  | .task p => s.out p
  | .refused => refusal

/-- The END_MARKER of a command was sent. A worker that refuses a command sends it at once. -/
def State.answered (s : State) : Job → Bool
  | .task p => s.marked p
  | .refused => true

/-- A command behind this one may be answered before it: it is an unanswered demo, or its process could not be
started. -/
def State.blocks (s : State) : Job → Bool
  | .task p => !s.marked p && ((s.task p).type ≠ .shell || s.Lost p)
  | .refused => false

def State.textOf (s : State) : Job → CString
  | .task p => s.output p
  | .refused => refusal ++ END_MARKER

def WorkerPc.refusing : WorkerPc → CString
  | .refuse => refusal ++ END_MARKER
  | .refuseMarker => END_MARKER
  | _ => []

def EndsOk (s : State) : Prop := ∀ p, s.output p = s.out p ++ if s.marked p = true then END_MARKER else []

/-- Nothing was written yet for the later task, which is not with the scheduler; it is freed with the earlier one. -/
def State.Behind (s : State) : Job → Job → Prop
  | .task p, .task q => s.output q = [] ∧ s.status q ≠ .held ∧ (s.status p = .released → s.status q = .released)
  | _, _ => False

/-- What was written for a client whose commands keep their order. -/
structure AnswersOk (c : ClientId) (s : State) : Prop where
  text : (s.writesFor c).flatMap (·.data) ++ (s.worker c).refusing = (s.jobs c).flatMap s.textOf
  order : (s.jobs c).Pairwise fun job later => s.answered job = true ∨ s.Behind job later
  blocks : ∀ job ∈ s.jobs c, s.blocks job = true →
    (s.jobs c).getLast? = some job ∧ (s.worker c).handling = false
  refusing : (s.worker c).refusing ≠ [] → ∀ job ∈ s.jobs c, s.answered job = true
  first : ∀ p, s.pc.peeks p → (s.task p).clientId = c → ∀ q ∈ s.queue, (s.task q).clientId = c → p ≤ q
  nonempty : s.worker c ≠ .emptyMarker ∧ s.worker c ≠ .logCommand []

structure Known (s : State) : Prop where
  inv : Inv s
  dispatches : DispatchesOk s
  placed : Placed s
  output : OutputOk s
  jobs : JobsOk s
  inOrder : JobsInOrder s

variable {s t : State} {a : Answer} {c : ClientId} {e : Event} {p q : Ptr} {w : Write}

/-! ### What the scheduler writes -/

theorem unmarked_of_writing {pc : SchedPc} (here : pc.writing = some p) : pc.marked = none := by
  cases pc <;> first | rfl | cases here

theorem out_append (appended : t.writes = s.writes ++ [w]) :
    t.out p = s.out p ++ if w.task = some p ∧ w.endMarker = false then w.data else [] := by
  unfold State.out
  rw [appended, List.filter_append, List.flatMap_append]
  by_cases mine : w.task = some p ∧ w.endMarker = false <;> simp [mine]

theorem step_ends (ok : EndsOk s) (inv : Inv s) (output : OutputOk s) (taken : Step s e t) : EndsOk t := by
  have kept : t.writes = s.writes → EndsOk t := fun same p => by
    rw [output_of_writes same, marked_of_writes same, State.out, same]
    exact ok p
  cases taken with
  | main taken => exact kept taken.frame.writes
  | worker taken =>
    rcases taken.wrote with same | ⟨w, appended, own⟩
    · exact kept same
    · intro p
      simpa [output_append appended, marked_append appended, out_append appended, own.task] using ok p
  | sched taken =>
    rcases taken.wrote with same | ⟨w, q, appended, here, wrote⟩
    · exact kept same
    · intro p
      rw [output_append appended, marked_append appended, out_append appended, ok p]
      by_cases same : p = q
      · subst same
        have fresh := output.unmarked inv (held_of_writing here) (unmarked_of_writing here)
        cases last : w.endMarker with
        | true => simp [fresh, wrote.task, wrote.marker last]
        | false => simp [fresh, wrote.task]
      · simp [wrote.task, Ne.symm same]

/-! ### Commands in their order -/

theorem answered_later (grown : s.writes <+: t.writes) {job : Job} (answered : s.answered job = true) :
    t.answered job = true := by
  cases job with
  | task p => exact marked_later grown answered
  | refused => rfl

theorem Known.unmarked (known : Known s) (here : s.pc.marked = none) (live : s.status p ≠ .released) :
    s.marked p = false := by
  rw [Bool.eq_false_iff]
  intro marked
  rcases known.output.freed p marked with released | running
  · exact live released
  · simp [here] at running

theorem State.Behind.move {r : Ptr} {status : Status} (behind : s.Behind (.task p) (.task q)) (kept : t.output q = [])
    (moved : t.status = Function.update s.status r status) (other : q ≠ r) (alive : status ≠ .released) :
    t.Behind (.task p) (.task q) := by
  obtain ⟨-, idle, freed⟩ := behind
  refine ⟨kept, by simpa [moved, other] using idle, fun released => ?_⟩
  by_cases first : p = r
  · simp [moved, first, alive] at released
  · simpa [moved, other] using freed (by simpa [moved, first] using released)

theorem textOf_of_writes (same : t.writes = s.writes) : t.textOf = s.textOf := by
  funext job
  cases job with
  | task p => exact output_of_writes same
  | refused => rfl

theorem WorkerStep.textOf (taken : WorkerStep s c a t) : t.textOf = s.textOf := by
  rcases taken.wrote with same | ⟨w, appended, own⟩
  · exact textOf_of_writes same
  · funext job
    cases job with
    | task p => simp [State.textOf, output_append appended, own.task]
    | refused => rfl

theorem AnswersOk.running (ok : AnswersOk c s) (known : Known s) (listed : .task p ∈ s.jobs c)
    (unmarked : s.marked p = false) : (s.worker c).refusing = [] ∧ ∃ older newer,
      s.jobs c = older ++ .task p :: newer ∧ .task p ∉ older ∧ .task p ∉ newer ∧ newer.flatMap s.textOf = [] := by
  constructor
  · by_contra refusing
    have answered := ok.refusing refusing _ listed
    simp [State.answered, unmarked] at answered
  · obtain ⟨older, newer, split⟩ := List.append_of_mem listed
    have sorted := known.inOrder.sorted c
    have order := ok.order
    rw [split, List.pairwise_append, List.pairwise_cons] at sorted order
    refine ⟨older, newer, split, fun member => ?_, fun member => ?_, List.flatMap_eq_nil_iff.mpr fun job member => ?_⟩
    · exact Nat.lt_irrefl p (sorted.2.2 _ member _ List.mem_cons_self)
    · exact Nat.lt_irrefl p (sorted.2.1.1 _ member)
    · rcases order.2.1.1 job member with answered | behind
      · simp [State.answered, unmarked] at answered
      · cases job with
        | task q => exact behind.1
        | refused => cases behind

section Run
variable {ok : State → Event → Prop}

theorem run_ends (run : ServerRun ok s) : EndsOk s :=
  run.invariant_of (J := fun s => Inv s ∧ OutputOk s) (fun run => ⟨run_inv run, run_output run⟩)
    (by simp [EndsOk, State.output, State.out, State.marked, State.initial]) fun known _ ok _ taken =>
      step_ends ok known.1 known.2 (step_cases taken)

end Run

/-! ### The responses in order -/

end MyShell
