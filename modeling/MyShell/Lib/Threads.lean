import Mathlib.Order.WellFounded
import Mathlib.Logic.Function.Basic
import MyShell.Lib.Locking
import MyShell.Lib.Machine

/-! # Threads that share locks

Any number of threads run calls, each the list of its lock operations, and a thread waits where it
comes to lock a mutex that another has. `Nested` is the rule for calls that take mutexes in an order
and give them all back; threads that run such calls only are never all stuck. -/

namespace Locking

variable {ι : Type u} {M : Type v} {R : Type w}

/-! ### The order -/

section Order

variable [DecidableEq M] [Preorder R] {rank : M → R} {held : List M} {actions more : List (Action M)} {m : M}

/-- A mutex is locked where only mutexes before it are held, and unlocked by a thread that holds it. -/
def Ordered (rank : M → R) (held : List M) : List (Action M) → Prop
  | [] => True
  | .lock m :: actions => (∀ k ∈ held, rank k < rank m) ∧ Ordered rank (m :: held) actions
  | .unlock m :: actions => m ∈ held ∧ Ordered rank (held.erase m) actions

theorem ordered_append : Ordered rank held (actions ++ more) ↔
    Ordered rank held actions ∧ Ordered rank (after held actions) more := by
  induction actions generalizing held with
  | nil => simp [Ordered, after]
  | cons action actions ih => cases action <;> simp [Ordered, after, ih, and_assoc]

/-- The actions keep the order and end with the mutexes held as before. -/
structure Nested (rank : M → R) (held : List M) (actions : List (Action M)) : Prop where
  ordered : Ordered rank held actions
  after : after held actions = held

theorem Nested.nil : Nested rank held [] := ⟨trivial, rfl⟩

theorem Nested.append (first : Nested rank held actions) (second : Nested rank held more) :
    Nested rank held (actions ++ more) := by
  refine ⟨ordered_append.mpr ⟨first.ordered, ?_⟩, ?_⟩
  · rw [first.after]; exact second.ordered
  · rw [after_append, first.after, second.after]

theorem Nested.flatMap {α : Type x} {list : List α} {f : α → List (Action M)}
    (each : ∀ x ∈ list, Nested rank held (f x)) : Nested rank held (list.flatMap f) := by
  induction list with
  | nil => exact .nil
  | cons x list ih =>
    rw [List.flatMap_cons]
    exact (each x (List.mem_cons_self ..)).append (ih fun y member => each y (List.mem_cons_of_mem _ member))

theorem Nested.bracket (later : ∀ k ∈ held, rank k < rank m) (inside : Nested rank (m :: held) actions) :
    Nested rank held (bracket m actions) := by
  have last : Ordered rank (Locking.after (m :: held) actions) [.unlock m] := by
    rw [inside.after]
    exact ⟨List.mem_cons_self .., trivial⟩
  refine ⟨⟨later, ordered_append.mpr ⟨inside.ordered, last⟩⟩, ?_⟩
  show Locking.after (m :: held) (actions ++ [.unlock m]) = held
  rw [after_append, inside.after]
  simp [Locking.after]

theorem Nested.wait (later : ∀ k ∈ held, rank k < rank m) : Nested rank (m :: held) [.unlock m, .lock m] := by
  refine ⟨⟨List.mem_cons_self .., ?_, trivial⟩, ?_⟩
  · simpa using later
  · simp [Locking.after]

end Order

/-! ### The threads -/

/-- The thread that holds each mutex, and what each thread still does in its call. -/
structure Threads (ι : Type u) (M : Type v) where
  owner : M → Option ι := fun _ => none
  rest : ι → List (Action M) := fun _ => []

inductive Move (ι : Type u) (M : Type v) where
  | enter (i : ι) (call : List (Action M))
  | act (i : ι)

variable [DecidableEq ι] [DecidableEq M]

namespace Threads

@[simp] def hand (s : Threads ι M) (m : M) (owner : Option ι) (i : ι) (rest : List (Action M)) : Threads ι M where
  owner := Function.update s.owner m owner
  rest := Function.update s.rest i rest

/-- A thread that is in no call can begin one, and one that is in a call can go on unless the mutex it locks is held. -/
def step (s : Threads ι M) : Move ι M → Option (Threads ι M)
  | .enter i call => if s.rest i = [] then some { s with rest := Function.update s.rest i call } else none
  | .act i =>
    match s.rest i with
    | [] => none
    | .lock m :: rest =>
      if s.owner m = none then some (s.hand m (some i) i rest) else none
    | .unlock m :: rest =>
      if s.owner m = some i then some (s.hand m none i rest) else none

def Begins (calls : List (Action M) → Prop) (_ : Threads ι M) : Move ι M → Prop
  | .enter _ call => calls call
  | .act _ => True

def Stuck (s : Threads ι M) : Prop := ∀ i, s.step (.act i) = none

inductive Step (s : Threads ι M) : Move ι M → Threads ι M → Prop where
  | enter {i call} (free : s.rest i = []) :
      Step s (.enter i call) { s with rest := Function.update s.rest i call }
  | lock {i m rest} (here : s.rest i = .lock m :: rest) (free : s.owner m = none) :
      Step s (.act i) (s.hand m (some i) i rest)
  | unlock {i m rest} (here : s.rest i = .unlock m :: rest) (mine : s.owner m = some i) :
      Step s (.act i) (s.hand m none i rest)

variable [Preorder R] {rank : M → R} {calls : List (Action M) → Prop} {s t : Threads ι M} {e : Move ι M} {i : ι} {m : M}

theorem step_cases (taken : s.step e = some t) : Step s e t := by
  unfold step at taken
  cases e with
  | enter i call =>
    dsimp only at taken
    split at taken
    · cases taken; exact .enter ‹_›
    · cases taken
  | act i =>
    dsimp only at taken
    split at taken <;> rename_i here
    · cases taken
    · split at taken
      · cases taken; exact .lock here ‹_›
      · cases taken
    · split at taken
      · cases taken; exact .unlock here ‹_›
      · cases taken

/-- What a thread holds when the rest of its call keeps the order and gives everything back. -/
structure Orderly (rank : M → R) (s : Threads ι M) (i : ι) (held : List M) : Prop where
  nodup : held.Nodup
  owns : ∀ m, m ∈ held ↔ s.owner m = some i
  ordered : Ordered rank held (s.rest i)
  ends : after held (s.rest i) = []

/-- All threads keep the order. -/
def Ok (rank : M → R) (s : Threads ι M) : Prop := ∀ i, ∃ held, Orderly rank s i held

omit [DecidableEq ι] in
theorem ok_idle : Ok rank ({} : Threads ι M) := fun _ => ⟨[], List.nodup_nil, by simp, trivial, rfl⟩

theorem Orderly.other {held : List M} {j : ι} {owner : Option ι} {rest : List (Action M)} (ok : Orderly rank s i held)
    (other : i ≠ j) (before : s.owner m ≠ some i) (now : owner ≠ some i) :
    Orderly rank (s.hand m owner j rest) i held where
  nodup := ok.nodup
  owns k := by
    rw [ok.owns]
    by_cases same : k = m
    · subst same
      simp [before, now]
    · simp [same]
  ordered := by simpa [other] using ok.ordered
  ends := by simpa [other] using ok.ends

theorem Orderly.lock {held : List M} {rest : List (Action M)} (ok : Orderly rank s i held)
    (here : s.rest i = .lock m :: rest) (free : s.owner m = none) :
    Orderly rank (s.hand m (some i) i rest) i (m :: held) := by
  obtain ⟨nodup, owns, ordered, ends⟩ := ok
  rw [here] at ordered ends
  have ends : after (m :: held) rest = [] := ends
  have fresh : m ∉ held := fun member => by simp [(owns m).mp member] at free
  refine ⟨List.nodup_cons.mpr ⟨fresh, nodup⟩, fun k => ?_, by simpa using ordered.2, by simpa using ends⟩
  by_cases same : k = m
  · simp [same]
  · simp [same, owns]

theorem Orderly.unlock {held : List M} {rest : List (Action M)} (ok : Orderly rank s i held)
    (here : s.rest i = .unlock m :: rest) :
    Orderly rank (s.hand m none i rest) i (held.erase m) := by
  obtain ⟨nodup, owns, ordered, ends⟩ := ok
  rw [here] at ordered ends
  have ends : after (held.erase m) rest = [] := ends
  refine ⟨nodup.erase m, fun k => ?_, by simpa using ordered.2, by simpa using ends⟩
  by_cases same : k = m
  · simp [same, nodup.not_mem_erase]
  · simp [same, owns, List.mem_erase_of_ne]

theorem step_ok (nested : ∀ call, calls call → Nested rank [] call) (ok : Ok rank s) (begins : Begins calls s e)
    (taken : s.step e = some t) : Ok rank t := by
  intro j
  obtain ⟨held, mine⟩ := ok j
  cases step_cases taken with
  | @enter i call free =>
    have call := nested call begins
    by_cases same : j = i
    · subst same
      have nothing : held = [] := by simpa [free, after] using mine.ends
      exact ⟨held, mine.nodup, mine.owns, by simpa [nothing] using call.ordered, by simpa [nothing] using call.after⟩
    · exact ⟨held, mine.nodup, mine.owns, by simpa [same] using mine.ordered, by simpa [same] using mine.ends⟩
  | @lock i m rest here free =>
    by_cases same : j = i
    · subst same
      exact ⟨_, mine.lock here free⟩
    · exact ⟨held, mine.other same (by simp [free]) (by simpa using Ne.symm same)⟩
  | @unlock i m rest here held' =>
    by_cases same : j = i
    · subst same
      exact ⟨_, mine.unlock here⟩
    · exact ⟨held, mine.other same (by simpa [held'] using Ne.symm same) (by simp)⟩

theorem run_orderly (nested : ∀ call, calls call → Nested rank [] call)
    (run : Machine.Run step (Begins calls) {} s) : Ok rank s :=
  run.invariant ok_idle fun ok begins taken => step_ok nested ok begins taken

/-! ### No deadlock -/

theorem Orderly.next {held : List M} (ok : Orderly rank s i held) (inside : s.rest i ≠ []) :
    s.step (.act i) ≠ none ∨ ∃ m j, s.owner m = some j ∧ ∀ k ∈ held, rank k < rank m := by
  have ordered := ok.ordered
  cases here : s.rest i with
  | nil => exact absurd here inside
  | cons action rest =>
    rw [here] at ordered
    cases action with
    | lock m =>
      cases owner : s.owner m with
      | none => exact .inl (by simp [step, here, owner])
      | some j => exact .inr ⟨m, j, owner, ordered.1⟩
    | unlock m =>
      have mine := (ok.owns m).mp ordered.1
      exact .inl (by simp [step, here, mine])

/-- While a mutex is held some thread can go on: its holder, or the holder of one of higher rank. -/
theorem Ok.goesOn [WellFoundedGT R] (ok : Ok rank s) : ∀ m i, s.owner m = some i → ¬ s.Stuck := by
  intro m
  induction high : rank m using WellFoundedGT.induction generalizing m with
  | ind r ih =>
    intro i owner stuck
    obtain ⟨held, mine⟩ := ok i
    have member := (mine.owns m).mpr owner
    have inside : s.rest i ≠ [] := by
      intro nothing
      have ends := mine.ends
      rw [nothing] at ends
      exact List.ne_nil_of_mem member ends
    rcases mine.next inside with goes | ⟨k, j, waits, later⟩
    · exact goes (stuck i)
    · exact ih (rank k) (high ▸ later m member) k rfl j waits stuck

/-- Where no thread can go on, all have come to the ends of their calls and no mutex is held. -/
theorem run_stuck [WellFoundedGT R] (nested : ∀ call, calls call → Nested rank [] call)
    (run : Machine.Run step (Begins calls) {} s) (stuck : s.Stuck) :
    (∀ i, s.rest i = []) ∧ ∀ m, s.owner m = none := by
  have ok := run_orderly nested run
  constructor
  · intro i
    by_contra inside
    obtain ⟨held, mine⟩ := ok i
    rcases mine.next inside with goes | ⟨m, j, owner, -⟩
    · exact goes (stuck i)
    · exact ok.goesOn m j owner stuck
  · intro m
    cases owner : s.owner m with
    | none => rfl
    | some i => exact absurd stuck (ok.goesOn m i owner)

theorem run_alone {held : List M} {actions more : List (Action M)} (ordered : Ordered rank held actions)
    (owns : ∀ m, s.owner m = if m ∈ held then some i else none) (nodup : held.Nodup)
    (here : s.rest i = actions ++ more) :
    ∃ t, Machine.Run step (Begins calls) s t ∧ t.rest = Function.update s.rest i more ∧
      ∀ m, t.owner m = if m ∈ after held actions then some i else none := by
  induction actions generalizing s held with
  | nil => exact ⟨s, .refl, (Function.update_eq_self_iff.mpr here.symm).symm, owns⟩
  | cons action actions ih =>
    cases action with
    | lock m =>
      have fresh : m ∉ held := fun member => lt_irrefl _ (ordered.1 m member)
      have free : s.owner m = none := by rw [owns, if_neg fresh]
      have taken : s.step (.act i) = some (s.hand m (some i) i (actions ++ more)) := by simp [step, here, free]
      have now : ∀ k, (s.hand m (some i) i (actions ++ more)).owner k = if k ∈ m :: held then some i else none := by
        intro k
        by_cases same : k = m <;> simp [same, owns]
      obtain ⟨t, run, rest, owner⟩ := ih ordered.2 now (List.nodup_cons.mpr ⟨fresh, nodup⟩) (by simp)
      exact ⟨t, (Machine.Run.refl.next trivial taken).trans run, by simpa using rest, owner⟩
    | unlock m =>
      have mine : s.owner m = some i := by rw [owns, if_pos ordered.1]
      have taken : s.step (.act i) = some (s.hand m none i (actions ++ more)) := by simp [step, here, mine]
      have now : ∀ k, (s.hand m none i (actions ++ more)).owner k = if k ∈ held.erase m then some i else none := by
        intro k
        by_cases same : k = m
        · simp [same, nodup.not_mem_erase]
        · simp [same, owns, List.mem_erase_of_ne]
      obtain ⟨t, run, rest, owner⟩ := ih ordered.2 now (nodup.erase m) (by simp)
      exact ⟨t, (Machine.Run.refl.next trivial taken).trans run, by simpa using rest, owner⟩

end Threads

end Locking
