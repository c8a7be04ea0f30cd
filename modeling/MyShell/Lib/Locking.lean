import Mathlib.Data.List.Basic

/-! # Locks that a thread may not take twice -/

namespace Locking

inductive Action (M : Type u) where
  | lock (m : M) | unlock (m : M)
  deriving DecidableEq, Repr

variable {M : Type u} [DecidableEq M] {held : List M} {actions more : List (Action M)} {m : M}

def after (held : List M) : List (Action M) → List M
  | [] => held
  | .lock m :: actions => after (m :: held) actions
  | .unlock m :: actions => after (held.erase m) actions

/-- No action locks a mutex that the thread holds. -/
def Clean (held : List M) : List (Action M) → Prop
  | [] => True
  | .lock m :: actions => m ∉ held ∧ Clean (m :: held) actions
  | .unlock m :: actions => Clean (held.erase m) actions

instance decidableClean : (held : List M) → (actions : List (Action M)) → Decidable (Clean held actions)
  | _, [] => .isTrue trivial
  | held, .lock m :: actions => @instDecidableAnd _ _ _ (decidableClean (m :: held) actions)
  | held, .unlock m :: actions => decidableClean (held.erase m) actions

theorem after_append : after held (actions ++ more) = after (after held actions) more := by
  induction actions generalizing held with
  | nil => rfl
  | cons action actions ih => cases action <;> exact ih

theorem clean_append : Clean held (actions ++ more) ↔ Clean held actions ∧ Clean (after held actions) more := by
  induction actions generalizing held with
  | nil => simp [Clean, after]
  | cons action actions ih => cases action <;> simp [Clean, after, ih, and_assoc]

theorem Clean.take (clean : Clean held actions) (k : Nat) : Clean held (actions.take k) := by
  rw [← List.take_append_drop k actions, clean_append] at clean
  exact clean.1

/-- The actions are clean and end with the mutexes held as before. -/
structure Keeps (held : List M) (actions : List (Action M)) : Prop where
  clean : Clean held actions
  after : after held actions = held

theorem Keeps.nil : Keeps held [] := ⟨trivial, rfl⟩

theorem Keeps.append (first : Keeps held actions) (second : Keeps held more) : Keeps held (actions ++ more) := by
  refine ⟨clean_append.mpr ⟨first.clean, ?_⟩, ?_⟩
  · rw [first.after]; exact second.clean
  · rw [after_append, first.after, second.after]

theorem Keeps.flatMap {α : Type v} {list : List α} {f : α → List (Action M)} (each : ∀ x ∈ list, Keeps held (f x)) :
    Keeps held (list.flatMap f) := by
  induction list with
  | nil => exact .nil
  | cons x list ih =>
    rw [List.flatMap_cons]
    exact (each x (List.mem_cons_self ..)).append (ih fun y member => each y (List.mem_cons_of_mem _ member))

def bracket (m : M) (actions : List (Action M)) : List (Action M) := .lock m :: actions ++ [.unlock m]

theorem Keeps.bracket (free : m ∉ held) (inside : Keeps (m :: held) actions) : Keeps held (bracket m actions) := by
  refine ⟨⟨free, clean_append.mpr ⟨inside.clean, trivial⟩⟩, ?_⟩
  show Locking.after (m :: held) (actions ++ [.unlock m]) = held
  rw [after_append, inside.after]
  simp [Locking.after]

theorem Keeps.wait (free : m ∉ held) : Keeps (m :: held) [.unlock m, .lock m] := by
  refine ⟨?_, ?_⟩ <;> simp [Clean, Locking.after, free]

end Locking
