import MyShell.Lib.Loop
import Mathlib.Logic.Function.Basic
import Mathlib.Data.List.Basic

/-! # Linked lists

`Segment next stop start l` says that following `next` from `start` passes the elements of `l` and
comes to `stop`. Loops that walk along a segment, and writes that lengthen or shorten one. -/

namespace Chain

variable {α : Type u} {next : α → Option α} {start stop mid : Option α} {l m : List α} {x y : α}

def Segment (next : α → Option α) (stop : Option α) : Option α → List α → Prop
  | start, [] => start = stop
  | start, x :: l => start = some x ∧ Segment next stop (next x) l

abbrev Linked (next : α → Option α) (start : Option α) (l : List α) : Prop := Segment next none start l

@[simp] theorem segment_nil : Segment next stop start [] ↔ start = stop := Iff.rfl

@[simp] theorem segment_cons :
    Segment next stop start (x :: l) ↔ start = some x ∧ Segment next stop (next x) l := Iff.rfl

theorem segment_append :
    Segment next stop start (l ++ m) ↔ ∃ mid, Segment next mid start l ∧ Segment next stop mid m := by
  induction l generalizing start with
  | nil => simp
  | cons x l ih => simp [ih, and_assoc]

theorem segment_start (here : Segment next stop start l) : start = l.head?.or stop := by
  cases l with
  | nil => simpa using here
  | cons x l => simpa using here.1

theorem Linked.first (linked : Linked next start l) : start = l.head? := by
  simpa using segment_start linked

theorem Linked.unique (linked : Linked next start l) (other : Linked next start m) : l = m := by
  induction l generalizing start m with
  | nil =>
    cases m with
    | nil => rfl
    | cons y m => cases linked.symm.trans other.1
  | cons x l ih =>
    cases m with
    | nil => cases linked.1.symm.trans other
    | cons y m =>
      cases linked.1.symm.trans other.1
      rw [ih linked.2 other.2]

section Write

variable [DecidableEq α] {v : Option α}

theorem segment_update (outside : x ∉ l) :
    Segment (Function.update next x v) stop start l ↔ Segment next stop start l := by
  induction l generalizing start with
  | nil => rfl
  | cons y l ih =>
    have different : y ≠ x := fun same => outside (same ▸ List.mem_cons_self ..)
    simp [different, ih fun member => outside (List.mem_cons_of_mem _ member)]

theorem segment_redirect (here : Segment next stop start (l ++ [x])) (once : x ∉ l) :
    Segment (Function.update next x v) v start (l ++ [x]) := by
  obtain ⟨mid, first, last⟩ := segment_append.mp here
  refine segment_append.mpr ⟨mid, (segment_update once).mpr first, last.1, ?_⟩
  simp

end Write

def searchBody (next : α → Option α) (test : α → Bool) : Option α → Loop.Next (Option α) (Option α)
  | none => .leave none
  | some curr => if test curr then .leave (some curr) else .again (next curr)

def gatherBody (next : α → Option α) (f : β → α → β) :
    Option α × β → Loop.Next (Option α × β) β
  | (none, acc) => .leave acc
  | (some curr, acc) => .again (next curr, f acc curr)

theorem Linked.search {test : α → Bool} {n : Nat} (linked : Linked next start l) (enough : l.length < n) :
    Loop.run (searchBody next test) n start = some (l.find? test) := by
  induction l generalizing start n with
  | nil =>
    obtain ⟨n, rfl⟩ : ∃ k, n = k + 1 := ⟨n - 1, by simp at enough; omega⟩
    cases linked
    exact Loop.run_leave rfl
  | cons x l ih =>
    simp only [List.length_cons] at enough
    obtain ⟨n, rfl⟩ : ∃ k, n = k + 1 := ⟨n - 1, by omega⟩
    obtain ⟨rfl, rest⟩ := linked
    by_cases passed : test x = true
    · rw [Loop.run_leave (r := some x) (by simp [searchBody, passed])]
      simp [passed]
    · have again : searchBody next test (some x) = .again (next x) := by simp [searchBody, passed]
      rw [Loop.run_again again, ih rest (by omega)]
      simp [passed]

theorem Linked.gather {f : β → α → β} {acc : β} {n : Nat} (linked : Linked next start l) (enough : l.length < n) :
    Loop.run (gatherBody next f) n (start, acc) = some (l.foldl f acc) := by
  induction l generalizing start acc n with
  | nil =>
    obtain ⟨n, rfl⟩ : ∃ k, n = k + 1 := ⟨n - 1, by simp at enough; omega⟩
    cases linked
    exact Loop.run_leave rfl
  | cons x l ih =>
    simp only [List.length_cons] at enough
    obtain ⟨n, rfl⟩ : ∃ k, n = k + 1 := ⟨n - 1, by omega⟩
    obtain ⟨rfl, rest⟩ := linked
    have once : gatherBody next f (some x, acc) = .again (next x, f acc x) := rfl
    rw [Loop.run_again once, ih rest (by omega)]
    rfl

end Chain
