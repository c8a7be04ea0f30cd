import Mathlib.Data.List.MinMax

/-! # The least element in one pass

A loop over a list that keeps the best element so far and passes over some. `select` reads that element
from the state of the loop, and `Good` is what the loop keeps true of its state. -/

namespace OnePass

variable {α : Type u} {β : Type v} {γ : Type w} [LinearOrder β]

/-- One iteration passes over an element, or keeps the better of it and the best so far. -/
structure Selects (key : α → β) (keep : α → Bool) (select : γ → Option α) (Good : γ → Prop)
    (step : γ → α → γ) : Prop where
  good : ∀ acc x, Good acc → Good (step acc x)
  skip : ∀ acc x, Good acc → keep x = false → select (step acc x) = select acc
  first : ∀ acc x, Good acc → keep x = true → select acc = none → select (step acc x) = some x
  better : ∀ acc x m, Good acc → keep x = true → select acc = some m →
    select (step acc x) = if key x < key m then some x else some m

variable {key : α → β} {keep : α → Bool} {select : γ → Option α} {Good : γ → Prop} {step : γ → α → γ}

theorem Selects.foldl (loop : Selects key keep select Good step) (list : List α) {acc : γ} (good : Good acc) :
    select (list.foldl step acc) =
      (list.filter keep).foldl (List.argAux fun b c => key b < key c) (select acc) := by
  induction list generalizing acc with
  | nil => rfl
  | cons x rest ih =>
    rw [List.foldl_cons, ih (loop.good acc x good)]
    cases kept : keep x with
    | false => rw [loop.skip acc x good kept, List.filter_cons_of_neg (by simp [kept])]
    | true =>
      rw [List.filter_cons_of_pos kept, List.foldl_cons]
      cases seen : select acc with
      | none => rw [loop.first acc x good kept seen]; rfl
      | some m => rw [loop.better acc x m good kept seen]; rfl

theorem Selects.argmin (loop : Selects key keep select Good step) (list : List α) {start : γ} (good : Good start)
    (empty : select start = none) : select (list.foldl step start) = (list.filter keep).argmin key := by
  rw [loop.foldl list good, empty]
  rfl

end OnePass
