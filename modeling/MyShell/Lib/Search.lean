import Mathlib.Data.List.Infix

/-! # First occurrences

`firstIndex pattern text` is where `pattern` first occurs in `text`. A pattern that does not
overlap itself (`Unbordered`) ends a text that is free of it: however the text ends, the pattern
is found where it was appended and nowhere before. -/

namespace Search

variable {α : Type u} {pattern text before after : List α} {i : Nat}

/-- No proper end of the pattern is a beginning of it. -/
def Unbordered (pattern : List α) : Prop :=
  ∀ k < pattern.length, 0 < k → ¬ pattern.drop k <+: pattern

/-- In a text that is free of it, an appended pattern occurs once. -/
theorem Unbordered.append_eq (unbordered : Unbordered pattern) (free : ¬ pattern <:+: text)
    (split : text ++ pattern = before ++ pattern ++ after) : before = text ∧ after = [] := by
  have length := congrArg List.length split
  simp only [List.length_append] at length
  by_cases inside : before.length + pattern.length ≤ text.length
  · refine absurd ?_ free
    have start : before ++ pattern <+: text :=
      List.prefix_of_prefix_length_le ⟨after, split.symm⟩ (List.prefix_append ..) (by simpa using inside)
    exact (List.suffix_append before pattern).isInfix.trans start.isInfix
  · by_cases overlap : before.length < text.length
    · -- the occurrence begins in the text and ends in the appended pattern
      let k := text.length - before.length
      have positive : 0 < k := Nat.sub_pos_of_lt overlap
      have short : k < pattern.length := by omega
      have shifted : pattern = pattern.drop k ++ after := by
        have dropped := congrArg (List.drop text.length) split
        rw [List.drop_left, List.append_assoc, List.drop_append, List.drop_eq_nil_of_le (by omega),
          List.drop_append_of_le_length (by omega)] at dropped
        exact dropped
      exact absurd ⟨after, shifted.symm⟩ (unbordered k short positive)
    · have whole : after = [] := List.length_eq_zero_iff.mp (by omega)
      subst whole
      rw [List.append_nil] at split
      exact ⟨(List.append_cancel_right split).symm, rfl⟩

section First

variable [DecidableEq α]

instance (pattern : List α) : Decidable (Unbordered pattern) := by
  unfold Unbordered; infer_instance

def firstIndex (pattern : List α) : List α → Option Nat
  | [] => if pattern = [] then some 0 else none
  | x :: text => if pattern <+: x :: text then some 0 else (firstIndex pattern text).map (· + 1)

theorem firstIndex_eq_none : firstIndex pattern text = none ↔ ¬ pattern <:+: text := by
  induction text with
  | nil => simp [firstIndex]
  | cons x text ih =>
    unfold firstIndex
    split <;> rename_i here
    · simp [here.isInfix]
    · simp [ih, List.infix_cons_iff, here]

/-- What `firstIndex` finds is an occurrence, and there is none that ends before its end. -/
theorem firstIndex_some (found : firstIndex pattern text = some i) :
    (∃ after, text = text.take i ++ pattern ++ after) ∧
      ∀ before after, text = before ++ pattern ++ after → i ≤ before.length := by
  induction text generalizing i with
  | nil =>
    simp only [firstIndex, Option.ite_none_right_eq_some, Option.some.injEq] at found
    obtain ⟨rfl, rfl⟩ := found
    exact ⟨⟨[], rfl⟩, fun _ _ _ => Nat.zero_le _⟩
  | cons x text ih =>
    unfold firstIndex at found
    split at found <;> rename_i here
    · cases found
      obtain ⟨after, split⟩ := here
      exact ⟨⟨after, split.symm⟩, fun _ _ _ => Nat.zero_le _⟩
    · obtain ⟨j, next, rfl⟩ := Option.map_eq_some_iff.mp found
      obtain ⟨⟨after, split⟩, first⟩ := ih next
      refine ⟨⟨after, by simpa using split⟩, fun before after' split' => ?_⟩
      cases before with
      | nil => exact absurd ⟨after', split'.symm⟩ here
      | cons y before =>
        have shorter := first before after' (List.cons.inj split').2
        simpa using shorter

theorem firstIndex_le (found : firstIndex pattern text = some i) : i ≤ text.length := by
  obtain ⟨⟨after, split⟩, first⟩ := firstIndex_some found
  have bound := first _ after split
  rw [List.length_take] at bound
  omega

theorem firstIndex_append (unbordered : Unbordered pattern) (free : ¬ pattern <:+: text) :
    firstIndex pattern (text ++ pattern) = some text.length := by
  cases found : firstIndex pattern (text ++ pattern) with
  | none => exact absurd (List.suffix_append text pattern).isInfix (firstIndex_eq_none.mp found)
  | some i =>
    obtain ⟨⟨after, split⟩, _⟩ := firstIndex_some found
    have bound := firstIndex_le found
    obtain ⟨same, _⟩ := unbordered.append_eq free split
    have length := congrArg List.length same
    rw [List.length_take, Nat.min_eq_left bound] at length
    rw [length]

end First

end Search
