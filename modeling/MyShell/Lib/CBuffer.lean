import Mathlib.Data.List.Basic

/-! # Arrays that hold strings; a write that would leave the array is refused -/

namespace CBuffer

structure Buffer (α : Type u) (n : Nat) where
  elems : List α
  size : elems.length = n

variable {α : Type u} {n : Nat}

def write (b : Buffer α n) (pos : Nat) (xs : List α) : Option (Buffer α n) :=
  if inside : pos + xs.length ≤ n then
    some ⟨b.elems.take pos ++ xs ++ b.elems.drop (pos + xs.length), by simp [b.size]; omega⟩
  else none

/-- `snprintf` of the text `xs` to `pos`, where there is room for `size` with the terminator. -/
def snprintf (nul : α) (b : Buffer α n) (pos size : Nat) (xs : List α) : Option (Buffer α n) :=
  if size = 0 then some b else write b pos (xs.take (size - 1) ++ [nul])

section Text

variable [DecidableEq α] (nul : α)

def text (b : Buffer α n) : List α := b.elems.takeWhile (· ≠ nul)

end Text

variable {b b' : Buffer α n} {xs ys : List α} {nul : α} {size : Nat}

theorem write_behind (ys : List α) (before : xs <+: b.elems) (room : xs.length + ys.length ≤ n) :
    ∃ b', write b xs.length ys = some b' ∧ xs ++ ys <+: b'.elems := by
  have taken : b.elems.take xs.length = xs := List.prefix_iff_eq_take.mp before |>.symm
  refine ⟨_, dif_pos room, b.elems.drop (xs.length + ys.length), ?_⟩
  dsimp only
  rw [taken]

theorem snprintf_behind (nul : α) (before : xs <+: b.elems) (small : ys.length < size) (room : xs.length + size ≤ n) :
    ∃ b', snprintf nul b xs.length size ys = some b' ∧ xs ++ ys ++ [nul] <+: b'.elems := by
  have whole : ys.take (size - 1) = ys := List.take_of_length_le (Nat.le_sub_one_of_lt small)
  have fits : xs.length + (ys ++ [nul]).length ≤ n := by
    rw [List.length_append, List.length_singleton]
    omega
  rw [snprintf, if_neg (Nat.ne_zero_of_lt small), whole, List.append_assoc]
  exact write_behind _ before fits

theorem text_of_prefix [DecidableEq α] (before : xs ++ [nul] <+: b.elems) (visible : nul ∉ xs) : text nul b = xs := by
  obtain ⟨rest, same⟩ := before
  have kept : ∀ x ∈ xs, decide (x ≠ nul) = true := fun x member => decide_eq_true fun same => visible (same ▸ member)
  rw [text, ← same, List.append_assoc, List.takeWhile_append_of_pos kept]
  simp

end CBuffer
