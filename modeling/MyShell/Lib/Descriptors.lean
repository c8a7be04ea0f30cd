import Mathlib.Logic.Function.Basic
import Mathlib.Data.List.Basic
import Mathlib.Data.Finset.Card
import Mathlib.Data.Finset.Range

/-! # Descriptor tables

What the descriptors of a process refer to, by their numbers. A call that opens something gets the
lowest free number below `limit`; when there is none, it fails. -/

namespace Descriptors

variable {δ : Type u} {δ' : Type v}

@[ext] structure Table (δ : Type u) where
  limit : Nat
  file : Nat → Option δ

namespace Table

variable (t : Table δ)

def set (fd : Nat) (d : Option δ) : Table δ := { t with file := Function.update t.file fd d }

def map (f : δ → δ') : Table δ' := ⟨t.limit, fun fd => (t.file fd).map f⟩

def used : Set Nat := {fd | (t.file fd).isSome = true}

def free : Nat := ((Finset.range t.limit).filter fun fd => (t.file fd).isNone = true).card

def lowest : Option Nat := (List.range t.limit).find? fun fd => (t.file fd).isNone

/-- `open`: the number and the table with `d` there. -/
def allocate (d : δ) : Option (Nat × Table δ) := t.lowest.map fun fd => (fd, t.set fd (some d))

def dup (fd : Nat) : Option (Nat × Table δ) := (t.file fd).bind t.allocate

def dup2 (fd target : Nat) : Option (Table δ) := (t.file fd).map fun d => t.set target (some d)

def close (fd : Nat) : Table δ := t.set fd none

def closeAll (fds : List Nat) : Table δ := fds.foldl close t

/-- `pipe`: the numbers of the two ends and the table with them. -/
def pipe (r w : δ) : Option (Nat × Nat × Table δ) :=
  (t.allocate r).bind fun (rd, t₁) => (t₁.allocate w).map fun (wr, t₂) => (rd, wr, t₂)

variable {t} {t' : Table δ} {fd fd' target : Nat} {d d' : δ}

@[simp] theorem mem_used : fd ∈ t.used ↔ (t.file fd).isSome = true := Iff.rfl

theorem set_file (fd : Nat) (x : Option δ) (n : Nat) : (t.set fd x).file n = if n = fd then x else t.file n :=
  Function.update_apply ..

@[simp] theorem set_self (x : Option δ) : (t.set fd x).file fd = x := by simp [set_file]

theorem set_other (x : Option δ) (other : fd' ≠ fd) : (t.set fd x).file fd' = t.file fd' := by simp [set_file, other]

@[simp] theorem set_limit (x : Option δ) : (t.set fd x).limit = t.limit := rfl

@[simp] theorem map_limit (f : δ → δ') : (t.map f).limit = t.limit := rfl

@[simp] theorem map_file (f : δ → δ') (fd : Nat) : (t.map f).file fd = (t.file fd).map f := rfl

theorem lowest_some (found : t.lowest = some fd) :
    t.file fd = none ∧ fd < t.limit ∧ ∀ n < fd, (t.file n).isSome = true := by
  obtain ⟨free, before, after, split, taken⟩ := List.find?_eq_some_iff_append.mp found
  have inside : fd ∈ List.range t.limit := List.mem_of_find?_eq_some found
  refine ⟨by simpa using free, List.mem_range.mp inside, fun n below => ?_⟩
  have order : (before ++ fd :: after).Pairwise (· < ·) := split ▸ List.pairwise_lt_range
  have member : n ∈ before ++ fd :: after := by
    rw [← split, List.mem_range]
    exact Nat.lt_trans below (List.mem_range.mp inside)
  rcases List.mem_append.mp member with first | rest
  · simpa using taken n first
  · rcases List.mem_cons.mp rest with rfl | later
    · exact absurd below (Nat.lt_irrefl n)
    · have above := List.rel_of_pairwise_cons (List.pairwise_append.mp order).2.1 later
      exact absurd (Nat.lt_trans below above) (Nat.lt_irrefl n)

theorem lowest_none : t.lowest = none ↔ t.free = 0 := by
  simp [lowest, free, List.find?_eq_none, Finset.filter_eq_empty_iff]

theorem set_free (free : t.file fd = none) (inside : fd < t.limit) : (t.set fd (some d)).free + 1 = t.free := by
  have member : fd ∈ (Finset.range t.limit).filter fun fd => (t.file fd).isNone = true := by
    simp [free, inside]
  have erased : ((Finset.range t.limit).filter fun n => ((t.set fd (some d)).file n).isNone = true)
      = ((Finset.range t.limit).filter fun fd => (t.file fd).isNone = true).erase fd := by
    ext n
    by_cases here : n = fd <;> simp [set_file, here]
  have some := Finset.card_pos.mpr ⟨fd, member⟩
  rw [Table.free, set_limit, erased, Finset.card_erase_of_mem member, ← Table.free]
  exact Nat.sub_add_cancel some

theorem allocate_some (opened : t.allocate d = some (fd, t')) : t.file fd = none ∧ t' = t.set fd (some d) := by
  obtain ⟨n, found, same⟩ := Option.map_eq_some_iff.mp opened
  cases same
  exact ⟨(lowest_some found).1, rfl⟩

theorem allocate_free (opened : t.allocate d = some (fd, t')) : t'.free + 1 = t.free := by
  obtain ⟨n, found, same⟩ := Option.map_eq_some_iff.mp opened
  cases same
  obtain ⟨free, inside, _⟩ := lowest_some found
  exact set_free free inside

theorem allocate_eq_none : t.allocate d = none ↔ t.free = 0 := by
  rw [allocate, Option.map_eq_none_iff, lowest_none]

theorem allocate_none (full : t.allocate d = none) (d' : δ) : t.allocate d' = none :=
  allocate_eq_none.mpr (allocate_eq_none.mp full)

theorem ne_of_free (free : t.file fd = none) (taken : (t.file target).isSome = true) : target ≠ fd := by
  rintro rfl
  simp [free] at taken

/-- To open a file, to duplicate it onto another number and to close the first puts it there and changes
nothing else. -/
theorem redirect (opened : t.allocate d = some (fd, t')) (taken : (t.file target).isSome = true) :
    ∃ t'', t'.dup2 fd target = some t'' ∧ t''.close fd = t.set target (some d) := by
  obtain ⟨free, rfl⟩ := allocate_some opened
  have other := ne_of_free free taken
  refine ⟨_, by rw [dup2, set_self, Option.map_some], ?_⟩
  refine Table.ext rfl (funext fun n => ?_)
  simp only [close, set_file]
  by_cases first : n = fd
  · subst first
    simp [Ne.symm other, free]
  · simp [first]

theorem dup_kept (taken : (t.file target).isSome = true) :
    (((t.dup fd).map Prod.snd).getD t).file target = t.file target := by
  cases copied : t.dup fd with
  | none => rfl
  | some copy =>
    obtain ⟨fd', t'⟩ := copy
    obtain ⟨d, _, opened⟩ := Option.bind_eq_some_iff.mp copied
    obtain ⟨free, rfl⟩ := allocate_some opened
    exact set_other _ (ne_of_free free taken)

theorem closeAll_file (fds : List Nat) (n : Nat) : (t.closeAll fds).file n = if n ∈ fds then none else t.file n := by
  induction fds generalizing t with
  | nil => simp [closeAll]
  | cons fd fds ih =>
    rw [closeAll, List.foldl_cons]
    change ((t.close fd).closeAll fds).file n = _
    rw [ih, close, set_file]
    by_cases here : n = fd <;> by_cases later : n ∈ fds <;> simp [here, later]

@[simp] theorem closeAll_limit (fds : List Nat) : (t.closeAll fds).limit = t.limit := by
  induction fds generalizing t with
  | nil => rfl
  | cons fd fds ih => exact ih

theorem pipe_some {r w : δ} {rd wr : Nat} (opened : t.pipe r w = some (rd, wr, t')) :
    t.file rd = none ∧ t.file wr = none ∧ rd ≠ wr ∧ t' = (t.set rd (some r)).set wr (some w) := by
  simp only [pipe, Option.bind_eq_some_iff, Option.map_eq_some_iff] at opened
  obtain ⟨⟨rd', t₁⟩, first, ⟨wr', t₂⟩, second, same⟩ := opened
  cases same
  obtain ⟨free, rfl⟩ := allocate_some first
  obtain ⟨free', rfl⟩ := allocate_some second
  dsimp only at free' ⊢
  have other : wr' ≠ rd' := by
    rintro rfl
    simp at free'
  exact ⟨free, by rwa [set_other _ other] at free', other.symm, rfl⟩

theorem pipe_none {r w : δ} : t.pipe r w = none ↔ t.free < 2 := by
  cases first : t.allocate r with
  | none =>
    have full := allocate_eq_none.mp first
    simp [pipe, first, full]
  | some opened =>
    have left := allocate_free first
    simp only [pipe, first, Option.bind_some, Option.map_eq_none_iff, allocate_eq_none]
    omega

theorem pipe_free {r w : δ} {rd wr : Nat} (opened : t.pipe r w = some (rd, wr, t')) : t'.free + 2 = t.free := by
  simp only [pipe, Option.bind_eq_some_iff, Option.map_eq_some_iff] at opened
  obtain ⟨⟨rd', t₁⟩, first, ⟨wr', t₂⟩, second, same⟩ := opened
  cases same
  rw [← allocate_free first, ← allocate_free second]

end Table

end Descriptors
