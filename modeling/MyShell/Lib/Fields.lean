import Mathlib.Data.List.TakeWhile

/-! # Fields

`next` takes a text apart as `strtok` does: separators in a row are one, and those at the ends are dropped.
`any` is the search over the fields that stops at the first hit. -/

namespace Fields

variable {α : Type u} (sep : α → Bool)

/-- The next field and the text behind the separator that ends it. -/
def next (text : List α) : Option (List α × List α) :=
  match text.dropWhile sep with
  | [] => none
  | c :: rest => some (c :: rest.takeWhile (!sep ·), (rest.dropWhile (!sep ·)).tail)

theorem next_shorter {text field rest : List α} (found : next sep text = some (field, rest)) :
    rest.length < text.length := by
  unfold next at found
  split at found
  · cases found
  · rename_i c more here
    obtain ⟨-, rfl⟩ := Prod.mk.inj (Option.some.inj found)
    have whole := (List.dropWhile_sublist sep (l := text)).length_le
    have part := (List.dropWhile_sublist (fun x => !sep x) (l := more)).length_le
    rw [here, List.length_cons] at whole
    rw [List.length_tail]
    omega

def any (test : List α → Bool) (text : List α) : Bool :=
  match _found : next sep text with
  | none => false
  | some (field, rest) => test field || any test rest
termination_by text.length
decreasing_by exact next_shorter sep _found

/-- The pieces between separators that are not empty. -/
def fields (text : List α) : List (List α) := (text.splitOnP sep).filter fun piece => !piece.isEmpty

variable {sep} {text : List α} {c : α} {test : List α → Bool}

theorem fields_sep (here : sep c = true) (text : List α) : fields sep (c :: text) = fields sep text := by
  rw [fields, List.splitOnP_cons_eq_if_modifyHead, if_pos here, List.filter_cons_of_neg (by simp)]
  rfl

theorem fields_last {field : List α} (visible : ∀ x ∈ field, sep x = false) (some : field ≠ []) :
    fields sep field = [field] := by
  rw [fields, List.splitOnP_eq_singleton visible]
  simp [some]

theorem fields_field {field : List α} (visible : ∀ x ∈ field, sep x = false) (some : field ≠ []) (here : sep c = true)
    (text : List α) : fields sep (field ++ c :: text) = field :: fields sep text := by
  rw [fields, List.splitOnP_append_cons_of_forall_mem visible c here, List.filter_cons_of_pos (by simp [some])]
  rfl

theorem fields_next (text : List α) : fields sep text = match next sep text with
    | none => []
    | some (field, rest) => field :: fields sep rest := by
  induction text with
  | nil => rfl
  | cons c text ih =>
    by_cases here : sep c = true
    · rw [fields_sep here, ih, next, next, List.dropWhile_cons_of_pos here]
    · have start : next sep (c :: text) =
          some (c :: text.takeWhile (!sep ·), (text.dropWhile (!sep ·)).tail) := by
        rw [next, List.dropWhile_cons_of_neg here]
      have visible : ∀ x ∈ c :: text.takeWhile (!sep ·), sep x = false := by
        intro x member
        rcases List.mem_cons.mp member with rfl | member
        · exact Bool.of_not_eq_true here
        · simpa using List.mem_takeWhile_imp member
      have whole : c :: text = (c :: text.takeWhile (!sep ·)) ++ text.dropWhile (!sep ·) := by
        rw [List.cons_append, List.takeWhile_append_dropWhile]
      rw [start]
      cases more : text.dropWhile (!sep ·) with
      | nil =>
        rw [more, List.append_nil] at whole
        conv => lhs; rw [whole]
        exact fields_last visible (List.cons_ne_nil _ _)
      | cons d rest =>
        have stop : sep d = true := by
          have head := List.head?_dropWhile_not (fun x => !sep x) text
          simpa [more] using head
        rw [more] at whole
        conv => lhs; rw [whole]
        exact fields_field visible (List.cons_ne_nil _ _) stop rest

theorem any_fields (test : List α → Bool) (text : List α) : any sep test text = (fields sep text).any test := by
  fun_induction any sep test text with
  | case1 text found => rw [fields_next, found]; rfl
  | case2 text field rest found ih => rw [fields_next, found, List.any_cons, ih]

end Fields
