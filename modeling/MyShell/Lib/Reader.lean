import Mathlib.Algebra.BigOperators.Group.List.Basic
import Mathlib.Data.List.TakeWhile

/-! # Reading back what was printed

A reader takes a value off the front of a text. It reads a printed form when it gives the value back and
leaves whatever follows; such readers compose in the order in which the forms were printed. -/

abbrev Reader (τ : Type u) (α : Type u) := StateT (List τ) Option α

namespace Reader

variable {τ α β : Type u}

/-- The printed form `text` is read as `x`, whatever follows. -/
def Reads (r : Reader τ α) (text : List τ) (x : α) : Prop := ∀ rest, r.run (text ++ rest) = some (x, rest)

/-- The reader takes nothing that starts with `text`. -/
def Fails (r : Reader τ α) (text : List τ) : Prop := ∀ rest, r.run (text ++ rest) = none

variable {r : Reader τ α} {f : α → Reader τ β} {text text' : List τ} {x : α} {y : β}

theorem reads_pure (x : α) : Reads (pure x : Reader τ α) [] x := fun _ => rfl

theorem Reads.bind (first : Reads r text x) (second : Reads (f x) text' y) : Reads (r >>= f) (text ++ text') y := by
  intro rest
  rw [StateT.run_bind, List.append_assoc, first]
  exact second rest

theorem Reads.result (reads : Reads r text x) (g : α → β) : Reads (r >>= fun x => pure (g x)) text (g x) := by
  simpa using reads.bind (f := fun x => pure (g x)) (reads_pure (g x))

theorem Fails.bind (fails : Fails r text) (f : α → Reader τ β) : Fails (r >>= f) text := by
  intro rest
  rw [StateT.run_bind, fails]
  rfl

theorem Fails.append (fails : Fails r text) (text' : List τ) : Fails r (text ++ text') := fun rest => by
  rw [List.append_assoc, fails]

theorem Reads.first {r' : Reader τ α} (reads : Reads r text x) : Reads (r <|> r') text x := by
  intro rest
  show (r.run (text ++ rest) <|> r'.run (text ++ rest)) = _
  rw [reads]
  rfl

theorem Reads.second {r' : Reader τ α} (fails : Fails r text) (reads : Reads r' text x) : Reads (r <|> r') text x := by
  intro rest
  show (r.run (text ++ rest) <|> r'.run (text ++ rest)) = _
  rw [fails, reads]
  rfl

section Words

variable [DecidableEq τ]

def literal (word : List τ) : Reader τ PUnit := fun text =>
  if word.isPrefixOf text then some (⟨⟩, text.drop word.length) else none

def upTo (stop : τ) : Reader τ (List τ) := fun text =>
  match text.dropWhile (· ≠ stop) with
  | [] => none
  | _ :: rest => some (text.takeWhile (· ≠ stop), rest)

theorem reads_literal (word : List τ) : Reads (literal word) word ⟨⟩ := by
  intro rest
  show (if _ then _ else _) = _
  rw [if_pos (List.isPrefixOf_iff_prefix.mpr (List.prefix_append ..)), List.drop_left]

theorem fails_literal {before word more : List τ} {c d : τ} (other : c ≠ d) :
    Fails (literal (before ++ c :: word)) (before ++ d :: more) := by
  intro rest
  have off : ¬ (before ++ c :: word).isPrefixOf (before ++ d :: more ++ rest) = true := by
    rw [List.isPrefixOf_iff_prefix, List.append_assoc, List.prefix_append_right_inj, List.cons_append,
      List.cons_prefix_cons]
    exact fun same => other same.1
  exact if_neg off

theorem fails_start {word more : List τ} {c d : τ} (other : c ≠ d) : Fails (literal (c :: word)) (d :: more) := by
  have failed : Fails (literal ([] ++ c :: word)) ([] ++ d :: more) := fails_literal other
  exact failed

theorem reads_upTo {stop : τ} (visible : stop ∉ text) : Reads (upTo stop) (text ++ [stop]) text := by
  intro rest
  have here : ∀ x ∈ text, decide (x ≠ stop) = true := fun x member =>
    decide_eq_true fun same => visible (same ▸ member)
  have drop : (text ++ [stop] ++ rest).dropWhile (· ≠ stop) = stop :: rest := by
    rw [List.append_assoc, List.dropWhile_append_of_pos here]
    simp
  have take : (text ++ [stop] ++ rest).takeWhile (· ≠ stop) = text := by
    rw [List.append_assoc, List.takeWhile_append_of_pos here]
    simp
  show (match (text ++ [stop] ++ rest).dropWhile (· ≠ stop) with
    | [] => none
    | _ :: rest' => some ((text ++ [stop] ++ rest).takeWhile (· ≠ stop), rest')) = _
  rw [drop, take]

end Words

def many (r : Reader τ α) : Nat → List τ → List α
  | 0, _ => []
  | n + 1, text =>
    match r.run text with
    | none => []
    | some (x, rest) => x :: many r n rest

/-- What was printed one after the other is read back whole. -/
theorem many_flatMap {ι : Type v} {print : ι → List τ} {value : ι → α} {xs : List ι}
    (reads : ∀ x ∈ xs, Reads r (print x) (value x)) (nothing : r.run [] = none) {n : Nat} (enough : xs.length ≤ n) :
    many r n (xs.flatMap print) = xs.map value := by
  induction xs generalizing n with
  | nil => cases n <;> simp [many, nothing]
  | cons x xs ih =>
    cases n with
    | zero => cases enough
    | succ n =>
      have rest := ih (fun x member => reads x (List.mem_cons_of_mem _ member)) (Nat.le_of_succ_le_succ enough)
      rw [many, List.flatMap_cons, reads x List.mem_cons_self, List.map_cons, ← rest]

def readAll (r : Reader τ α) (text : List τ) : List α := many r text.length text

theorem readAll_flatMap {ι : Type v} {print : ι → List τ} {value : ι → α} {xs : List ι}
    (reads : ∀ x ∈ xs, Reads r (print x) (value x)) (nothing : r.run [] = none) (some : ∀ x ∈ xs, print x ≠ []) :
    readAll r (xs.flatMap print) = xs.map value := by
  refine many_flatMap reads nothing ?_
  rw [List.length_flatMap]
  have each : ∀ n ∈ xs.map fun x => (print x).length, 1 ≤ n := by
    intro n member
    obtain ⟨x, here, rfl⟩ := List.mem_map.mp member
    exact List.length_pos_iff.mpr (some x here)
  simpa using List.length_le_sum_of_one_le _ each

end Reader
