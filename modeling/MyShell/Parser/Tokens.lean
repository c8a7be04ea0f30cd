import MyShell.Parser.Spacing

/-! # Lines as lists of tokens

What `parse_command` makes of a line depends on the tokens that `next_token` finds there one after the
other, and on what it finds behind the last of them. -/

namespace MyShell.Parser

/-- What stands behind the last token: nothing, a quote that is not closed, or, when the token is an
operator directly in front of the NUL, a cursor that is past it. -/
inductive Ending where
  | finished | unterminated | past
deriving DecidableEq

structure Tokens where
  list : List CString
  ending : Ending
deriving DecidableEq

def Fetched.onto {σ σ' τ : Type} (f : σ → σ') : Fetched σ τ → Fetched σ' τ
  | .token x s => .token x (f s)
  | .finished s => .finished (f s)
  | .unterminated s => .unterminated (f s)

def Parsed.onto {σ σ' τ : Type} (f : σ → σ') (parsed : Parsed σ τ) : Parsed σ' τ where
  command := parsed.command
  state := f parsed.state
  stderr := parsed.stderr
  calls := parsed.calls.map fun call => (call.1, f call.2)

namespace Tokenizer

variable {σ σ' τ : Type} {t : Tokenizer σ τ} {t' : Tokenizer σ' τ} {f : σ → σ'}

section Onto

variable (next : ∀ s, t'.next (f s) = (t.next s).onto f) (text : ∀ s x, t'.text (f s) x = t.text s x)
include next

theorem finish_onto (s : σ) (cmd : Command τ) : t'.finish (f s) cmd = (t.finish s cmd).onto f := by
  unfold finish
  rw [next]
  split
  · cases t.next s <;> rfl
  · rfl

include text

theorem nextFile_onto (s : σ) : t'.nextFile (f s) = (f (t.nextFile s).1, (t.nextFile s).2) := by
  unfold nextFile
  rw [next]
  cases t.next s with
  | token x s₁ => simp only [Fetched.onto, text]
  | finished s₁ | unterminated s₁ => rfl

theorem parseLoop_onto (s : σ) (cmd : Command τ) : t'.parseLoop (f s) cmd = (t.parseLoop s cmd).onto f := by
  have token {s s₁ : σ} {x : τ} (fetched : t.next s = .token x s₁) : t'.next (f s) = .token x (f s₁) := by
    rw [next, fetched, Fetched.onto]
  fun_induction t.parseLoop s cmd with
  | case1 s cmd s₁ fetched =>
    rw [parseLoop, next, fetched]
    rfl
  | case2 s cmd s₁ fetched =>
    rw [parseLoop, next, fetched]
    simp only [Fetched.onto, finish_onto next]
    rfl
  | case3 s cmd x s₁ fetched room r operator file twice =>
    rw [parseLoop_duplicate (token fetched) room (by rw [text, operator]) twice]
    rfl
  | case4 s cmd x s₁ fetched room r operator unset s₂ missing =>
    have missing' : t'.nextFile (f s₁) = (f s₂, none) := by rw [nextFile_onto next text, missing]
    rw [parseLoop_missing (token fetched) room (by rw [text, operator]) unset missing']
    rfl
  | case5 s cmd x s₁ fetched room r operator unset s₂ file found ih =>
    have found' : t'.nextFile (f s₁) = (f s₂, some file) := by rw [nextFile_onto next text, found]
    rw [parseLoop_file (token fetched) room (by rw [text, operator]) unset found', ih]
    rfl
  | case6 s cmd x s₁ fetched room plain ih =>
    rw [parseLoop_arg (token fetched) room (by rw [text, plain]), ih]
    rfl
  | case7 s cmd x s₁ fetched full =>
    rw [parseLoop_full (token fetched) full, finish_onto next]
    rfl

end Onto

end Tokenizer

/-- The tokens as a list. -/
def listed : Tokenizer Tokens CString where
  next
    | ⟨x :: xs, ending⟩ => .token x ⟨xs, ending⟩
    | ⟨[], .unterminated⟩ => .unterminated ⟨[], .finished⟩
    | ⟨[], ending⟩ => .finished ⟨[], ending⟩
  text _ x := x

variable {s : List Char} {left left₁ : Option (List Char)} {x : List Char}

theorem behind_length (s : List Char) : (behind s).length ≤ s.length := by
  have skipped : (dropBlanks s).length ≤ s.length := List.length_dropWhile_le ..
  have scanned := scanWord_length (dropBlanks s) {}
  unfold behind
  dsimp only
  split_ifs
  · rw [List.length_drop]
    omega
  · rw [List.length_drop]
    omega
  · omega

def Left (left : Option (List Char)) : Nat := left.elim 0 fun s => s.length + 1

theorem nextAlone_less (fetched : nextAlone left = .token x left₁) : Left left₁ < Left left := by
  cases left with
  | none => cases fetched
  | some s =>
    have rest := (nextAlone_token fetched).2
    have nonempty : s ≠ [] := by
      rintro rfl
      cases fetched
    have some := List.length_pos_iff.mpr nonempty
    have shorter := behind_length s
    cases left₁ with
    | none => exact Nat.succ_pos _
    | some s₁ =>
      obtain rfl : s₁ = (behind s).tail := rest
      simp only [Left, Option.elim_some, List.length_tail]
      omega

/-- The tokens of what is left of a line. -/
def fetches (left : Option (List Char)) : Tokens :=
  match _ : nextAlone left with
  | .finished none => ⟨[], .past⟩
  | .finished (some _) => ⟨[], .finished⟩
  | .unterminated _ => ⟨[], .unterminated⟩
  | .token x left₁ => ⟨x :: (fetches left₁).list, (fetches left₁).ending⟩
termination_by Left left
decreasing_by all_goals exact nextAlone_less ‹_›

theorem fetches_finished (fetched : nextAlone left = .finished left₁) :
    fetches left = ⟨[], if left₁ = none then .past else .finished⟩ := by
  rw [fetches]
  split
  · simp_all
  · rename_i rest finished
    rw [fetched, Fetched.finished.injEq] at finished
    simp [finished]
  · simp_all
  · simp_all

theorem fetches_unterminated (fetched : nextAlone left = .unterminated left₁) : fetches left = ⟨[], .unterminated⟩ := by
  rw [fetches]
  split <;> simp_all

theorem fetches_token (fetched : nextAlone left = .token x left₁) :
    fetches left = ⟨x :: (fetches left₁).list, (fetches left₁).ending⟩ := by
  rw [fetches]
  split <;> simp_all

@[simp] theorem fetches_none : fetches none = ⟨[], .past⟩ := fetches_finished (show nextAlone none = .finished none from rfl)

theorem nextAlone_finished_some (fetched : nextAlone (some s) = .finished left₁) : left₁ = some [] := by
  unfold nextAlone at fetched
  dsimp only at fetched
  split at fetched
  · cases fetched
    rfl
  · unfold headToken at fetched
    dsimp only at fetched
    split_ifs at fetched

theorem nextAlone_unterminated (fetched : nextAlone left = .unterminated left₁) : left₁ = some [] := by
  cases left with
  | none => cases fetched
  | some s =>
    unfold nextAlone headToken at fetched
    dsimp only at fetched
    split_ifs at fetched with bare error redirects isOpen
    cases fetched
    rw [scanWord_open isOpen]

theorem fetches_nil : fetches (some []) = ⟨[], .finished⟩ := by
  rw [fetches_finished (show nextAlone (some []) = .finished (some []) from rfl)]
  rfl

theorem listed_next (left : Option (List Char)) : listed.next (fetches left) = (alone.next left).onto fetches := by
  change listed.next (fetches left) = (nextAlone left).onto fetches
  cases fetched : nextAlone left with
  | token x left₁ =>
    rw [fetches_token fetched]
    rfl
  | finished left₁ =>
    rw [fetches_finished fetched]
    cases left with
    | none =>
      cases fetched
      simp [listed, Fetched.onto]
    | some s =>
      rw [nextAlone_finished_some fetched]
      simp [listed, Fetched.onto, fetches_nil]
  | unterminated left₁ =>
    rw [fetches_unterminated fetched, nextAlone_unterminated fetched]
    simp [listed, Fetched.onto, fetches_nil]

/-- `parse_command` on a line that nothing follows is `parse_command` on its tokens. -/
theorem parseLoop_listed (left : Option (List Char)) (cmd : Command CString) :
    listed.parseLoop (fetches left) cmd = (alone.parseLoop left cmd).onto fetches :=
  Tokenizer.parseLoop_onto listed_next (fun left x => (text_char left x).symm) left cmd

theorem calls_inside {line : List Char} (ending : (fetches (some line)).ending ≠ .past) :
    ∀ call ∈ (parseAlone line).calls, call.2 ≠ none := by
  have kept (left : Option (List Char)) (inside : (fetches left).ending ≠ .past) :
      (fetches (alone.next left).state).ending ≠ .past := by
    change (fetches (nextAlone left).state).ending ≠ .past
    cases fetched : nextAlone left with
    | token x left₁ => rwa [fetches_token fetched] at inside
    | finished left₁ =>
      rw [fetches_finished fetched] at inside
      cases left₁ with
      | none => exact absurd rfl inside
      | some s =>
        cases left with
        | none => cases fetched
        | some s' =>
          cases nextAlone_finished_some fetched
          rw [Fetched.state, fetches_nil]
          decide
    | unterminated left₁ =>
      rw [Fetched.state, nextAlone_unterminated fetched, fetches_nil]
      decide
  intro call member none
  have here := Tokenizer.parseLoop_calls kept ending call member
  rw [none, fetches_none] at here
  exact here rfl

/-- A line that is not read on past its end is read as it is read alone, whatever stands behind it. -/
theorem parseCommand_inside {line tail : List Char} (front : List Char) (noNul : NUL ∉ line) (ends : charAt tail 0 = NUL)
    (inside : ∀ call ∈ (parseAlone line).calls, call.2 ≠ none) :
    (parseCommand (front ++ (line ++ tail)) front.length).read = (parseAlone line).command ∧
      (parseCommand (front ++ (line ++ tail)) front.length).stderr = (parseAlone line).stderr := by
  have visible : ∀ c ∈ line, c ≠ nul := visible_of_noNul noNul
  have agree : Agree _ _ (parseCommand (front ++ (line ++ tail)) front.length) (parseAlone line) :=
    parseCommand_stands ends visible fun call member none => absurd none (inside call member)
  exact ⟨agree.command.map_eq fun _ _ placed => placed.read, agree.stderr⟩

/-! ### Items -/

/-- A word, or an operator with the file name behind it, if there is one. -/
inductive Item (τ : Type) where
  | word (x : τ)
  | redirection (r : Redirection) (name : Option τ)
deriving DecidableEq

section Items

variable {τ : Type}

/-- Tokens read as words and redirections, where `op` tells the operators. -/
def items (op : τ → Option Redirection) : List τ → List (Item τ)
  | [] => []
  | x :: xs =>
    match op x with
    | none => .word x :: items op xs
    | some r =>
      match xs with
      | [] => [.redirection r none]
      | y :: ys => if op y = none then .redirection r (some y) :: items op ys else .redirection r none :: items op (y :: ys)

def words : List (Item τ) → List τ
  | [] => []
  | .word x :: is => x :: words is
  | .redirection _ _ :: is => words is

def names (r : Redirection) : List (Item τ) → List (Option τ)
  | [] => []
  | .word _ :: is => names r is
  | .redirection r' name :: is => if r' = r then name :: names r is else names r is

def upTo : Nat → List (Item τ) → List (Item τ)
  | 0, _ => []
  | _, [] => []
  | n + 1, .word x :: is => .word x :: upTo n is
  | n + 1, .redirection r name :: is => .redirection r name :: upTo (n + 1) is

def beyond : Nat → List (Item τ) → List (Item τ)
  | 0, is => is
  | _, [] => []
  | n + 1, .word _ :: is => beyond n is
  | n + 1, .redirection _ _ :: is => beyond (n + 1) is

def tokenCount : List (Item τ) → Nat
  | [] => 0
  | .word _ :: is => 1 + tokenCount is
  | .redirection _ name :: is => 1 + name.toList.length + tokenCount is

variable {op : τ → Option Redirection} {x y : τ} {xs : List τ} {r : Redirection} {is : List (Item τ)} {n : Nat}

theorem items_word (plain : op x = none) : items op (x :: xs) = .word x :: items op xs := by
  rw [items, plain]

theorem items_file (operator : op x = some r) (plain : op y = none) :
    items op (x :: y :: xs) = .redirection r (some y) :: items op xs := by
  rw [items, operator]
  simp [plain]

theorem items_missing (operator : op x = some r) (missing : ∀ y ∈ xs.head?, op y ≠ none) :
    items op (x :: xs) = .redirection r none :: items op xs := by
  rw [items, operator]
  cases xs with
  | nil => rfl
  | cons y ys => simp [missing y rfl]

theorem items_operator (operator : op x = some r) (xs : List τ) : ∃ name is, items op (x :: xs) = .redirection r name :: is := by
  cases xs with
  | nil => exact ⟨none, _, items_missing operator nofun⟩
  | cons y ys =>
    by_cases plain : op y = none
    · exact ⟨some y, _, items_file operator plain⟩
    · exact ⟨none, _, items_missing operator fun z same => by
        cases same
        exact plain⟩

theorem items_eq_nil : items op xs = [] ↔ xs = [] := by
  cases xs with
  | nil => exact iff_of_true rfl rfl
  | cons x xs =>
    refine iff_of_false ?_ (List.cons_ne_nil x xs)
    cases operator : op x with
    | none =>
      rw [items_word operator]
      exact List.cons_ne_nil _ _
    | some r =>
      obtain ⟨name, is, same⟩ := items_operator operator xs
      rw [same]
      exact List.cons_ne_nil _ _

@[simp] theorem upTo_zero (is : List (Item τ)) : upTo 0 is = [] := by cases is <;> rfl

@[simp] theorem beyond_zero (is : List (Item τ)) : beyond 0 is = is := by cases is <;> rfl

@[simp] theorem upTo_nil (n : Nat) : upTo n ([] : List (Item τ)) = [] := by cases n <;> rfl

@[simp] theorem beyond_nil (n : Nat) : beyond n ([] : List (Item τ)) = [] := by cases n <;> rfl

theorem upTo_beyond (n : Nat) (is : List (Item τ)) : upTo n is ++ beyond n is = is := by
  fun_induction upTo n is <;> simp_all [beyond]

theorem upTo_eq_iff : upTo n is = is ↔ beyond n is = [] := by
  have whole := upTo_beyond n is
  constructor
  · intro same
    rw [same] at whole
    exact List.append_right_eq_self.mp whole
  · intro none
    rwa [none, List.append_nil] at whole

theorem tokenCount_items (op : τ → Option Redirection) (xs : List τ) : tokenCount (items op xs) = xs.length := by
  fun_induction items op xs with
  | case1 => rfl
  | case2 x xs plain ih => rw [tokenCount, ih, List.length_cons, Nat.add_comm]
  | case3 x r operator => rfl
  | case4 x r operator y ys plain ih =>
    rw [tokenCount, ih]
    simp
    omega
  | case5 x r operator y ys other ih =>
    rw [tokenCount, ih]
    simp
    omega

def Item.map {τ' : Type} (f : τ → τ') : Item τ → Item τ'
  | .word x => .word (f x)
  | .redirection r name => .redirection r (name.map f)

theorem words_map {τ' : Type} (f : τ → τ') (is : List (Item τ)) : words (is.map (Item.map f)) = (words is).map f := by
  fun_induction words is <;> simp_all [words, Item.map]

theorem names_map {τ' : Type} (f : τ → τ') (r : Redirection) (is : List (Item τ)) :
    names r (is.map (Item.map f)) = (names r is).map (Option.map f) := by
  fun_induction names r is <;> simp_all [names, Item.map]

theorem names_append (r : Redirection) (is is' : List (Item τ)) : names r (is ++ is') = names r is ++ names r is' := by
  fun_induction names r is <;> simp_all [names]

theorem words_upTo (n : Nat) (is : List (Item τ)) : words (upTo n is) = (words is).take n := by
  fun_induction upTo n is <;> simp_all [words]

theorem words_beyond (n : Nat) (is : List (Item τ)) : words (beyond n is) = (words is).drop n := by
  fun_induction beyond n is <;> simp_all [words]

theorem words_full (some : beyond n is ≠ []) : n ≤ (words is).length := by
  fun_induction beyond n is <;> simp_all [words]

end Items

/-! ### What becomes of the items -/

/-- The arguments for which there is still room. -/
def Command.vacant {τ : Type} (cmd : Command τ) : Nat := MAX_ARGS - 1 - cmd.args.length

/-- With these redirections every operator has a file name, and none is there twice. -/
def Complete (cmd : Command CString) (is : List (Item CString)) : Prop :=
  ∀ r, ∃ file : Option CString, (cmd.file r).toList.map some ++ names r is = file.toList.map some

/-- What `parse_command` makes of the tokens behind those that are in `cmd`. Only the items up to the limit count. -/
structure Outcome (st : Tokens) (cmd : Command CString) (parsed : Parsed Tokens CString) : Prop where
  accepts : parsed.command.hasError = false ↔
    Complete cmd (upTo cmd.vacant (items Redirection.ofToken st.list)) ∧
      ¬(st.ending = .unterminated ∧ beyond cmd.vacant (items Redirection.ofToken st.list) = [])
  args : parsed.command.hasError = false →
    parsed.command.args = cmd.args ++ words (upTo cmd.vacant (items Redirection.ofToken st.list))
  files : parsed.command.hasError = false → ∀ r, (parsed.command.file r).toList.map some =
    (cmd.file r).toList.map some ++ names r (upTo cmd.vacant (items Redirection.ofToken st.list))
  stderr : parsed.command.hasError = false →
    parsed.stderr = if 2 ≤ tokenCount (beyond cmd.vacant (items Redirection.ofToken st.list)) then [ARGS_EXCEEDED] else []

section Outcome

variable {st st₁ : Tokens} {cmd : Command CString} {x file : CString} {r : Redirection}

theorem listed_token (fetched : listed.next st = .token x st₁) : st = ⟨x :: st₁.list, st₁.ending⟩ := by
  obtain ⟨_ | ⟨y, ys⟩, ending⟩ := st
  · cases ending <;> cases fetched
  · cases fetched
    rfl

theorem listed_finished (fetched : listed.next st = .finished st₁) :
    st.list = [] ∧ st.ending ≠ .unterminated ∧ st₁ = st := by
  obtain ⟨_ | ⟨y, ys⟩, ending⟩ := st
  · cases ending <;> cases fetched <;> exact ⟨rfl, nofun, rfl⟩
  · cases fetched

theorem listed_unterminated (fetched : listed.next st = .unterminated st₁) : st = ⟨[], .unterminated⟩ := by
  obtain ⟨_ | ⟨y, ys⟩, ending⟩ := st
  · cases ending <;> cases fetched
    rfl
  · cases fetched

theorem listed_file (found : listed.nextFile st = (st₁, some file)) :
    st = ⟨file :: st₁.list, st₁.ending⟩ ∧ Redirection.ofToken file = none :=
  ⟨listed_token (Tokenizer.nextFile_token found), Tokenizer.nextFile_literal found⟩

theorem listed_missing (missing : listed.nextFile st = (st₁, none)) :
    ∀ y ∈ st.list.head?, Redirection.ofToken y ≠ none := by
  obtain ⟨_ | ⟨y, ys⟩, ending⟩ := st
  · exact nofun
  · rintro _ ⟨⟩ plain
    have operator := isRedirectionOperator_eq y
    rw [plain, Option.isSome_none] at operator
    simp [Tokenizer.nextFile, listed, operator] at missing

theorem finish_listed (st : Tokens) (cmd : Command CString) :
    (listed.finish st cmd).stderr = if cmd.args.length ≥ MAX_ARGS - 1 ∧ st.list ≠ [] then [ARGS_EXCEEDED] else [] := by
  unfold Tokenizer.finish
  split
  · obtain ⟨_ | ⟨y, ys⟩, ending⟩ := st
    · cases ending <;> simp [listed]
    · simp [listed, *]
  · simp [*]

theorem Outcome.after {parsed : Parsed Tokens CString} (outcome : Outcome st cmd parsed) (call : Asked × Tokens) :
    Outcome st cmd (parsed.after call) :=
  ⟨outcome.accepts, outcome.args, outcome.files, outcome.stderr⟩

theorem Outcome.error {parsed : Parsed Tokens CString} (wrong : parsed.command.hasError = true)
    (bad : ¬ Complete cmd (upTo cmd.vacant (items Redirection.ofToken st.list)) ∨
      (st.ending = .unterminated ∧ beyond cmd.vacant (items Redirection.ofToken st.list) = [])) : Outcome st cmd parsed := by
  have never : ¬ parsed.command.hasError = false := by simp [wrong]
  refine ⟨iff_of_false never fun good => ?_, fun ok => (never ok).elim, fun ok => (never ok).elim, fun ok => (never ok).elim⟩
  exact bad.elim (fun incomplete => incomplete good.1) good.2

theorem Outcome.step {cmd' : Command CString} {parsed : Parsed Tokens CString} (outcome : Outcome st₁ cmd' parsed)
    (ending : st.ending = st₁.ending)
    (complete : ∀ r, (cmd.file r).toList.map some ++ names r (upTo cmd.vacant (items Redirection.ofToken st.list)) =
      (cmd'.file r).toList.map some ++ names r (upTo cmd'.vacant (items Redirection.ofToken st₁.list)))
    (args : cmd.args ++ words (upTo cmd.vacant (items Redirection.ofToken st.list)) =
      cmd'.args ++ words (upTo cmd'.vacant (items Redirection.ofToken st₁.list)))
    (rest : beyond cmd.vacant (items Redirection.ofToken st.list) = beyond cmd'.vacant (items Redirection.ofToken st₁.list)) :
    Outcome st cmd parsed := by
  refine ⟨?_, ?_, ?_, ?_⟩
  · rw [outcome.accepts, Complete, Complete, ending, rest]
    simp only [complete]
  · rw [args]
    exact outcome.args
  · simp only [complete]
    exact outcome.files
  · rw [rest]
    exact outcome.stderr

theorem vacant_addArg (room : cmd.args.length < MAX_ARGS - 1) : cmd.vacant = (cmd.addArg x room).vacant + 1 := by
  have longer : (cmd.addArg x room).args.length = cmd.args.length + 1 := List.length_append
  unfold Command.vacant
  omega

@[simp] theorem vacant_setFile : (cmd.setFile r file).vacant = cmd.vacant := by simp [Command.vacant]

theorem vacant_full (full : ¬ cmd.args.length < MAX_ARGS - 1) : cmd.vacant = 0 := Nat.sub_eq_zero_of_le (Nat.not_lt.mp full)

theorem upTo_redirection {τ : Type} {n : Nat} (r : Redirection) (name : Option τ) (is : List (Item τ)) (some : 0 < n) :
    upTo n (.redirection r name :: is) = .redirection r name :: upTo n is ∧
      beyond n (.redirection r name :: is) = beyond n is := by
  cases n with
  | zero => exact absurd some (Nat.lt_irrefl 0)
  | succ n => exact ⟨rfl, rfl⟩

theorem vacant_pos (room : cmd.args.length < MAX_ARGS - 1) : 0 < cmd.vacant := Nat.sub_pos_of_lt room

theorem not_complete {is : List (Item CString)} {name : Option CString} (set : cmd.file r = some file) :
    ¬ Complete cmd (.redirection r name :: is) := by
  intro complete
  obtain ⟨name', same⟩ := complete r
  have length := congrArg List.length same
  cases name' <;> simp [set, names] at length

theorem complete_nil (cmd : Command CString) : Complete cmd [] := fun r => ⟨cmd.file r, List.append_nil _⟩

theorem parseLoop_outcome (st : Tokens) (cmd : Command CString) (accepted : cmd.hasError = false) :
    Outcome st cmd (listed.parseLoop st cmd) := by
  fun_induction listed.parseLoop st cmd with
  | case1 st cmd st₁ fetched =>
    obtain rfl := listed_unterminated fetched
    exact .error rfl (.inr ⟨rfl, beyond_nil _⟩)
  | case2 st cmd st₁ fetched =>
    obtain ⟨none, closed, rfl⟩ := listed_finished fetched
    have stderr := finish_listed st₁ cmd
    refine .after ⟨?_, ?_, ?_, ?_⟩ _ <;> rw [none] <;>
      simp [Tokenizer.finish_command, accepted, closed, items, complete_nil, words, names, tokenCount, stderr, none]
  | case3 st cmd x st₁ fetched room r operator file twice =>
    obtain rfl := listed_token fetched
    replace operator : Redirection.ofToken x = some r := operator
    obtain ⟨name, is, same⟩ := items_operator operator st₁.list
    refine .error rfl (.inl ?_)
    rw [same, (upTo_redirection _ _ _ (vacant_pos room)).1]
    exact not_complete twice
  | case4 st cmd x st₁ fetched room r operator unset st₂ missing =>
    obtain rfl := listed_token fetched
    replace operator : Redirection.ofToken x = some r := operator
    refine .error rfl (.inl ?_)
    rw [items_missing operator (listed_missing missing), (upTo_redirection _ _ _ (vacant_pos room)).1]
    intro complete
    obtain ⟨name, same⟩ := complete r
    cases name <;> simp [names, unset] at same
  | case5 st cmd x st₁ fetched room r operator unset st₂ file found ih =>
    obtain rfl := listed_token fetched
    replace operator : Redirection.ofToken x = some r := operator
    obtain ⟨rfl, plain⟩ := listed_file found
    have is : items Redirection.ofToken (x :: file :: st₂.list) = _ := items_file operator plain
    obtain ⟨front, back⟩ := upTo_redirection r (some file) (items Redirection.ofToken st₂.list) (vacant_pos room)
    refine .after (.after ?_ _) _
    refine (ih (by simpa using accepted)).step rfl (fun r' => ?_) ?_ ?_
    · rw [is, front, vacant_setFile, Command.file_setFile, names]
      by_cases this : r' = r
      · subst this
        simp [unset]
      · simp [this, Ne.symm this]
    · rw [is, front, vacant_setFile, Command.args_setFile, words]
    · rw [is, back, vacant_setFile]
  | case6 st cmd x st₁ fetched room plain ih =>
    obtain rfl := listed_token fetched
    replace plain : Redirection.ofToken x = none := plain
    have is : items Redirection.ofToken (x :: st₁.list) = _ := items_word plain
    have vacant := vacant_addArg (x := x) room
    refine .after ?_ _
    refine (ih accepted).step rfl (fun r => ?_) ?_ ?_
    · rw [is, vacant, Command.file_addArg, upTo, names]
    · rw [is, vacant, upTo, words]
      simp [Command.addArg]
    · rw [is, vacant, beyond]
  | case7 st cmd x st₁ fetched full =>
    obtain rfl := listed_token fetched
    have stderr := finish_listed st₁ cmd
    have some : items Redirection.ofToken (x :: st₁.list) ≠ [] := mt items_eq_nil.mp (List.cons_ne_nil _ _)
    have count : 2 ≤ tokenCount (items Redirection.ofToken (x :: st₁.list)) ↔ st₁.list ≠ [] := by
      rw [tokenCount_items, List.length_cons, ← List.length_pos_iff]
      omega
    refine .after ⟨?_, ?_, ?_, ?_⟩ _ <;>
      simp [Tokenizer.finish_command, accepted, vacant_full full, words, names, complete_nil, some, count, stderr,
        Nat.not_lt.mp full]

theorem parseAlone_outcome (line : List Char) :
    Outcome (fetches (some line)) {} ((parseAlone line).onto fetches) := by
  rw [parseAlone, ← parseLoop_listed]
  exact parseLoop_outcome _ _ rfl

end Outcome

section Line

variable {line : List Char}

theorem parseAlone_accepts : (parseAlone line).command.hasError = false ↔
    Complete {} (upTo (MAX_ARGS - 1) (items Redirection.ofToken (fetches (some line)).list)) ∧
      ¬((fetches (some line)).ending = .unterminated ∧
        beyond (MAX_ARGS - 1) (items Redirection.ofToken (fetches (some line)).list) = []) :=
  (parseAlone_outcome line).accepts

theorem parseAlone_args (accepted : (parseAlone line).command.hasError = false) : (parseAlone line).command.args =
    words (upTo (MAX_ARGS - 1) (items Redirection.ofToken (fetches (some line)).list)) :=
  (parseAlone_outcome line).args accepted

theorem parseAlone_files (accepted : (parseAlone line).command.hasError = false) (r : Redirection) :
    ((parseAlone line).command.file r).toList.map some =
      names r (upTo (MAX_ARGS - 1) (items Redirection.ofToken (fetches (some line)).list)) := by
  have files := (parseAlone_outcome line).files accepted r
  cases r <;> exact files

theorem parseAlone_stderr (accepted : (parseAlone line).command.hasError = false) : (parseAlone line).stderr =
    if 2 ≤ tokenCount (beyond (MAX_ARGS - 1) (items Redirection.ofToken (fetches (some line)).list)) then [ARGS_EXCEEDED]
    else [] :=
  (parseAlone_outcome line).stderr accepted

end Line

end MyShell.Parser
