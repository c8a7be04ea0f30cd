import MyShell.Parser.Pipeline
import MyShell.Parser.Spacing

/-! # Quotes

`next_token` removes the quotes of a word; `strcmp` then sees a quoted `"<"` as an operator, and the
searches for `'|'` do not look at quotes at all. A line whose quoted characters are marked, so that they
look like letters, shows what the quotes are to mean. -/

namespace MyShell.Parser

/-- A character of a line, and whether it stands in quotes. One that does looks like a letter. -/
structure Marked where
  char : Char
  quoted : Bool
deriving DecidableEq

instance : Glyph Marked where
  plain c := ⟨c, false⟩
  look m := if m.quoted then LETTER else m.char
  look_plain _ := rfl
  plain_look {m} special := by
    obtain ⟨c, _ | _⟩ := m
    · rfl
    · exact absurd rfl special

def Quoting.after (q : Quoting) (s : List Char) : Quoting := s.foldl (fun q c => (q.toggle c).getD q) q

/-- Every quote of the line is closed, a quote of one kind being literal inside the other. -/
def Balanced (line : List Char) : Prop := Quoting.after {} line = {}

instance (line : List Char) : Decidable (Balanced line) := inferInstanceAs (Decidable (_ = _))

/-- The line with its quoted characters marked; the quotes themselves are not. -/
def mark (q : Quoting) : List Char → List Marked
  | [] => []
  | c :: s => ⟨c, q.isOpen && (q.toggle c).isNone⟩ :: mark ((q.toggle c).getD q) s

section Mark

variable {c c' : Char} {s : List Char} {q : Quoting}

@[simp] theorem look_marked (m : Marked) : look m = if m.quoted then LETTER else m.char := rfl

@[simp] theorem toggle_letter (q : Quoting) : q.toggle LETTER = none := by
  simp [Quoting.toggle, LETTER]

theorem toggle_operator (starts : startsOperator c c' = true) (q : Quoting) : q.toggle c = none := by
  simp only [startsOperator, Bool.or_eq_true, Bool.and_eq_true, beq_iff_eq] at starts
  rcases starts with (rfl | rfl) | ⟨rfl, _⟩ <;> rfl

theorem mark_plain (toggled : q.toggle c = none) (s : List Char) : mark q (c :: s) = ⟨c, q.isOpen⟩ :: mark q s := by
  simp [mark, toggled]

theorem mark_quote {q' : Quoting} (toggled : q.toggle c = some q') (s : List Char) :
    mark q (c :: s) = ⟨c, false⟩ :: mark q' s := by
  simp [mark, toggled]

theorem mark_closed (c : Char) (s : List Char) :
    mark {} (c :: s) = ⟨c, false⟩ :: mark ((Quoting.toggle {} c).getD {}) s := rfl

theorem mark_char (q : Quoting) (s : List Char) : (mark q s).map Marked.char = s := by
  induction s generalizing q with
  | nil => rfl
  | cons c s ih => simp [mark, ih]

theorem charAt_mark (closed : q.isOpen = false) (s : List Char) : charAt (mark q s) 0 = charAt s 0 := by
  cases s with
  | nil => rfl
  | cons c s => simp [mark, closed]

theorem startsOperator_mark (closed : q.isOpen = false) (c : Char) (s : List Char) :
    startsOperator c (charAt (mark ((q.toggle c).getD q) s) 0) = startsOperator c (charAt s 0) := by
  by_cases two : c = '2'
  · subst two
    rw [show q.toggle '2' = none from rfl, Option.getD_none, charAt_mark closed]
  · have other : (c == '2') = false := by simpa using two
    simp only [startsOperator, other, Bool.false_and]

theorem mark_visible (visible : ∀ c ∈ s, c ≠ NUL) (q : Quoting) : ∀ m ∈ mark q s, m ≠ nul := by
  rintro m member rfl
  have here : NUL ∈ (mark q s).map Marked.char := List.mem_map_of_mem member
  rw [mark_char] at here
  exact visible NUL here rfl

theorem dropBlanks_mark (s : List Char) : dropBlanks (mark {} s) = mark {} (dropBlanks s) := by
  induction s with
  | nil => rfl
  | cons c s ih =>
    by_cases blank : isBlank c = true
    · rw [mark_plain (toggle_blank blank)]
      simpa [dropBlanks, blank, Quoting.isOpen] using ih
    · rw [mark_closed]
      simp [dropBlanks, blank, mark_closed]

end Mark

/-! ### A call -/

section Call

variable {s : List Char} {q : Quoting}

theorem scanWord_mark (s : List Char) (q : Quoting) :
    (scanWord (mark q s) q).word.map Marked.char = (scanWord s q).word ∧
      (scanWord (mark q s) q).rest = mark (scanWord s q).quoting (scanWord s q).rest ∧
      (scanWord (mark q s) q).quoting = (scanWord s q).quoting := by
  have stay {c : Char} {s : List Char} {q : Quoting}
      (goesOn : ¬ (!q.isOpen && (isBlank (look c) || startsOperator (look c) (charAt s 0))) = true) :
      (!q.isOpen && (isBlank c || startsOperator c (charAt (mark ((q.toggle c).getD q) s) 0))) = false := by
    cases isOpen : q.isOpen with
    | true => simp
    | false =>
      rw [startsOperator_mark isOpen]
      simpa [isOpen] using goesOn
  fun_induction scanWord s q with
  | case1 q => simp [mark, scanWord]
  | case2 c s q stops =>
    obtain ⟨closed, here⟩ : q.isOpen = false ∧ (isBlank c || startsOperator c (charAt s 0)) = true := by
      simpa using stops
    have toggled : q.toggle c = none := by
      rcases Bool.or_eq_true_iff.mp here with blank | operator
      · exact toggle_blank blank
      · exact toggle_operator operator q
    rw [mark_plain toggled, scanWord, charAt_mark closed]
    simp [closed, here]
  | case3 c s q goesOn q' toggled ih =>
    have goesOn' := stay goesOn
    rw [look_char] at toggled
    rw [toggled, Option.getD_some] at goesOn'
    rw [mark_quote toggled, scanWord, look_marked, if_neg Bool.false_ne_true, goesOn', if_neg Bool.false_ne_true,
      toggled]
    exact ih
  | case4 c s q goesOn toggled scanned ih =>
    obtain ⟨word, rest, quoting⟩ := ih
    have goesOn' := stay goesOn
    rw [look_char] at toggled
    rw [toggled, Option.getD_none] at goesOn'
    rw [mark_plain toggled]
    cases isOpen : q.isOpen with
    | true => simp [scanWord, isOpen, word, rest, quoting, scanned]
    | false =>
      rw [scanWord, look_marked, if_neg Bool.false_ne_true, goesOn', if_neg Bool.false_ne_true, toggled]
      simp [word, rest, quoting, scanned]

theorem mark_tail (plain : ∀ c ∈ s.head?, Quoting.toggle {} c = none) : (mark {} s).tail = mark {} s.tail := by
  cases s with
  | nil => rfl
  | cons c s => rw [mark_plain (plain c rfl), List.tail_cons, List.tail_cons]

theorem landAt_mark (op : List Marked) (op' : List Char) {r : List Char} (long : op'.length = op.length)
    (plain : ∀ c ∈ r.head?, Quoting.toggle {} c = none) :
    landAt (op ++ mark {} r) (op.length + 1) = (landAt (op' ++ r) (op.length + 1)).map (mark {}) := by
  cases r with
  | nil =>
    rw [mark, List.append_nil, List.append_nil, landAt, landAt, long, if_neg (Nat.not_succ_le_self _),
      if_neg (Nat.not_succ_le_self _)]
    rfl
  | cons c r =>
    have right : (op' ++ c :: r).drop (op.length + 1) = r := by simp [← long]
    rw [mark_plain (plain c rfl)]
    simp [landAt, right, long]

/-- Two calls that find the same, on the line and on the marked line. -/
def Marks (left : Option (List Char)) (left' : Option (List Marked)) : Prop := left' = left.map (mark {})

theorem mark_operator (r : Redirection) (rest : List Char) :
    mark {} (r.operator ++ rest) = r.operator.map plain ++ mark {} rest := by
  cases r <;> rfl

theorem headToken_mark {c : Char} (s : List Char) (keeps : losesQuote (mark {} (c :: s)) = false) :
    Fetched.Rel Marks (fun _ => True) (fun _ _ x y => x = y.map Marked.char) (headToken (c :: s))
      (headToken (mark {} (c :: s))) := by
  by_cases starts : startsOperator c (charAt s 0) = true
  · obtain ⟨r, rest, same⟩ := operator_of_starts starts
    have behind' : behind (r.operator.map plain ++ mark {} rest) = mark {} rest := by cases r <;> rfl
    have token : headToken (r.operator.map plain ++ mark {} rest) =
        .token (r.operator.map plain) (landAt (r.operator.map plain ++ mark {} rest) (r.operator.length + 1)) := by
      cases r <;> rfl
    rw [same, mark_operator] at keeps ⊢
    rw [losesQuote, behind'] at keeps
    rw [headToken_operator, token]
    have plain : ∀ c ∈ rest.head?, Quoting.toggle {} c = none := by
      cases rest with
      | nil => simp
      | cons d rest =>
        rintro _ ⟨⟩
        simpa [mark_closed] using keeps
    refine .token ?_ ?_
    · have landed := landAt_mark (r.operator.map Glyph.plain) r.operator (by simp) plain
      simpa [Marks] using landed
    · cases r <;> rfl
  · have plain : startsOperator c (charAt s 0) = false := by simpa using starts
    obtain ⟨word, rest, quoting⟩ := scanWord_mark (c :: s) {}
    rw [headToken_word plain, mark_closed, headToken_word (by rwa [← startsOperator_mark (q := {}) rfl c s] at plain),
      ← mark_closed, quoting]
    split
    · exact .unterminated trivial
    · rename_i closed
      rw [rest, Quoting.eq_of_closed closed]
      refine .token (congrArg some (mark_tail fun d member => ?_)) word.symm
      cases same : (scanWord (c :: s) {}).rest with
      | nil =>
        rw [same] at member
        cases member
      | cons d' r =>
        rw [same] at member
        obtain rfl : d' = d := by simpa using member
        rcases scanWord_stops same with blank | operator
        · exact toggle_blank blank
        · exact toggle_operator operator {}

theorem losesQuote_dropBlanks {α : Type} [Glyph α] (s : List α) : losesQuote (dropBlanks s) = losesQuote s := by
  unfold losesQuote
  rw [behind_dropBlanks]

theorem nextAlone_mark {left : Option (List Char)} {left' : Option (List Marked)} (marks : Marks left left')
    (keeps : losesQuote (left'.getD []) = false) :
    Fetched.Rel Marks (fun _ => True) (fun _ _ x y => x = y.map Marked.char) (nextAlone left) (nextAlone left') := by
  obtain rfl := marks
  cases left with
  | none => exact .finished rfl
  | some s =>
    rw [Option.map_some, Option.getD_some, ← losesQuote_dropBlanks, dropBlanks_mark] at keeps
    simp only [nextAlone, Option.map_some]
    rw [dropBlanks_mark]
    cases head : dropBlanks s with
    | nil => exact .finished rfl
    | cons c r =>
      rw [head] at keeps
      rw [if_neg (by simp), if_neg (by simp [mark])]
      exact headToken_mark r keeps

theorem scanWord_quoted {α : Type} [Glyph α] {g : α} {s : List α} (rest : List α) {q : Quoting} (isOpen : q.isOpen = true)
    (closes : q.toggle (look g) = some {}) (inside : ∀ h ∈ s, q.toggle (look h) = none) :
    scanWord (s ++ g :: rest) q = { scanWord rest {} with word := s ++ (scanWord rest {}).word } := by
  induction s with
  | nil => simp [scanWord, isOpen, closes]
  | cons h s ih =>
    obtain ⟨here, later⟩ := List.forall_mem_cons.mp inside
    simp [scanWord, isOpen, here, ih later]

theorem nextAlone_quoted {c : Char} {s rest : List Char} (quote : c = '\'' ∨ c = '"') (inside : c ∉ s)
    (apart : ∀ d ∈ rest.head?, isBlank d = true) :
    nextAlone (some (c :: (s ++ c :: rest))) = .token s (some rest.tail) := by
  obtain ⟨q, opens, isOpen, closes, literal⟩ : ∃ q : Quoting, Quoting.toggle {} c = some q ∧ q.isOpen = true ∧
      q.toggle c = some {} ∧ ∀ d, d ≠ c → q.toggle d = none := by
    rcases quote with rfl | rfl
    · exact ⟨⟨true, false⟩, rfl, rfl, rfl, fun d other => by simp [Quoting.toggle, other]⟩
    · exact ⟨⟨false, true⟩, rfl, rfl, rfl, fun d other => by simp [Quoting.toggle, other]⟩
  have ends : scanWord rest {} = ⟨[], rest, {}⟩ := by
    cases rest with
    | nil => rfl
    | cons d rest => simp [scanWord, apart d rfl, Quoting.isOpen]
  have noOperator (c' : Char) : startsOperator c c' = false := by rcases quote with rfl | rfl <;> rfl
  have visible : dropBlanks (c :: (s ++ c :: rest)) = c :: (s ++ c :: rest) := by
    rcases quote with rfl | rfl <;> rfl
  have word : scanWord (c :: (s ++ c :: rest)) {} = ⟨s, rest, {}⟩ := by
    have blank : isBlank c = false := by rcases quote with rfl | rfl <;> rfl
    have inner : scanWord (s ++ c :: rest) q = _ := scanWord_quoted rest isOpen closes fun d member =>
      literal d fun same => inside (same ▸ member)
    rw [scanWord]
    simp only [look_char, noOperator, blank, opens, inner, ends]
    simp
  have head : dropBlanks ((some (c :: (s ++ c :: rest))).getD []) = c :: (s ++ c :: rest) := visible
  rw [nextAlone_head head (List.cons_ne_nil _ _), headToken_word (noOperator _), word]
  rfl

end Call

/-! ### A command -/

/-- No call of `next_token` on the text loses a quote. -/
def KeepsQuotes (s : List Char) : Prop :=
  ∀ call ∈ (parseAlone (mark {} s)).calls, losesQuote (call.2.getD []) = false

/-- An argument or a file name spells an operator, which it can with quotes only. -/
def SpellsOperator (s : List Char) : Prop :=
  ∃ word ∈ (parseAlone (mark {} s)).command.words, Redirection.ofToken (word.map Marked.char) ≠ none

instance (s : List Char) : Decidable (KeepsQuotes s) := inferInstanceAs (Decidable (∀ _ ∈ _, _ = _))

instance (s : List Char) : Decidable (SpellsOperator s) := inferInstanceAs (Decidable (∃ _ ∈ _, _ ≠ _))

section Command

variable {s : List Char}

theorem map_look_eq {word : List Marked} (noLetter : LETTER ∉ word.map look) : word.map look = word.map Marked.char := by
  refine List.map_congr_left fun m member => ?_
  have other : look m ≠ LETTER := fun same => noLetter (List.mem_map.mpr ⟨m, member, same⟩)
  obtain ⟨c, _ | _⟩ := m
  · rfl
  · exact absurd rfl other

theorem ofToken_look {word : List Marked} {r : Redirection} (operator : Redirection.ofToken (word.map look) = some r) :
    Redirection.ofToken (word.map Marked.char) = some r := by
  rw [← map_look_eq ?_]
  · exact operator
  · unfold Redirection.ofToken at operator
    split_ifs at operator <;> simp only [*] <;> decide

/-- A call that loses no quote finds what it finds on the marked line, and takes it for what it is unless
it spells an operator. -/
theorem mark_follows :
    Follows alone alone (fun _ left' => losesQuote (left'.getD []) = false)
      (fun y => Redirection.ofToken (y.map Marked.char) = none) Marks (fun _ => True)
      (fun _ _ x y => x = y.map Marked.char) where
  next marks keeps := nextAlone_mark marks keeps
  file marks keeps delivered := by
    refine fileRel_of_next (nextAlone_mark marks keeps) ?_ ?_ delivered
    · rintro _ _ _ y r rfl operator
      rw [text_char]
      exact ofToken_look operator
    · rintro _ _ _ y rfl literal _
      rwa [text_char]
  more marks keeps := (nextAlone_mark marks keeps).imp (fun _ => trivial) id fun _ => trivial
  keep _ _ same := same
  state _ := trivial
  operator same operator := by
    rw [text_char, same]
    exact ofToken_look operator
  word same literal _ := by rwa [text_char, same]

theorem parseAlone_literal {α : Type} [Glyph α] (line : List α) :
    ∀ word ∈ (parseAlone line).command.words, Redirection.ofToken (word.map look) = none :=
  Tokenizer.parseLoop_literal alone (fun _ _ => rfl) _ (by simp [Command.words])

theorem Command.words_map {τ τ' : Type} (f : τ → τ') (cmd : Command τ) : (cmd.map f).words = cmd.words.map f := by
  simp [Command.words, Command.map, Option.toList_map]

theorem parseAlone_mark (keeps : KeepsQuotes s) :
    (parseAlone s).command = (parseAlone (mark {} s)).command.map (List.map Marked.char) ↔ ¬ SpellsOperator s := by
  constructor
  · rintro same ⟨word, member, operator⟩
    have here : word.map Marked.char ∈ (parseAlone s).command.words := by
      rw [same, Command.words_map]
      exact List.mem_map_of_mem member
    have literal := parseAlone_literal s _ here
    rw [show List.map look (word.map Marked.char) = word.map Marked.char from List.map_id _] at literal
    exact operator literal
  · intro literal
    have start : Marks (some s) (some (mark {} s)) := rfl
    have agree := mark_follows.parseLoop start .empty keeps fun word member => by
      by_contra operator
      exact literal ⟨word, member, operator⟩
    exact (agree.command.flip.map_eq fun _ _ same => same.symm).symm

theorem charAt_plain (tail : List Char) (p : Nat) : charAt (tail.map plain : List Marked) p = charAt tail p := by
  induction tail generalizing p with
  | nil => rfl
  | cons c tail ih =>
    cases p with
    | zero => rfl
    | succ p => exact ih p

end Command

/-- To `parse_command` quoted characters are literal: it does what it does when they are marked. -/
def CommandLiteral (line tail : List Char) : Prop :=
  (parseCommand (line ++ tail) 0).read =
    (parseCommand (mark {} line ++ tail.map plain) 0).read.map (List.map Marked.char)

theorem commandLiteral_iff {line tail : List Char} (noNul : NUL ∉ line) (closed : Closed tail)
    (keeps : KeepsQuotes line) : CommandLiteral line tail ↔ ¬ SpellsOperator line := by
  have visible := visible_of_noNul noNul
  have closed' : Closed (tail.map plain : List Marked) := by simpa [Closed, charAt_plain] using closed
  rw [CommandLiteral, (parseCommand_closed closed visible).1, (parseCommand_closed closed' (mark_visible visible {})).1]
  exact parseAlone_mark keeps

/-! ### A pipeline -/

/-- What holds of every piece that `parse_command` is run on. -/
def Reached (Q : List Char → Prop) : List (List Char) → Nat → Prop
  | [], _ => True
  | piece :: pieces, count =>
    trim piece = [] ∨ MAX_CMDS ≤ count ∨
      Q (trim piece) ∧ ((parseAlone (trim piece)).command.hasError = true ∨ Reached Q pieces (count + 1))

instance decidableReached {Q : List Char → Prop} [DecidablePred Q] :
    ∀ (pieces : List (List Char)) (count : Nat), Decidable (Reached Q pieces count)
  | [], _ => isTrue trivial
  | piece :: pieces, count =>
    have := decidableReached (Q := Q) pieces (count + 1)
    inferInstanceAs (Decidable (trim piece = [] ∨ MAX_CMDS ≤ count ∨
      Q (trim piece) ∧ ((parseAlone (trim piece)).command.hasError = true ∨ Reached Q pieces (count + 1))))

section Pipeline

variable {line s piece : List Char} {pieces : List (List Char)} {q : Quoting}

theorem after_cons (q : Quoting) (c : Char) (s : List Char) : q.after (c :: s) = ((q.toggle c).getD q).after s := rfl

theorem after_append (q : Quoting) (s r : List Char) : q.after (s ++ r) = (q.after s).after r := List.foldl_append

theorem mark_append (q : Quoting) (s r : List Char) : mark q (s ++ r) = mark q s ++ mark (q.after s) r := by
  induction s generalizing q with
  | nil => rfl
  | cons c s ih => rw [List.cons_append, mark, mark, ih, List.cons_append, after_cons]

theorem toggle_pipe (q : Quoting) : q.toggle '|' = none := rfl

/-- The pieces of a line beside those of the marked line. They are the same up to the first piece that ends
inside quotes, at a quoted `'|'`. -/
inductive Cut : List (List Char) → List (List Marked) → Prop where
  | nil : Cut [] []
  | whole {piece : List Char} {pieces : List (List Char)} {marked : List (List Marked)} (balanced : Balanced piece)
      (rest : Cut pieces marked) : Cut (piece :: pieces) (mark {} piece :: marked)
  | inside {piece : List Char} {longer : List Marked} {pieces : List (List Char)} {marked : List (List Marked)}
      (isOpen : ¬ Balanced piece) (within : mark {} piece <+: longer) : Cut (piece :: pieces) (longer :: marked)

theorem Cut.eq_nil {marked : List (List Marked)} (cut : Cut pieces marked) : pieces = [] ↔ marked = [] := by
  cases cut <;> simp

/-- The first piece of the marked line is at least that of the line, and just that one where its quotes are closed. -/
theorem splitPipes_mark (q : Quoting) (line : List Char) :
    ∃ piece pieces longer marked, splitPipes line = piece :: pieces ∧ splitPipes (mark q line) = longer :: marked ∧
      mark q piece <+: longer ∧ (q.after piece = {} → longer = mark q piece ∧
        (line = piece ∧ pieces = [] ∧ marked = [] ∨
          ∃ rest, line = piece ++ '|' :: rest ∧ pieces = splitPipes rest ∧ marked = splitPipes (mark {} rest))) := by
  induction line generalizing q with
  | nil => exact ⟨[], [], [], [], rfl, rfl, List.prefix_refl _, fun _ => ⟨rfl, .inl ⟨rfl, rfl, rfl⟩⟩⟩
  | cons c line ih =>
    obtain ⟨piece, pieces, longer, marked, split, split', within, closed⟩ := ih ((q.toggle c).getD q)
    unfold splitPipes at split split' ⊢
    rw [mark, List.splitOnP_cons_eq_if_modifyHead, List.splitOnP_cons_eq_if_modifyHead, split, split']
    by_cases pipe : c = '|'
    · subst pipe
      simp only [toggle_pipe, Option.getD_none, Option.isNone_none, Bool.and_true] at split' within closed ⊢
      by_cases isOpen : q.isOpen = true
      · have letter : (LETTER == '|') = false := rfl
        refine ⟨[], piece :: pieces, _, marked, by simp, by simp only [look_marked, isOpen, if_true, letter]; rfl,
          List.nil_prefix, fun same => ?_⟩
        have same : q = {} := same
        simp [same, Quoting.isOpen] at isOpen
      · obtain rfl : q = {} := Quoting.eq_of_closed (by simpa using isOpen)
        refine ⟨[], piece :: pieces, [], longer :: marked, by simp, by simp [Quoting.isOpen], List.nil_prefix, fun _ => ?_⟩
        exact ⟨rfl, .inr ⟨line, rfl, split.symm, split'.symm⟩⟩
    · have other : (look (⟨c, q.isOpen && (q.toggle c).isNone⟩ : Marked) == '|') = false := by
        rw [look_marked]
        split
        · rfl
        · simpa using pipe
      refine ⟨c :: piece, pieces, ⟨c, q.isOpen && (q.toggle c).isNone⟩ :: longer, marked, by simp [pipe], ?_, ?_, fun same => ?_⟩
      · rw [other]
        rfl
      · exact List.cons_prefix_cons.mpr ⟨rfl, within⟩
      · obtain ⟨rfl, ⟨rfl, last⟩ | ⟨rest, rfl, more⟩⟩ := closed same
        · exact ⟨rfl, .inl ⟨rfl, last⟩⟩
        · exact ⟨rfl, .inr ⟨rest, rfl, more⟩⟩

theorem cut_line (balanced : Balanced line) : Cut (splitPipes line) (splitPipes (mark {} line)) := by
  induction long : line.length using Nat.strong_induction_on generalizing line with
  | _ n ih =>
    obtain ⟨piece, pieces, longer, marked, split, split', within, closed⟩ := splitPipes_mark {} line
    rw [split, split']
    by_cases ends : Balanced piece
    · obtain ⟨rfl, ⟨-, rfl, rfl⟩ | ⟨rest, rfl, rfl, rfl⟩⟩ := closed ends
      · exact .whole ends .nil
      · refine .whole ends (ih rest.length (by simp [← long]; omega) ?_ rfl)
        have behind : (Quoting.after {} piece).after ('|' :: rest) = {} := by
          rw [← after_append]
          exact balanced
        rw [ends] at behind
        exact behind
    · exact .inside ends within

theorem after_dropBlanks (s : List Char) : Quoting.after {} (dropBlanks s) = Quoting.after {} s := by
  induction s with
  | nil => rfl
  | cons c s ih =>
    by_cases blank : isBlank c = true
    · simpa [dropBlanks, blank, after_cons, toggle_blank blank] using ih
    · simp [dropBlanks, blank]

theorem rdropWhile_mark (closed : q.after s = {}) :
    (mark q s).rdropWhile (isBlank ∘ look) = mark q (s.rdropWhile (isBlank ∘ look)) := by
  induction s using List.reverseRecOn with
  | nil => rfl
  | append_singleton s c ih =>
    have marked : mark q (s ++ [c]) = mark q s ++ [⟨c, (q.after s).isOpen && ((q.after s).toggle c).isNone⟩] :=
      mark_append q s [c]
    rw [marked]
    by_cases blank : isBlank c = true
    · have closed' : q.after s = {} := by
        simpa [Quoting.after, toggle_blank blank] using closed
      rw [closed', List.rdropWhile_concat_pos _ _ _ (by simpa [Quoting.isOpen] using blank),
        List.rdropWhile_concat_pos _ _ _ (by simpa using blank), ih closed']
    · have visible : isBlank (look (⟨c, (q.after s).isOpen && ((q.after s).toggle c).isNone⟩ : Marked)) = false := by
        rw [look_marked]
        split
        · rfl
        · simpa using blank
      rw [List.rdropWhile_concat_neg _ _ _ (by simpa using visible),
        List.rdropWhile_concat_neg _ _ _ (by simpa using blank), marked]

theorem trim_mark (balanced : Balanced piece) : trim (mark {} piece) = mark {} (trim piece) := by
  unfold trim
  rw [dropBlanks_mark]
  exact rdropWhile_mark ((after_dropBlanks piece).trans balanced)

theorem balanced_trim (piece : List Char) : Balanced (trim piece) ↔ Balanced piece := by
  have blanks : ∀ s : List Char, Quoting.after {} (s.rdropWhile (isBlank ∘ look)) = Quoting.after {} s := by
    intro s
    induction s using List.reverseRecOn with
    | nil => rfl
    | append_singleton s c ih =>
      by_cases blank : isBlank c = true
      · rw [List.rdropWhile_concat_pos _ _ _ (by simpa using blank), ih, after_append]
        simp [Quoting.after, toggle_blank blank]
      · rw [List.rdropWhile_concat_neg _ _ _ (by simpa using blank)]
  rw [Balanced, Balanced, trim, blanks, after_dropBlanks]

theorem trim_ne_nil {α : Type} [Glyph α] {s : List α} {g : α} (member : g ∈ s) (visible : isBlank (look g) = false) :
    trim s ≠ [] := by
  intro nothing
  have front : dropBlanks s ≠ [] := fun blank => by
    have all := List.dropWhile_eq_nil_iff.mp blank g member
    simp [visible] at all
  obtain ⟨first, rest, same⟩ := List.exists_cons_of_ne_nil front
  have head : isBlank (look first) = false := by
    have begins := List.head_dropWhile_not (isBlank ∘ look) front
    unfold dropBlanks at same
    simpa [same] using begins
  have blank := List.rdropWhile_eq_nil_iff.mp nothing first (by rw [same]; exact List.mem_cons_self)
  simp [head] at blank

theorem trim_mark_eq_nil (balanced : Balanced piece) : trim (mark {} piece) = [] ↔ trim piece = [] := by
  rw [trim_mark balanced]
  cases trim piece <;> simp [mark]

/-- The commands up to and with the one that was rejected. -/
def Pipeline.entries {τ : Type} (p : Pipeline τ) : List (Command τ) := p.cmds ++ p.rejected.toList

theorem Pipeline.entries_map {τ τ' : Type} (f : τ → τ') (p : Pipeline τ) :
    (p.map f).entries = p.entries.map (Command.map f) := by
  simp [Pipeline.entries, Pipeline.map, Option.toList_map]

theorem piecesPipeline_cmds {α : Type} [Glyph α] (pieces : List (List α)) (p : Pipeline (List α)) :
    p.cmds <+: (piecesPipeline pieces p).cmds := by
  fun_induction piecesPipeline pieces p with
  | case1 | case2 | case3 | case5 => exact List.prefix_refl _
  | case4 piece pieces p _ room cmd _ ih => exact (List.prefix_append p.cmds [cmd]).trans ih

theorem piecesPipeline_entry {α : Type} [Glyph α] {piece : List α} (pieces : List (List α)) {p : Pipeline (List α)}
    (nonempty : trim piece ≠ []) (room : p.count < MAX_CMDS) :
    p.cmds ++ [(parseCommand (trim piece) 0).read] <+: (piecesPipeline (piece :: pieces) p).entries := by
  rw [piecesPipeline]
  dsimp only
  rw [if_neg nonempty, dif_pos room]
  split
  · exact List.prefix_refl _
  · exact (piecesPipeline_cmds pieces (p.add _ room)).trans (List.prefix_append _ _)

theorem trim_open (isOpen : ¬ Balanced piece) {longer : List Marked} (within : mark {} piece <+: longer) :
    trim piece ≠ [] ∧ trim longer ≠ [] := by
  obtain ⟨c, member, visible⟩ : ∃ c ∈ piece, isBlank c = false := by
    by_contra none
    refine isOpen (?_ : Quoting.after {} piece = {})
    have blanks : dropBlanks piece = [] := List.dropWhile_eq_nil_iff.mpr fun c member => by
      by_contra visible
      exact none ⟨c, member, by simpa using visible⟩
    rw [← after_dropBlanks, blanks]
    rfl
  have marked : ∃ m ∈ mark {} piece, m.char = c := by
    have here : c ∈ (mark {} piece).map Marked.char := by rwa [mark_char]
    exact List.mem_map.mp here
  obtain ⟨⟨_, quoted⟩, inside, rfl⟩ := marked
  refine ⟨trim_ne_nil member visible, trim_ne_nil (within.subset inside) ?_⟩
  cases quoted with
  | true => rfl
  | false => exact visible

theorem piecesPipeline_mark {marked : List (List Marked)} (cut : Cut pieces marked)
    (visible : ∀ piece ∈ pieces, ∀ c ∈ piece, c ≠ NUL) {p : Pipeline (List Marked)}
    (whole : Reached Balanced pieces p.count) (keeps : Reached KeepsQuotes pieces p.count) :
    piecesPipeline pieces (p.map (List.map Marked.char)) = (piecesPipeline marked p).map (List.map Marked.char) ↔
      Reached (¬ SpellsOperator ·) pieces p.count := by
  induction cut generalizing p with
  | nil => exact iff_of_true rfl trivial
  | @inside piece longer pieces marked isOpen within =>
    obtain ⟨empty, empty'⟩ := trim_open isOpen within
    have room : ¬ p.count < MAX_CMDS := fun room => by
      have closed := ((whole.resolve_left empty).resolve_left (Nat.not_le.mpr room)).1
      exact isOpen ((balanced_trim piece).mp closed)
    refine iff_of_true ?_ (.inr (.inl (Nat.not_lt.mp room)))
    rw [piecesPipeline, piecesPipeline, if_neg empty, if_neg empty', dif_neg room,
      dif_neg (by rwa [Pipeline.count_map]), Pipeline.map_fail]
  | @whole piece pieces marked closed cut ih =>
    obtain ⟨here, later⟩ := List.forall_mem_cons.mp visible
    have noNul : ∀ c ∈ trim piece, c ≠ nul := fun c member => here c (trim_subset piece member)
    have read : (parseCommand (trim (mark {} piece)) 0).read = (parseAlone (mark {} (trim piece))).command := by
      rw [trim_mark closed]
      exact parseCommand_alone (mark_visible noNul {})
    by_cases empty : trim piece = []
    · refine iff_of_true ?_ (.inl empty)
      rw [piecesPipeline, piecesPipeline, if_pos empty, if_pos ((trim_mark_eq_nil closed).mpr empty)]
      simp only [cut.eq_nil]
      rfl
    by_cases room : p.count < MAX_CMDS
    · obtain ⟨keepsHere, later'⟩ := (keeps.resolve_left empty).resolve_left (Nat.not_le.mpr room)
      have room' : (p.map (List.map Marked.char)).count < MAX_CMDS := by rwa [Pipeline.count_map]
      by_cases spells : SpellsOperator (trim piece)
      · refine iff_of_false (fun same => ?_) ?_
        · have entry := piecesPipeline_entry pieces empty room'
          have entry' := (piecesPipeline_entry marked (mt (trim_mark_eq_nil closed).mp empty) room).map
            (Command.map (List.map Marked.char))
          rw [same, Pipeline.entries_map, parseCommand_alone noNul] at entry
          rw [read, List.map_append] at entry'
          have both := (List.prefix_of_prefix_length_le entry entry' (by simp [Pipeline.map])).eq_of_length
            (by simp [Pipeline.map])
          exact (parseAlone_mark keepsHere).mp (by simpa [Pipeline.map] using both) spells
        · rintro (nothing | full | ⟨literal, _⟩)
          · exact empty nothing
          · exact Nat.not_le.mpr room full
          · exact literal spells
      · have same := (parseAlone_mark keepsHere).mpr spells
        rw [piecesPipeline, piecesPipeline, if_neg empty, if_neg (mt (trim_mark_eq_nil closed).mp empty),
          dif_pos room, dif_pos room', read, parseCommand_alone noNul, same]
        dsimp only
        by_cases wrong : (parseAlone (mark {} (trim piece))).command.hasError = true
        · refine iff_of_true ?_ (.inr (.inr ⟨spells, .inl (by rw [same]; exact wrong)⟩))
          rw [Command.hasError_map, if_pos wrong, if_pos wrong, Pipeline.map_reject]
        · have accepted : ¬ (parseAlone (trim piece)).command.hasError = true := by
            rw [same]
            exact wrong
          have counted : (p.add (parseAlone (mark {} (trim piece))).command room).count = p.count + 1 := by
            simp [Pipeline.count, Pipeline.add]
          have whole' := ((whole.resolve_left empty).resolve_left (Nat.not_le.mpr room)).2.resolve_left accepted
          have rest := ih later (p := p.add (parseAlone (mark {} (trim piece))).command room) (counted ▸ whole')
            (counted ▸ later'.resolve_left accepted)
          rw [counted, Pipeline.map_add room room'] at rest
          rw [Command.hasError_map, if_neg wrong, if_neg wrong, rest]
          constructor
          · exact fun reached => .inr (.inr ⟨spells, .inr reached⟩)
          · intro reached
            exact ((reached.resolve_left empty).resolve_left (Nat.not_le.mpr room)).2.resolve_left accepted
    · refine iff_of_true ?_ (.inr (.inl (Nat.not_lt.mp room)))
      rw [piecesPipeline, piecesPipeline, if_neg empty, if_neg (mt (trim_mark_eq_nil closed).mp empty),
        dif_neg room, dif_neg (by rwa [Pipeline.count_map]), Pipeline.map_fail]

end Pipeline

/-- To `parse_pipeline` quoted characters are literal. -/
def PipelineLiteral (line tail : List Char) : Prop :=
  (parsePipeline (line ++ tail) 0).read =
    (parsePipeline (mark {} line ++ tail.map plain) 0).read.map (List.map Marked.char)

section Line

variable {line tail : List Char}

theorem pipelineLiteral_iff (noNul : NUL ∉ line) (balanced : Balanced line) (ends : charAt tail 0 = NUL)
    (whole : Reached Balanced (splitPipes line) 0) (confined : Confined (splitPipes line) tail 0)
    (confined' : Confined (splitPipes (mark {} line)) (tail.map plain) 0)
    (keeps : Reached KeepsQuotes (splitPipes line) 0) :
    PipelineLiteral line tail ↔ Reached (¬ SpellsOperator ·) (splitPipes line) 0 := by
  have visible : ∀ c ∈ line, c ≠ nul := visible_of_noNul noNul
  have ends' : charAt (tail.map plain : List Marked) 0 = NUL := by rw [charAt_plain, ends]
  have same := piecesPipeline_mark (cut_line balanced)
    (fun piece member c here => ((splitPipes_visible visible piece member) c here).1) (p := {}) whole keeps
  rw [PipelineLiteral, (parsePipeline_split visible ends).1 confined,
    (parsePipeline_split (mark_visible visible {}) ends').1 confined', splitPipeline, splitPipeline]
  exact same

end Line

/-! ### main -/

inductive Input (τ : Type) where
  | pipeline (p : Pipeline τ)
  | command (cmd : Command τ)

namespace Input

def map {τ τ' : Type} (f : τ → τ') : Input τ → Input τ'
  | pipeline p => pipeline (p.map f)
  | command cmd => command (cmd.map f)

end Input

/-- `main` searches its input for a `'|'` to choose the parser. -/
def parseInput {α : Type} [Glyph α] (b : List α) : Input (List α) :=
  if (readAt b 0).any (look · == '|') then .pipeline (parsePipeline b 0).read else .command (parseCommand b 0).read

/-- To `main` quoted characters are literal. -/
def InputLiteral (line tail : List Char) : Prop :=
  parseInput (line ++ tail) = (parseInput (mark {} line ++ tail.map plain)).map (List.map Marked.char)

section Line

variable {line tail : List Char}

theorem readAt_line {α : Type} [Glyph α] {line tail : List α} (visible : ∀ g ∈ line, g ≠ nul) (ends : charAt tail 0 = NUL) :
    readAt (line ++ tail) 0 = line := takeWhile_visible visible ends

theorem any_pipe {α : Type} [Glyph α] (line : List α) : line.any (look · == '|') = true ↔ plain '|' ∈ line := by
  simp only [List.any_eq_true, beq_iff_eq, plain_pipe, exists_eq_right]

theorem pipe_mem_mark (q : Quoting) : '|' ∈ line ↔ ⟨'|', false⟩ ∈ mark q line ∨ ⟨'|', true⟩ ∈ mark q line := by
  conv_lhs => rw [← mark_char q line]
  simp only [List.mem_map]
  constructor
  · rintro ⟨⟨c, _ | _⟩, member, rfl⟩
    · exact .inl member
    · exact .inr member
  · rintro (member | member)
    · exact ⟨_, member, rfl⟩
    · exact ⟨_, member, rfl⟩

theorem inputLiteral_iff (noNul : NUL ∉ line) (ends : charAt tail 0 = NUL) :
    InputLiteral line tail ↔
      if ⟨'|', false⟩ ∈ mark {} line then PipelineLiteral line tail
      else ⟨'|', true⟩ ∉ mark {} line ∧ CommandLiteral line tail := by
  have visible : ∀ c ∈ line, c ≠ nul := visible_of_noNul noNul
  have ends' : charAt (tail.map plain : List Marked) 0 = NUL := by rw [charAt_plain, ends]
  have pipe : (plain '|' : Char) ∈ line ↔ _ := pipe_mem_mark {}
  unfold InputLiteral parseInput
  rw [readAt_line visible ends, readAt_line (mark_visible visible {}) ends']
  simp only [any_pipe, pipe]
  by_cases unquoted : (⟨'|', false⟩ : Marked) ∈ mark {} line
  · rw [if_pos (.inl unquoted), if_pos (show plain '|' ∈ mark {} line from unquoted), if_pos unquoted]
    simp [Input.map, PipelineLiteral]
  · rw [if_neg (show plain '|' ∉ mark {} line from unquoted), if_neg unquoted]
    by_cases quoted : (⟨'|', true⟩ : Marked) ∈ mark {} line
    · simp [quoted, Input.map]
    · simp [quoted, unquoted, Input.map, CommandLiteral]

/-- Quoted text is literal where no operator swallows a quote, no word spells an operator and no piece that is
parsed ends at a quoted `'|'`. -/
theorem quotes_literal (noNul : NUL ∉ line) (balanced : Balanced line) (closed : Closed tail) :
    (KeepsQuotes line → (CommandLiteral line tail ↔ ¬ SpellsOperator line)) ∧
      (Reached Balanced (splitPipes line) 0 → Confined (splitPipes line) tail 0 →
        Confined (splitPipes (mark {} line)) (tail.map plain) 0 → Reached KeepsQuotes (splitPipes line) 0 →
          (PipelineLiteral line tail ↔ Reached (¬ SpellsOperator ·) (splitPipes line) 0)) ∧
      (InputLiteral line tail ↔
        if ⟨'|', false⟩ ∈ mark {} line then PipelineLiteral line tail
        else ⟨'|', true⟩ ∉ mark {} line ∧ CommandLiteral line tail) :=
  ⟨commandLiteral_iff noNul closed, pipelineLiteral_iff noNul balanced closed.1, inputLiteral_iff noNul closed.1⟩

theorem quotes_literal_grep :
    CommandLiteral "grep 'a  b' \"it's\" < 'in file' | wc '2>x'".toList [NUL, NUL] ∧
      PipelineLiteral "grep 'a  b' \"it's\" < 'in file' | wc '2>x'".toList [NUL, NUL] ∧
        InputLiteral "a | | 'x|y'".toList [NUL, NUL] := by
  obtain ⟨command, pipeline, -⟩ := quotes_literal
    (show NUL ∉ "grep 'a  b' \"it's\" < 'in file' | wc '2>x'".toList by decide) (by decide)
    (show Closed [NUL, NUL] from ⟨rfl, rfl⟩)
  obtain ⟨-, stopped, input⟩ := quotes_literal (show NUL ∉ "a | | 'x|y'".toList by decide) (by decide)
    (show Closed [NUL, NUL] from ⟨rfl, rfl⟩)
  have parsed := (pipeline (by decide +kernel) (by decide +kernel) (by decide +kernel) (by decide +kernel)).mpr
    (by decide +kernel)
  have rejected := (stopped (by decide +kernel) (by decide +kernel) (by decide +kernel) (by decide +kernel)).mpr
    (by decide +kernel)
  refine ⟨(command (by decide +kernel)).mpr (by decide +kernel), parsed, input.mpr ?_⟩
  rwa [if_pos (by decide)]

/-- A quoted `"<"` redirects, and a quoted `'|'` splits the line. -/
theorem quotes_not_literal :
    (¬ ∀ line : List Char, NUL ∉ line → Balanced line → CommandLiteral line []) ∧
      (¬ ∀ line : List Char, NUL ∉ line → Balanced line → PipelineLiteral line []) ∧
        ¬ ∀ line : List Char, NUL ∉ line → Balanced line → InputLiteral line [] := by
  refine ⟨fun literal => ?_, fun literal => ?_, fun literal => ?_⟩
  · have same := congrArg Command.hasError (literal "echo '<'".toList (by decide) (by decide))
    exact absurd same (by decide +kernel)
  · have same := congrArg Pipeline.hasError (literal "echo 'a|b'".toList (by decide) (by decide))
    exact absurd same (by decide +kernel)
  · have same := (inputLiteral_iff (by decide) rfl).mp (literal "echo 'a|b'".toList (by decide) (by decide))
    exact absurd same (by rw [if_neg (by decide)]; exact fun both => absurd both.1 (by decide))

end Line

end MyShell.Parser
