import MyShell.Parser.Quoting
import MyShell.Parser.Tokens

/-! # Lines that are written out

Words and redirections with their texts bare or in quotes, joined by single spaces. `parse_command` finds
in such a line what was written. -/

namespace MyShell.Parser

/-- The characters of which a bare word is made. -/
def Plain (c : Char) : Prop := isBlank c = false ∧ c ≠ '\'' ∧ c ≠ '"' ∧ c ≠ '<' ∧ c ≠ '>'

instance (c : Char) : Decidable (Plain c) := inferInstanceAs (Decidable (_ ∧ _))

/-- How a text is written. -/
inductive Style where
  | bare | single | double
deriving DecidableEq

namespace Style

def Fits (text : CString) : Style → Prop
  | bare => text ≠ [] ∧ ∀ c ∈ text, Plain c
  | single => '\'' ∉ text
  | double => '"' ∉ text

instance (text : CString) : (style : Style) → Decidable (style.Fits text)
  | bare =>
    haveI := List.decidableBAll Plain text
    inferInstanceAs (Decidable (_ ∧ _))
  | single => inferInstanceAs (Decidable (_ ∉ _))
  | double => inferInstanceAs (Decidable (_ ∉ _))

end Style

/-- A word or a file name as it is written. -/
structure Part where
  text : CString
  style : Style
  noNul : NUL ∉ text := by decide
  fits : style.Fits text := by decide
  literal : Redirection.ofToken text = none := by decide

def Part.print (part : Part) : CString :=
  match part.style with
  | .bare => part.text
  | .single => '\'' :: (part.text ++ "'".toList)
  | .double => '"' :: (part.text ++ "\"".toList)

/-- A word, or a redirection with its file name. -/
inductive Phrase where
  | word (part : Part)
  | redirection (r : Redirection) (name : Part)

namespace Phrase

def prints : Phrase → List CString
  | word part => [part.print]
  | redirection r name => [r.operator, name.print]

def item : Phrase → Item CString
  | word part => .word part.text
  | redirection r name => .redirection r (some name.text)

def tokens : Phrase → List CString
  | word part => [part.text]
  | redirection r name => [r.operator, name.text]

def argument : Phrase → Option CString
  | word part => some part.text
  | redirection _ _ => none

def file (r : Redirection) : Phrase → Option CString
  | word _ => none
  | redirection r' name => if r' = r then some name.text else none

end Phrase

def join (parts : List CString) : CString := " ".toList.intercalate parts

def printLine (phrases : List Phrase) : CString := join (phrases.flatMap Phrase.prints)

theorem join_cons (x : CString) (parts : List CString) :
    ∃ rest, join (x :: parts) = x ++ rest ∧ (∀ c ∈ rest.head?, isBlank c = true) ∧ rest.tail = join parts := by
  cases parts with
  | nil => exact ⟨[], by simp [join], nofun, rfl⟩
  | cons y parts =>
    refine ⟨' ' :: join (y :: parts), by simp [join], ?_, rfl⟩
    rintro c ⟨⟩
    rfl

theorem startsOperator_bare {c : Char} {text rest : List Char} (here : Plain c) (bare : ∀ c ∈ text, Plain c)
    (apart : ∀ c ∈ rest.head?, isBlank c = true) : startsOperator c (charAt (text ++ rest) 0) = false := by
  have next : charAt (text ++ rest) 0 ≠ '>' := by
    cases text with
    | nil =>
      cases rest with
      | nil => simp [NUL]
      | cons d rest =>
        rintro rfl
        exact absurd (apart '>' rfl) (by decide)
    | cons d text => exact (bare d List.mem_cons_self).2.2.2.2
  obtain ⟨_, _, _, input, output⟩ := here
  simp [startsOperator, input, output, next]

theorem scanWord_bare {text rest : List Char} (bare : ∀ c ∈ text, Plain c) (apart : ∀ c ∈ rest.head?, isBlank c = true) :
    scanWord (text ++ rest) {} = ⟨text, rest, {}⟩ := by
  induction text with
  | nil =>
    cases rest with
    | nil => rfl
    | cons d rest => exact scanWord_blank rfl (apart d rfl) rest
  | cons c text ih =>
    obtain ⟨here, later⟩ := List.forall_mem_cons.mp bare
    have plain := startsOperator_bare here later apart
    have noQuote : Quoting.toggle {} c = none := by simp [Quoting.toggle, here.2.1, here.2.2.1]
    rw [List.cons_append, scanWord]
    simp only [look_char, here.1, plain, noQuote, ih later]
    simp

theorem nextAlone_plain {text rest : List Char} (nonempty : text ≠ []) (bare : ∀ c ∈ text, Plain c)
    (apart : ∀ c ∈ rest.head?, isBlank c = true) : nextAlone (some (text ++ rest)) = .token text (some rest.tail) := by
  have scanned := scanWord_bare bare apart
  cases text with
  | nil => exact absurd rfl nonempty
  | cons c text =>
    obtain ⟨here, later⟩ := List.forall_mem_cons.mp bare
    have head : dropBlanks (c :: (text ++ rest)) = c :: (text ++ rest) := by
      simp [dropBlanks, here.1]
    rw [List.cons_append, nextAlone_cons head,
      headToken_word (startsOperator_bare here later apart), ← List.cons_append, scanned]
    rfl

theorem nextAlone_part (part : Part) (parts : List CString) :
    nextAlone (some (join (part.print :: parts))) = .token part.text (some (join parts)) := by
  obtain ⟨rest, line, apart, tail⟩ := join_cons part.print parts
  have fits := part.fits
  rw [line, ← tail]
  unfold Part.print
  cases style : part.style with
  | bare =>
    rw [style] at fits
    exact nextAlone_plain fits.1 fits.2 apart
  | single =>
    rw [style] at fits
    have token := nextAlone_quoted (.inl rfl) fits apart
    simpa using token
  | double =>
    rw [style] at fits
    have token := nextAlone_quoted (.inr rfl) fits apart
    simpa using token

theorem nextAlone_printed (r : Redirection) (x : CString) (parts : List CString) :
    nextAlone (some (join (r.operator :: x :: parts))) = .token r.operator (some (join (x :: parts))) := by
  have line : join (r.operator :: x :: parts) = r.operator ++ ' ' :: join (x :: parts) := by simp [join]
  have head : dropBlanks (r.operator ++ ' ' :: join (x :: parts)) = r.operator ++ ' ' :: join (x :: parts) := dropBlanks_operator r _
  rw [line, nextAlone_head (show dropBlanks ((some _).getD []) = _ from head) (by cases r <;> simp [Redirection.operator]),
    headToken_operator]
  simp [landAt]

theorem fetches_printLine (phrases : List Phrase) :
    fetches (some (printLine phrases)) = ⟨phrases.flatMap Phrase.tokens, .finished⟩ := by
  induction phrases with
  | nil => exact fetches_nil
  | cons phrase phrases ih =>
    unfold printLine at ih ⊢
    rw [List.flatMap_cons, List.flatMap_cons]
    cases phrase with
    | word part =>
      rw [Phrase.prints, List.singleton_append, fetches_token (nextAlone_part part _), ih]
      rfl
    | redirection r name =>
      rw [Phrase.prints, List.cons_append, List.singleton_append, fetches_token (nextAlone_printed r name.print _),
        fetches_token (nextAlone_part name _), ih]
      rfl

theorem items_tokens (phrases : List Phrase) :
    items Redirection.ofToken (phrases.flatMap Phrase.tokens) = phrases.map Phrase.item := by
  induction phrases with
  | nil => rfl
  | cons phrase phrases ih =>
    rw [List.flatMap_cons, List.map_cons, ← ih]
    cases phrase with
    | word part => exact items_word part.literal
    | redirection r name => exact items_file (by cases r <;> decide) name.literal

theorem words_items (phrases : List Phrase) : words (phrases.map Phrase.item) = phrases.filterMap Phrase.argument := by
  induction phrases with
  | nil => rfl
  | cons phrase phrases ih =>
    cases phrase with
    | word part => simp [Phrase.item, Phrase.argument, words, ih]
    | redirection r name => simp [List.filterMap_cons, Phrase.item, Phrase.argument, words, ih]

theorem names_items (r : Redirection) (phrases : List Phrase) :
    names r (phrases.map Phrase.item) = (phrases.filterMap (Phrase.file r)).map some := by
  induction phrases with
  | nil => rfl
  | cons phrase phrases ih =>
    cases phrase with
    | word part => simp [List.filterMap_cons, Phrase.item, Phrase.file, names, ih]
    | redirection r' name =>
      by_cases this : r' = r
      · simp [Phrase.item, Phrase.file, names, this, ih]
      · simp [Phrase.item, Phrase.file, names, this, ih]

theorem noNul_print (part : Part) : NUL ∉ part.print := by
  have noNul := part.noNul
  unfold Part.print
  cases part.style with
  | bare => exact noNul
  | single => simpa using ⟨by decide, noNul, by decide⟩
  | double => simpa using ⟨by decide, noNul, by decide⟩

theorem noNul_join {parts : List CString} (noNul : ∀ part ∈ parts, NUL ∉ part) : NUL ∉ join parts := by
  induction parts with
  | nil => exact List.not_mem_nil
  | cons part parts ih =>
    obtain ⟨here, later⟩ := List.forall_mem_cons.mp noNul
    cases parts with
    | nil => simpa [join] using here
    | cons next parts =>
      have line : join (part :: next :: parts) = part ++ ' ' :: join (next :: parts) := by simp [join]
      rw [line, List.mem_append, List.mem_cons]
      rintro (inside | space | inside)
      · exact here inside
      · exact absurd space (by decide)
      · exact ih later inside

theorem noNul_printLine (phrases : List Phrase) : NUL ∉ printLine phrases := by
  refine noNul_join fun part member => ?_
  obtain ⟨phrase, _, printed⟩ := List.mem_flatMap.mp member
  cases phrase with
  | word part' =>
    obtain rfl : part = part'.print := by simpa [Phrase.prints] using printed
    exact noNul_print part'
  | redirection r name =>
    rcases List.mem_pair.mp printed with rfl | rfl
    · cases r <;> decide
    · exact noNul_print name

theorem Tokenizer.parseLoop_command {σ τ : Type} (t : Tokenizer σ τ) (s : σ) {cmd : Command τ}
    (first : cmd.command = cmd.args.head?) : (t.parseLoop s cmd).command.command = (t.parseLoop s cmd).command.args.head? := by
  fun_induction t.parseLoop s cmd with
  | case1 | case3 | case4 => exact first
  | case2 | case7 =>
    rw [Parsed.after, finish_command]
    exact first
  | case5 s cmd token s₁ _ _ r _ unset s₂ file found ih => exact ih (by simpa using first)
  | case6 s cmd token s₁ _ room plain ih =>
    refine ih ?_
    change some (cmd.command.getD token) = (cmd.args ++ [token]).head?
    rw [first, List.head?_append]
    cases cmd.args.head? <;> rfl

/-- `parse_command` undoes `printLine`. -/
theorem parseCommand_printLine {phrases : List Phrase} (few : (phrases.filterMap Phrase.argument).length ≤ MAX_ARGS - 2)
    (once : ∀ r, (phrases.filterMap (Phrase.file r)).length ≤ 1) (front : List Char) {tail : List Char}
    (ends : charAt tail 0 = NUL) :
    let cmd := (parseCommand (front ++ (printLine phrases ++ tail)) front.length).read
    cmd.hasError = false ∧ cmd.args = phrases.filterMap Phrase.argument ∧ cmd.command = cmd.args.head? ∧
      ∀ r, cmd.file r = (phrases.filterMap (Phrase.file r)).head? := by
  have found := fetches_printLine phrases
  have ending : (fetches (some (printLine phrases))).ending ≠ .past := by
    rw [found]
    exact nofun
  have inside := calls_inside ending
  rw [(parseCommand_inside front (noNul_printLine phrases) ends inside).1]
  have is : items Redirection.ofToken (fetches (some (printLine phrases))).list = phrases.map Phrase.item := by
    rw [found, items_tokens]
  have all : beyond (MAX_ARGS - 1) (phrases.map Phrase.item) = [] := by
    by_contra more
    have many := words_full more
    rw [words_items] at many
    exact absurd (Nat.le_trans many few) (by decide)
  have unset (r : Redirection) : Command.file ({} : Command CString) r = none := by cases r <;> rfl
  have accepted : (parseAlone (printLine phrases)).command.hasError = false := by
    refine parseAlone_accepts.mpr ⟨?_, fun unterminated => ?_⟩
    · rw [is, upTo_eq_iff.mpr all]
      intro r
      refine ⟨(phrases.filterMap (Phrase.file r)).head?, ?_⟩
      rw [names_items, unset]
      have single := once r
      rcases same : phrases.filterMap (Phrase.file r) with _ | ⟨name, _ | ⟨name', more⟩⟩
      · rfl
      · rfl
      · rw [same] at single
        exact absurd single (by simp)
    · rw [found] at unterminated
      exact nomatch unterminated.1
  have args := parseAlone_args accepted
  rw [is, upTo_eq_iff.mpr all, words_items] at args
  refine ⟨accepted, args, Tokenizer.parseLoop_command alone _ rfl, fun r => ?_⟩
  have file := parseAlone_files accepted r
  rw [is, upTo_eq_iff.mpr all, names_items] at file
  have list : ((parseAlone (printLine phrases)).command.file r).toList = phrases.filterMap (Phrase.file r) :=
    List.map_injective_iff.mpr (Option.some_injective _) file
  rw [← list]
  cases (parseAlone (printLine phrases)).command.file r <;> rfl

theorem parseCommand_printLine_grep :
    let phrases : List Phrase := [.redirection .input { text := "in".toList, style := .bare },
      .word { text := "grep".toList, style := .bare }, .word { text := "it's".toList, style := .double },
      .redirection .error { text := "a b".toList, style := .single }, .word { text := [], style := .single }]
    let cmd := (parseCommand ("ls".toList ++ (printLine phrases ++ [NUL, '>'])) 2).read
    cmd.hasError = false ∧ cmd.args = phrases.filterMap Phrase.argument ∧ cmd.command = cmd.args.head? ∧
      ∀ r, cmd.file r = (phrases.filterMap (Phrase.file r)).head? :=
  parseCommand_printLine (by decide) (by rintro (_ | _ | _) <;> decide) "ls".toList rfl

end MyShell.Parser
