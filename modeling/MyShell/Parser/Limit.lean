import MyShell.Parser.Tokens

/-! # The argument limit

`parse_command` leaves its loop at the token that it fetches behind the 63rd argument, and fetches one
more to see whether arguments are left over. Lines whose operators stand between blanks lose nothing to
`next_token`, so that what is dropped there is dropped at the limit. -/

namespace MyShell.Parser

/-- A word of a line, without its quotes, or an operator that is not quoted. -/
inductive Lexeme where
  | word (text : CString)
  | operator (r : Redirection)
deriving DecidableEq

namespace Lexeme

def text : Lexeme → CString
  | word text => text
  | operator r => r.operator

def operator? : Lexeme → Option Redirection
  | word _ => none
  | operator r => some r

end Lexeme

theorem scanWord_shorter {c : Char} {s : List Char} (visible : isBlank c = false) (plain : startsOperator c (charAt s 0) = false) :
    (scanWord (c :: s) {}).rest.length ≤ s.length := by
  rw [scanWord]
  simp only [look_char, visible, plain, Bool.or_self, Bool.and_false, Bool.false_eq_true, if_false]
  split <;> exact scanWord_length ..

/-- The words and operators of a line, up to a quote that is not closed. -/
def lexemes (s : List Char) : List Lexeme :=
  match _ : dropBlanks s with
  | [] => []
  | c :: s' =>
    if _ : startsOperator c (charAt s' 0) = true then
      if c == '2' then .operator .error :: lexemes s'.tail
      else .operator (if c == '<' then .input else .output) :: lexemes s'
    else if (scanWord (c :: s') {}).quoting.isOpen then []
    else .word (scanWord (c :: s') {}).word :: lexemes (scanWord (c :: s') {}).rest
termination_by s.length
decreasing_by
  all_goals
    have skipped : (dropBlanks s).length ≤ s.length := List.length_dropWhile_le ..
    simp only [*, List.length_cons] at skipped
  · simp only [List.length_tail]
    omega
  · omega
  · have shorter := scanWord_shorter (c := c) (dropBlanks_head ‹_›) (Bool.of_not_eq_true ‹_›)
    omega

/-- Every operator that is not quoted stands between blanks, or at the start and before a blank. `apart`
tells whether an operator may stand at the head of the text. -/
def surrounded (q : Quoting) (apart : Bool) : List Char → Bool
  | [] => true
  | c :: s =>
    if q.isOpen || !startsOperator c (charAt s 0) then surrounded ((q.toggle c).getD q) (!q.isOpen && isBlank c) s
    else if c == '2' then apart && isBlank (charAt s 1) && surrounded q false s.tail
    else apart && isBlank (charAt s 0) && surrounded q false s
termination_by s => s.length
decreasing_by
  · exact Nat.lt_succ_self _
  · exact Nat.lt_succ_of_le (by simp)
  · exact Nat.lt_succ_self _

variable {s : List Char} {q : Quoting} {c : Char} {apart : Bool}

@[simp] theorem surrounded_nil (q : Quoting) (apart : Bool) : surrounded q apart [] = true := by rw [surrounded]

theorem surrounded_blank (blank : isBlank c = true) (s : List Char) :
    surrounded {} apart (c :: s) = surrounded {} true s := by
  rw [surrounded]
  simp [startsOperator_blank blank, toggle_blank blank, blank, Quoting.isOpen]

theorem surrounded_dropBlanks (s : List Char) : surrounded {} true (dropBlanks s) = surrounded {} true s := by
  induction s with
  | nil => rfl
  | cons c s ih =>
    by_cases blank : isBlank c = true
    · rw [surrounded_blank blank, ← ih]
      simp [dropBlanks, blank]
    · simp [dropBlanks, blank]

theorem surrounded_plain (plain : startsOperator c (charAt s 0) = false) (q : Quoting) (apart apart' : Bool) :
    surrounded q apart (c :: s) = surrounded q apart' (c :: s) := by
  rw [surrounded, surrounded, plain]
  simp

theorem surrounded_next (fine : surrounded q apart (c :: s) = true)
    (goesOn : ¬ (!q.isOpen && (isBlank (look c) || startsOperator (look c) (charAt s 0))) = true) :
    surrounded ((q.toggle c).getD q) false s = true := by
  have ⟨plain, visible⟩ : (q.isOpen || !startsOperator c (charAt s 0)) = true ∧ (!q.isOpen && isBlank c) = false := by
    rw [look_char] at goesOn
    cases isOpen : q.isOpen with
    | true => simp
    | false => simpa [isOpen, and_comm] using goesOn
  rwa [surrounded, if_pos plain, visible] at fine

theorem scanWord_surrounded (fine : surrounded q false s = true) :
    (scanWord s q).rest = [] ∨
      ∃ c rest, (scanWord s q).rest = c :: rest ∧ isBlank c = true ∧ surrounded {} true rest = true := by
  fun_induction scanWord s q with
  | case1 => exact .inl rfl
  | case2 c s q stops =>
    simp only [look_char, Bool.and_eq_true, Bool.not_eq_true', Bool.or_eq_true] at stops
    obtain ⟨closed, blank | operator⟩ := stops
    · obtain rfl := Quoting.eq_of_closed (q := q) (by simp [closed])
      rw [surrounded_blank blank] at fine
      exact .inr ⟨c, s, rfl, blank, fine⟩
    · rw [surrounded, closed, operator] at fine
      split at fine <;> simp_all
  | case3 c s q goesOn q' toggled ih =>
    rw [look_char] at toggled
    exact ih (by simpa [toggled] using surrounded_next fine goesOn)
  | case4 c s q goesOn toggled scanned ih =>
    rw [look_char] at toggled
    exact ih (by simpa [toggled] using surrounded_next fine goesOn)

theorem lexemes_bare (bare : dropBlanks s = []) : lexemes s = [] := by
  rw [lexemes]
  split
  · rfl
  · simp_all

theorem lexemes_head (head : dropBlanks s = c :: s') : lexemes s =
    if startsOperator c (charAt s' 0) = true then
      if c == '2' then .operator .error :: lexemes s'.tail
      else .operator (if c == '<' then .input else .output) :: lexemes s'
    else if (scanWord (c :: s') {}).quoting.isOpen then []
    else .word (scanWord (c :: s') {}).word :: lexemes (scanWord (c :: s') {}).rest := by
  rw [lexemes]
  split
  · simp_all
  · rename_i c₁ s₁ head₁
    rw [head, List.cons.injEq] at head₁
    obtain ⟨rfl, rfl⟩ := head₁
    split <;> simp_all

theorem lexemes_dropBlanks (s : List Char) : lexemes (dropBlanks s) = lexemes s := by
  cases head : dropBlanks s with
  | nil => rw [lexemes_bare head, lexemes_bare rfl]
  | cons c s' =>
    have idem : dropBlanks (c :: s') = c :: s' := by rw [← head, dropBlanks_idem]
    rw [lexemes_head head, lexemes_head idem]

theorem lexemes_blank (blank : isBlank c = true) (s : List Char) : lexemes (c :: s) = lexemes s := by
  rw [← lexemes_dropBlanks, ← lexemes_dropBlanks s]
  simp [dropBlanks, blank]

theorem lexemes_operator (r : Redirection) (rest : List Char) :
    lexemes (r.operator ++ rest) = .operator r :: lexemes rest := by
  cases r with
  | input => exact (lexemes_head (show dropBlanks ('<' :: rest) = '<' :: rest from rfl)).trans rfl
  | output => exact (lexemes_head (show dropBlanks ('>' :: rest) = '>' :: rest from rfl)).trans rfl
  | error => exact (lexemes_head (show dropBlanks ('2' :: '>' :: rest) = '2' :: '>' :: rest from rfl)).trans rfl

theorem surrounded_operator (r : Redirection) (rest : List Char) :
    surrounded {} true (r.operator ++ rest) = (isBlank (charAt rest 0) && surrounded {} false rest) := by
  cases r <;> simp [Redirection.operator, surrounded, startsOperator, Quoting.isOpen]

theorem nextAlone_surrounded (fine : surrounded {} true s = true) :
    match lexemes s with
    | [] => (∃ s₁, nextAlone (some s) = .finished (some s₁)) ∨ ∃ s₁, nextAlone (some s) = .unterminated s₁
    | x :: xs => ∃ s₁, nextAlone (some s) = .token x.text (some s₁) ∧ lexemes s₁ = xs ∧ surrounded {} true s₁ = true := by
  rw [← surrounded_dropBlanks] at fine
  cases head : dropBlanks s with
  | nil =>
    rw [lexemes_bare head]
    exact .inl ⟨[], if_pos head⟩
  | cons c s' =>
    rw [head] at fine
    rw [nextAlone_cons head, ← lexemes_dropBlanks, head]
    by_cases starts : startsOperator c (charAt s' 0) = true
    · obtain ⟨r, rest, same⟩ := operator_of_starts starts
      rw [same, surrounded_operator, Bool.and_eq_true] at fine
      obtain ⟨blank, fine⟩ := fine
      rw [same, lexemes_operator, headToken_operator]
      cases rest with
      | nil => exact absurd blank (by simp [isBlank, NUL])
      | cons d rest =>
        rw [charAt_cons_zero, look_char] at blank
        rw [surrounded_blank blank] at fine
        refine ⟨rest, ?_, (lexemes_blank blank rest).symm, fine⟩
        simp [landAt, Lexeme.text]
    · have plain : startsOperator c (charAt s' 0) = false := by simpa using starts
      have visible : isBlank c = false := dropBlanks_head head
      have idem : dropBlanks (c :: s') = c :: s' := by rw [← head, dropBlanks_idem]
      rw [lexemes_head idem, if_neg starts, headToken_word plain]
      by_cases isOpen : (scanWord (c :: s') {}).quoting.isOpen = true
      · rw [if_pos isOpen, if_pos isOpen]
        exact .inr ⟨_, rfl⟩
      · rw [if_neg isOpen, if_neg isOpen]
        rw [surrounded_plain plain {} true false] at fine
        refine ⟨_, rfl, ?_⟩
        rcases scanWord_surrounded fine with last | ⟨d, rest, next, blank, fine⟩
        · rw [last]
          exact ⟨rfl, surrounded_nil ..⟩
        · rw [next, lexemes_blank blank]
          exact ⟨rfl, fine⟩

theorem fetches_surrounded (fine : surrounded {} true s = true) :
    (fetches (some s)).list = (lexemes s).map Lexeme.text ∧ (fetches (some s)).ending ≠ .past := by
  generalize same : lexemes s = xs
  induction xs generalizing s with
  | nil =>
    have fetched := nextAlone_surrounded fine
    rw [same] at fetched
    rcases fetched with ⟨s₁, finished⟩ | ⟨s₁, unterminated⟩
    · rw [fetches_finished finished]
      exact ⟨rfl, nofun⟩
    · rw [fetches_unterminated unterminated]
      exact ⟨rfl, nofun⟩
  | cons x xs ih =>
    have fetched := nextAlone_surrounded fine
    rw [same] at fetched
    obtain ⟨s₁, token, rest, fine⟩ := fetched
    obtain ⟨list, ending⟩ := ih fine rest
    rw [fetches_token token, list]
    exact ⟨rfl, ending⟩

/-! ### Words and redirections -/

/-- What the line says: its words, and its operators with the words behind them. -/
def written (s : List Char) : List (Item Lexeme) := items Lexeme.operator? (lexemes s)

theorem items_text (xs : List Lexeme) (n : Nat)
    (plain : ∀ x ∈ (words (items Lexeme.operator? xs)).take n, Redirection.ofToken x.text = none)
    (named : ∀ r, none ∉ names r (upTo n (items Redirection.ofToken (xs.map Lexeme.text)))) :
    upTo n (items Redirection.ofToken (xs.map Lexeme.text)) = (upTo n (items Lexeme.operator? xs)).map (Item.map Lexeme.text) ∧
      tokenCount (beyond n (items Redirection.ofToken (xs.map Lexeme.text))) = tokenCount (beyond n (items Lexeme.operator? xs)) := by
  have start (xs : List Lexeme) : upTo 0 (items Redirection.ofToken (xs.map Lexeme.text)) =
      (upTo 0 (items Lexeme.operator? xs)).map (Item.map Lexeme.text) ∧
      tokenCount (beyond 0 (items Redirection.ofToken (xs.map Lexeme.text))) =
        tokenCount (beyond 0 (items Lexeme.operator? xs)) := by
    simp [tokenCount_items]
  have operator_eq {x : Lexeme} {r : Redirection} (operator : x.operator? = some r) : x.text = r.operator := by
    cases x <;> cases operator
    rfl
  fun_induction items Lexeme.operator? xs generalizing n with
  | case1 => simp [items, tokenCount]
  | case2 x xs word ih =>
    cases n with
    | zero =>
      have zero := start (x :: xs)
      rwa [items_word word] at zero
    | succ n =>
      rw [words, List.take_succ_cons] at plain
      obtain ⟨here, later⟩ := List.forall_mem_cons.mp plain
      rw [List.map_cons, items_word here] at named ⊢
      obtain ⟨front, back⟩ := ih n later named
      rw [upTo, upTo, front]
      exact ⟨rfl, back⟩
  | case3 x r operator =>
    rw [List.map_cons, List.map_nil, items_missing (operator_eq operator ▸ ofToken_operator r) (by simp)]
    cases n <;> simp [upTo, beyond, Item.map, items, tokenCount]
  | case4 x r operator y ys word ih =>
    cases n with
    | zero =>
      have zero := start (x :: y :: ys)
      rwa [items_file operator word] at zero
    | succ n =>
      have operator := operator_eq operator ▸ ofToken_operator r
      rw [words] at plain
      rw [List.map_cons, List.map_cons] at named ⊢
      by_cases spells : Redirection.ofToken y.text = none
      · rw [items_file operator spells] at named ⊢
        have later : ∀ r', none ∉ names r' (upTo (n + 1) (items Redirection.ofToken (ys.map Lexeme.text))) := fun r' member =>
          named r' (by
            rw [upTo, names]
            split
            · exact List.mem_cons_of_mem _ member
            · exact member)
        obtain ⟨front, back⟩ := ih (n + 1) plain later
        rw [upTo, upTo, front]
        exact ⟨rfl, back⟩
      · rw [items_missing operator (by simpa using spells)] at named
        exact absurd (by simp [upTo, names]) (named r)
  | case5 x r operator y ys other ih =>
    cases n with
    | zero =>
      have zero := start (x :: y :: ys)
      rwa [items_missing operator (by simpa using other)] at zero
    | succ n =>
      obtain ⟨r', operator'⟩ := Option.ne_none_iff_exists'.mp other
      have missing : ∀ z ∈ ((y :: ys).map Lexeme.text).head?, Redirection.ofToken z ≠ none := by
        rintro _ ⟨⟩
        rw [operator_eq operator', ofToken_operator]
        exact Option.some_ne_none r'
      rw [List.map_cons, items_missing (operator_eq operator ▸ ofToken_operator r) missing] at named
      exact absurd (by simp [upTo, names]) (named r)

/-! ### What is dropped -/

/-- The command has all words and redirections of the line, or the first words as far as there is room and
the user is told. -/
def Kept (line : List Char) (cmd : Command (List Char)) (stderr : List CString) : Prop :=
  if (words (written line)).length ≤ MAX_ARGS - 1 then
    cmd.args = (words (written line)).map Lexeme.text ∧
      ∀ r, (cmd.file r).toList.map some = (names r (written line)).map (Option.map Lexeme.text)
  else
    cmd.args = ((words (written line)).take (MAX_ARGS - 1)).map Lexeme.text ∧ cmd.args[MAX_ARGS - 1]? = none ∧
      stderr = [ARGS_EXCEEDED]

/-- No word spells an operator, and what follows the last word that there is room for is nothing, or another
word and at least two tokens. -/
def WithinLimit (line : List Char) : Prop :=
  (∀ x ∈ (words (written line)).take (MAX_ARGS - 1), Redirection.ofToken x.text = none) ∧
    (beyond (MAX_ARGS - 1) (written line) = [] ∨
      (MAX_ARGS - 1 < (words (written line)).length ∧ 2 ≤ tokenCount (beyond (MAX_ARGS - 1) (written line))))

instance (line : List Char) : Decidable (WithinLimit line) := inferInstanceAs (Decidable (_ ∧ (_ ∨ (_ ∧ _))))

variable {line front tail : List Char}

theorem parseAlone_written (fine : surrounded {} true line = true) (accepted : (parseAlone line).command.hasError = false)
    (plain : ∀ x ∈ (words (written line)).take (MAX_ARGS - 1), Redirection.ofToken x.text = none) :
    (parseAlone line).command.args = ((words (written line)).take (MAX_ARGS - 1)).map Lexeme.text ∧
      (∀ r, ((parseAlone line).command.file r).toList.map some =
        (names r (upTo (MAX_ARGS - 1) (written line))).map (Option.map Lexeme.text)) ∧
      (parseAlone line).stderr =
        if 2 ≤ tokenCount (beyond (MAX_ARGS - 1) (written line)) then [ARGS_EXCEEDED] else [] := by
  have list := (fetches_surrounded fine).1
  have complete := (parseAlone_accepts.mp accepted).1
  have args := parseAlone_args accepted
  have files := parseAlone_files accepted
  have stderr := parseAlone_stderr accepted
  rw [list] at complete args stderr
  simp only [list] at files
  have named : ∀ r, none ∉ names r (upTo (MAX_ARGS - 1) (items Redirection.ofToken ((lexemes line).map Lexeme.text))) := by
    intro r member
    obtain ⟨file, same⟩ := complete r
    have listed := List.mem_append_right ((Command.file ({} : Command CString) r).toList.map some) member
    rw [same] at listed
    simp at listed
  obtain ⟨front, back⟩ := items_text (lexemes line) (MAX_ARGS - 1) plain named
  rw [front, words_map, words_upTo] at args
  rw [back] at stderr
  refine ⟨args, fun r => ?_, stderr⟩
  have file := files r
  rwa [front, names_map] at file

theorem beyond_eq_nil {is : List (Item Lexeme)} {n : Nat} (few : (words is).length ≤ n)
    (files : ∀ r, (names r is).length = (names r (upTo n is)).length) : beyond n is = [] := by
  have rest : words (beyond n is) = [] := by rw [words_beyond, List.drop_eq_nil_of_le few]
  cases same : beyond n is with
  | nil => rfl
  | cons item is' =>
    rw [same] at rest
    cases item with
    | word x => exact nomatch rest
    | redirection r name =>
      have split := congrArg (fun is => (names r is).length) (upTo_beyond n is)
      simp only [same, names_append, List.length_append, names, if_true, List.length_cons] at split
      have all := files r
      omega

/-- An accepted line is kept just when it is within the limit. -/
theorem limit_keeps_iff (noNul : NUL ∉ line) (ends : charAt tail 0 = NUL) (fine : surrounded {} true line = true)
    (accepted : (parseCommand (front ++ (line ++ tail)) front.length).read.hasError = false) :
    Kept line (parseCommand (front ++ (line ++ tail)) front.length).read
        (parseCommand (front ++ (line ++ tail)) front.length).stderr ↔ WithinLimit line := by
  obtain ⟨read, stderr⟩ := parseCommand_inside front noNul ends (calls_inside (fetches_surrounded fine).2)
  rw [read] at accepted
  rw [read, stderr]
  have literal : ∀ x ∈ (parseAlone line).command.words, Redirection.ofToken x = none :=
    Tokenizer.parseLoop_literal alone text_char (some line) (by exact nofun)
  constructor
  · intro kept
    have args : (parseAlone line).command.args = ((words (written line)).take (MAX_ARGS - 1)).map Lexeme.text := by
      unfold Kept at kept
      split at kept
      · rw [List.take_of_length_le ‹_›]
        exact kept.1
      · exact kept.1
    have plain : ∀ x ∈ (words (written line)).take (MAX_ARGS - 1), Redirection.ofToken x.text = none := fun x member =>
      literal _ (Command.mem_words.mpr (.inl (args ▸ List.mem_map_of_mem member)))
    obtain ⟨_, files, stderr⟩ := parseAlone_written fine accepted plain
    refine ⟨plain, ?_⟩
    unfold Kept at kept
    split at kept
    · refine .inl (beyond_eq_nil ‹_› fun r => ?_)
      have here := congrArg List.length (files r)
      have said := congrArg List.length (kept.2 r)
      simp only [List.length_map] at here said
      exact said.symm.trans here
    · refine .inr ⟨Nat.lt_of_not_le ‹_›, ?_⟩
      by_contra few
      rw [if_neg few, kept.2.2] at stderr
      exact nomatch stderr
  · rintro ⟨plain, last⟩
    obtain ⟨args, files, stderr⟩ := parseAlone_written fine accepted plain
    unfold Kept
    split
    · rename_i few
      have all : beyond (MAX_ARGS - 1) (written line) = [] := last.resolve_right fun more => Nat.not_le.mpr more.1 few
      rw [upTo_eq_iff.mpr all] at files
      rw [List.take_of_length_le few] at args
      exact ⟨args, files⟩
    · rename_i many
      have told : 2 ≤ tokenCount (beyond (MAX_ARGS - 1) (written line)) := by
        refine (last.resolve_left fun none => many ?_).2
        have nothing := words_beyond (MAX_ARGS - 1) (written line)
        rw [none] at nothing
        exact List.drop_eq_nil_iff.mp nothing.symm
      rw [if_pos told] at stderr
      exact ⟨args, List.getElem?_eq_none (Nat.le_sub_one_of_lt (parseAlone line).command.fits), stderr⟩

theorem limit_keeps_sort :
    Kept "sort -r 'a b' > out".toList (parseCommand ([] ++ ("sort -r 'a b' > out".toList ++ [])) 0).read
        (parseCommand ([] ++ ("sort -r 'a b' > out".toList ++ [])) 0).stderr ↔ WithinLimit "sort -r 'a b' > out".toList :=
  limit_keeps_iff (by decide) rfl (by decide +kernel) (by decide +kernel)

/-- A redirection behind 63 words is dropped. -/
theorem limit_drops : ¬∀ line : List Char, NUL ∉ line → surrounded {} true line = true →
    (parseCommand line 0).read.hasError = false → Kept line (parseCommand line 0).read (parseCommand line 0).stderr := by
  intro keeps
  have kept := keeps ((List.replicate 63 "a ".toList).flatten ++ "> f".toList) (by decide +kernel) (by decide +kernel)
    (by decide +kernel)
  rw [Kept, if_pos (by decide +kernel)] at kept
  exact absurd (kept.2 .output) (by decide +kernel)

end MyShell.Parser
