import MyShell.Parser.Command

/-! # Blanks around operators

`next_token` ends a token by overwriting the character that follows it, and goes on behind that
character. After an operator, and after a word in front of an operator, it is a character of the line
that gets lost. -/

namespace MyShell.Parser

/-- The line with a blank before and after every operator that is not quoted. -/
def spaceOut (q : Quoting) : List Char → List Char
  | [] => []
  | c :: s =>
    if q.isOpen || !startsOperator c (charAt s 0) then c :: spaceOut ((q.toggle c).getD q) s
    else if c == '2' then ' ' :: c :: '>' :: ' ' :: spaceOut q s.tail
    else ' ' :: c :: ' ' :: spaceOut q s
termination_by s => s.length
decreasing_by
  · exact Nat.lt_succ_self _
  · exact Nat.lt_succ_of_le (by simp)
  · exact Nat.lt_succ_self _

/-- A call of `next_token` loses a character: it passes the one that follows its token, which is not a
blank. -/
def loses {α : Type} [Glyph α] (s : List α) : Bool := (behind s).head?.any fun g => !isBlank (look g)

def losesQuote {α : Type} [Glyph α] (s : List α) : Bool :=
  (behind s).head?.any fun g => (Quoting.toggle {} (look g)).isSome

variable {s : List Char} {q : Quoting}

theorem spaceOut_blank {c : Char} (blank : isBlank c = true) (q : Quoting) (s : List Char) :
    spaceOut q (c :: s) = c :: spaceOut q s := by
  simp [spaceOut, startsOperator_blank blank, toggle_blank blank]

theorem dropBlanks_spaceOut (s : List Char) :
    dropBlanks (spaceOut {} s) = dropBlanks (spaceOut {} (dropBlanks s)) := by
  induction s with
  | nil => rfl
  | cons c s ih =>
    by_cases blank : isBlank c = true
    · rw [spaceOut_blank blank]
      simpa [dropBlanks, blank] using ih
    · simp [dropBlanks, blank]

theorem spaceOut_plain {c : Char} (plain : (q.isOpen || !startsOperator c (charAt s 0)) = true) :
    spaceOut q (c :: s) = c :: spaceOut ((q.toggle c).getD q) s := by
  rw [spaceOut, if_pos plain]

theorem spaceOut_operator {c : Char} (operator : startsOperator c (charAt s 0) = true) (closed : q.isOpen = false) :
    ∃ rest, spaceOut q (c :: s) = ' ' :: rest := by
  rw [spaceOut, closed, operator]
  by_cases two : (c == '2') = true <;> simp [two]

theorem startsOperator_spaceOut {c : Char} (plain : startsOperator c (charAt s 0) = false) (q : Quoting) :
    startsOperator c (charAt (spaceOut q s) 0) = false := by
  cases s with
  | nil => simpa [spaceOut] using plain
  | cons c' s =>
    cases stays : q.isOpen || !startsOperator c' (charAt s 0) with
    | true => simpa [spaceOut_plain stays] using plain
    | false =>
      obtain ⟨closed, operator⟩ : q.isOpen = false ∧ startsOperator c' (charAt s 0) = true := by simpa using stays
      obtain ⟨rest, spaced⟩ := spaceOut_operator operator closed
      rw [spaced]
      simp only [startsOperator, Bool.or_eq_false_iff] at plain ⊢
      exact ⟨plain.1, by simp⟩

theorem scanWord_blank {c : Char} (closed : q.isOpen = false) (blank : isBlank c = true) (s : List Char) :
    scanWord (c :: s) q = ⟨[], c :: s, q⟩ := by
  simp [scanWord, closed, blank]

theorem scanWord_spaceOut (s : List Char) (q : Quoting) :
    scanWord (spaceOut q s) q =
      ⟨(scanWord s q).word, spaceOut (scanWord s q).quoting (scanWord s q).rest, (scanWord s q).quoting⟩ := by
  have goesOn' {c : Char} {s : List Char} {q : Quoting}
      (goesOn : ¬ (!q.isOpen && (isBlank (look c) || startsOperator (look c) (charAt s 0))) = true) :
      (q.isOpen || !startsOperator c (charAt s 0)) = true ∧
        ∀ q', (!q.isOpen && (isBlank (look c) || startsOperator (look c) (charAt (spaceOut q' s) 0))) = false := by
    cases isOpen : q.isOpen with
    | true => simp
    | false =>
      simp only [isOpen, look_char, Bool.not_false, Bool.true_and, Bool.or_eq_true, not_or, Bool.not_eq_true] at goesOn
      simp [goesOn.1, goesOn.2, startsOperator_spaceOut goesOn.2]
  fun_induction scanWord s q with
  | case1 q => simp [spaceOut, scanWord]
  | case2 c s q stops =>
    simp only [look_char, Bool.and_eq_true, Bool.not_eq_true', Bool.or_eq_true] at stops
    obtain ⟨closed, blank | operator⟩ := stops
    · rw [spaceOut_blank blank]
      exact scanWord_blank closed blank _
    · obtain ⟨rest, spaced⟩ := spaceOut_operator operator closed
      rw [spaced]
      exact scanWord_blank closed rfl _
  | case3 c s q goesOn q' toggled ih =>
    obtain ⟨plain, stay⟩ := goesOn' goesOn
    rw [spaceOut_plain plain, scanWord, stay, if_neg Bool.false_ne_true]
    rw [look_char] at toggled ⊢
    rw [toggled]
    exact ih
  | case4 c s q goesOn toggled scanned ih =>
    obtain ⟨plain, stay⟩ := goesOn' goesOn
    rw [spaceOut_plain plain, scanWord, stay, if_neg Bool.false_ne_true]
    rw [look_char] at toggled ⊢
    rw [toggled]
    simp only [Option.getD_none, ih]
    rfl

/-! ### A call -/

/-- What is left of the spaced line is, up to blanks at its head, what is left of the line, spaced. -/
def Spaced (left left' : Option (List Char)) : Prop :=
  dropBlanks (left.getD []) = dropBlanks (spaceOut {} (left'.getD []))

variable {left left' : Option (List Char)}

section Operator

variable {c : Char} (r : Redirection) (rest : List Char)

theorem operator_of_starts (starts : startsOperator c (charAt s 0) = true) :
    ∃ (r : Redirection) (rest : List Char), c :: s = r.operator ++ rest := by
  simp only [startsOperator, Bool.or_eq_true, Bool.and_eq_true, beq_iff_eq] at starts
  rcases starts with (rfl | rfl) | ⟨rfl, next⟩
  · exact ⟨.input, s, rfl⟩
  · exact ⟨.output, s, rfl⟩
  · cases s with
    | nil => exact absurd next (by simp [NUL])
    | cons d s =>
      obtain rfl : d = '>' := next
      exact ⟨.error, s, rfl⟩

theorem headToken_operator :
    headToken (r.operator ++ rest) = .token r.operator (landAt (r.operator ++ rest) (r.operator.length + 1)) := by
  cases r <;> rfl

theorem behind_operator : behind (r.operator ++ rest) = rest := by cases r <;> rfl

theorem dropBlanks_operator : dropBlanks (r.operator ++ rest) = r.operator ++ rest := by cases r <;> rfl

theorem spaceOut_redirection : spaceOut {} (r.operator ++ rest) = ' ' :: (r.operator ++ ' ' :: spaceOut {} rest) := by
  cases r <;> simp [Redirection.operator, spaceOut, Quoting.isOpen, startsOperator]

theorem behind_word (visible : isBlank c = false) (plain : startsOperator c (charAt s 0) = false) :
    behind (c :: s) = (scanWord (c :: s) {}).rest := by
  obtain ⟨noOperator, noPair⟩ := Bool.or_eq_false_iff.mp plain
  have trimmed : dropBlanks (c :: s) = c :: s := by simp [dropBlanks, visible]
  simp only [behind, trimmed, charAt_cons_zero, charAt_cons_succ, look_char, noOperator, noPair, Bool.false_eq_true,
    if_false]

end Operator

theorem spaceOut_rest (s : List Char) :
    ∀ c ∈ (spaceOut (scanWord s {}).quoting (scanWord s {}).rest).head?, isBlank c = true := by
  intro c member
  by_cases isOpen : (scanWord s {}).quoting.isOpen = true
  · rw [scanWord_open isOpen, spaceOut] at member
    cases member
  · cases same : (scanWord s {}).rest with
    | nil =>
      rw [same, spaceOut] at member
      cases member
    | cons d r =>
      rw [same] at member
      rcases scanWord_stops same with blank | operator
      · rw [spaceOut_blank blank] at member
        obtain rfl : d = c := by simpa using member
        exact blank
      · obtain ⟨rest, spaced⟩ := spaceOut_operator operator (by simpa using isOpen)
        rw [spaced] at member
        obtain rfl : ' ' = c := by simpa using member
        rfl

theorem dropBlanks_tail (blank : ∀ c ∈ s.head?, isBlank c = true) : dropBlanks s.tail = dropBlanks s := by
  cases s with
  | nil => rfl
  | cons c s =>
    have head : isBlank c = true := blank c rfl
    simp [dropBlanks, head]

theorem loses_dropBlanks {α : Type} [Glyph α] (s : List α) : loses (dropBlanks s) = loses s := by
  unfold loses
  rw [behind_dropBlanks]

theorem loses_eq_false : loses s = false ↔ ∀ c ∈ (behind s).head?, isBlank c = true := by
  simp [loses, Option.any_eq_false]

theorem headToken_spaceOut {c : Char} (visible : isBlank c = false) :
    ∃ head, dropBlanks (spaceOut {} (c :: s)) = head ∧ head ≠ [] ∧ loses head = false ∧
      Fetched.Rel (fun left left' => dropBlanks (left.getD []) = dropBlanks (spaceOut {} (behind (c :: s))) ∧
          left'.getD [] = (behind (c :: s)).tail)
        (fun left => left.getD [] = []) (fun _ _ x y => x = y) (headToken head) (headToken (c :: s)) := by
  by_cases starts : startsOperator c (charAt s 0) = true
  · obtain ⟨r, rest, same⟩ := operator_of_starts starts
    rw [same, spaceOut_redirection, behind_operator, headToken_operator]
    refine ⟨r.operator ++ ' ' :: spaceOut {} rest, dropBlanks_operator r _, by cases r <;> simp [Redirection.operator], ?_, ?_⟩
    · rw [loses, behind_operator]
      rfl
    · rw [headToken_operator]
      exact .token ⟨by rw [landAt_getD, List.tail_cons], landAt_getD ..⟩ rfl
  · have plain : startsOperator c (charAt s 0) = false := by simpa using starts
    have spaced : spaceOut {} (c :: s) = c :: spaceOut ((Quoting.toggle {} c).getD {}) s :=
      spaceOut_plain (by simp [plain])
    have plain' := startsOperator_spaceOut plain ((Quoting.toggle {} c).getD {})
    have rest := scanWord_spaceOut (c :: s) {}
    rw [spaced] at rest
    refine ⟨_, by rw [spaced, dropBlanks, List.dropWhile_cons_of_neg (by simpa using visible)], List.cons_ne_nil _ _, ?_, ?_⟩
    · rw [loses_eq_false, behind_word visible plain', rest]
      exact spaceOut_rest (c :: s)
    · rw [headToken_word plain', headToken_word plain, behind_word visible plain, rest]
      dsimp only
      split
      · rename_i isOpen
        refine .unterminated ?_
        rw [scanWord_open isOpen, Option.getD_some, spaceOut]
      · rename_i closed
        refine .token ⟨?_, rfl⟩ rfl
        rw [Option.getD_some, dropBlanks_tail (spaceOut_rest (c :: s)), Quoting.eq_of_closed closed]

theorem dropBlanks_spaceOut_tail (blank : ∀ c ∈ s.head?, isBlank c = true) :
    dropBlanks (spaceOut {} s.tail) = dropBlanks (spaceOut {} s) := by
  cases s with
  | nil => rfl
  | cons c s =>
    have head : isBlank c = true := blank c rfl
    rw [spaceOut_blank head]
    simp [dropBlanks, head]

theorem nextAlone_spaceOut (spaced : Spaced left left') (apart : loses (left'.getD []) = false) :
    Fetched.Rel Spaced (fun _ => True) (fun _ _ x y => x = y) (nextAlone left) (nextAlone left') := by
  unfold Spaced at spaced
  rw [dropBlanks_spaceOut] at spaced
  rw [← loses_dropBlanks, loses_eq_false] at apart
  cases head : dropBlanks (left'.getD []) with
  | nil =>
    obtain ⟨left₁', fetched', bare'⟩ := nextAlone_bare head
    rw [head] at spaced
    obtain ⟨left₁, fetched, bare⟩ := nextAlone_bare (spaced.trans (by simp [spaceOut, dropBlanks]))
    rw [fetched, fetched']
    exact .finished (by simp [Spaced, bare, bare', spaceOut])
  | cons c s =>
    have visible : isBlank c = false := dropBlanks_head head
    obtain ⟨head', same, nonempty, _, related⟩ := headToken_spaceOut (s := s) visible
    rw [head] at apart spaced
    rw [nextAlone_head (spaced.trans same) nonempty, nextAlone_head head (List.cons_ne_nil c s)]
    refine related.imp ?_ (fun _ => trivial) id
    rintro left₁ left₁' ⟨rest, rest'⟩
    rw [Spaced, rest, rest', dropBlanks_spaceOut_tail apart]

theorem nextAlone_apart (spaced : ∃ left', Spaced left left') :
    loses (left.getD []) = false ∧ ∃ left', Spaced (nextAlone left).state left' := by
  obtain ⟨left', spaced⟩ := spaced
  unfold Spaced at spaced
  rw [dropBlanks_spaceOut] at spaced
  rw [← loses_dropBlanks, spaced]
  cases head : dropBlanks (left'.getD []) with
  | nil =>
    rw [head, spaceOut] at spaced
    obtain ⟨left₁, fetched, bare⟩ := nextAlone_bare spaced
    rw [fetched]
    exact ⟨by rw [spaceOut]; rfl, none, by simp [Spaced, Fetched.state, bare, spaceOut]⟩
  | cons c s =>
    have visible : isBlank c = false := dropBlanks_head head
    obtain ⟨head', same, nonempty, apart, related⟩ := headToken_spaceOut (s := s) visible
    rw [head, same] at spaced
    rw [same, nextAlone_head spaced nonempty]
    refine ⟨apart, ?_⟩
    generalize headToken head' = fetched at related ⊢
    generalize headToken (c :: s) = fetched' at related
    cases related with
    | token rest => exact ⟨some (behind (c :: s)), rest.1⟩
    | finished rest => exact ⟨some (behind (c :: s)), rest.1⟩
    | unterminated bare => exact ⟨none, by simp [Spaced, Fetched.state, bare, spaceOut]⟩

/-! ### What is lost -/

/-- The characters that are neither blanks nor quotes. Wherever they stand, a token holds them. -/
def solid (s : List Char) : Nat := s.countP fun c => !isBlank c && (Quoting.toggle {} c).isNone

def Command.delivered (cmd : Command (List Char)) : Nat :=
  let file (r : Redirection) := (cmd.file r).elim 0 fun name => solid r.operator + solid name
  (cmd.args.map solid).sum + file .input + file .error + file .output

/-- The characters of that kind that the calls lost. -/
def lost (calls : List (Asked × Option (List Char))) : Nat :=
  (calls.map fun call => solid ((behind (call.2.getD [])).take 1)).sum

section Lost

variable {cmd : Command (List Char)} {x : List Char} {r : Redirection} {left₁ : Option (List Char)}

theorem solid_append (s r : List Char) : solid (s ++ r) = solid s + solid r := List.countP_append

theorem solid_cons (c : Char) (s : List Char) : solid (c :: s) = solid [c] + solid s := solid_append [c] s

theorem solid_blank {c : Char} (blank : isBlank c = true) (s : List Char) : solid (c :: s) = solid s := by
  simp [solid, blank]

theorem solid_quote {c : Char} {q q' : Quoting} (toggled : q.toggle c = some q') : solid [c] = 0 := by
  have quote : c = '\'' ∨ c = '"' := by
    unfold Quoting.toggle at toggled
    split_ifs at toggled with single double
    · exact .inl (by simpa using (Bool.and_eq_true_iff.mp single).1)
    · exact .inr (by simpa using (Bool.and_eq_true_iff.mp double).1)
  rcases quote with rfl | rfl <;> rfl

theorem solid_dropBlanks (s : List Char) : solid (dropBlanks s) = solid s := by
  induction s with
  | nil => rfl
  | cons c s ih =>
    by_cases blank : isBlank c = true
    · rw [solid_blank blank, ← ih]
      simp [dropBlanks, blank]
    · simp [dropBlanks, blank]

theorem solid_scanWord (s : List Char) (q : Quoting) :
    solid s = solid (scanWord s q).word + solid (scanWord s q).rest := by
  fun_induction scanWord s q with
  | case1 => rfl
  | case2 c s q stops => simp [solid]
  | case3 c s q goesOn q' toggled ih =>
    rw [look_char] at toggled
    rw [solid_cons, solid_quote toggled, ih, Nat.zero_add]
  | case4 c s q goesOn plain scanned ih =>
    dsimp only
    rw [solid_cons c s, ih, solid_cons c scanned.word, Nat.add_assoc]

theorem solid_spaceOut (q : Quoting) (s : List Char) : solid (spaceOut q s) = solid s := by
  fun_induction spaceOut q s with
  | case1 => rfl
  | case2 q c s plain ih => rw [solid_cons, ih, ← solid_cons]
  | case3 q c s operator two ih =>
    obtain ⟨rest, rfl⟩ : ∃ rest, s = '>' :: rest := by
      cases s with
      | nil => simp_all [startsOperator, NUL]
      | cons d rest =>
        have next : d = '>' := by simp_all [startsOperator]
        exact ⟨rest, by rw [next]⟩
    rw [solid_blank (c := ' ') rfl, solid_cons c, solid_cons '>', solid_blank (c := ' ') rfl, ih, List.tail_cons,
      ← solid_cons '>', ← solid_cons c]
  | case4 q c s operator two ih =>
    rw [solid_blank (c := ' ') rfl, solid_cons c, solid_blank (c := ' ') rfl, ih, ← solid_cons c]

theorem nextAlone_token (fetched : nextAlone left = .token x left₁) :
    solid (left.getD []) = solid x + solid (behind (left.getD [])) ∧ left₁.getD [] = (behind (left.getD [])).tail := by
  rw [← solid_dropBlanks, ← behind_dropBlanks]
  cases head : dropBlanks (left.getD []) with
  | nil =>
    obtain ⟨left₁, finished, _⟩ := nextAlone_bare head
    rw [finished] at fetched
    cases fetched
  | cons c s =>
    rw [nextAlone_head head (List.cons_ne_nil c s)] at fetched
    by_cases starts : startsOperator c (charAt s 0) = true
    · obtain ⟨r, rest, same⟩ := operator_of_starts starts
      rw [same, headToken_operator] at fetched
      cases fetched
      rw [same, behind_operator, solid_append]
      exact ⟨rfl, landAt_getD ..⟩
    · have plain : startsOperator c (charAt s 0) = false := by simpa using starts
      have visible : isBlank c = false := dropBlanks_head head
      rw [headToken_word plain] at fetched
      rw [behind_word visible plain]
      split at fetched
      · cases fetched
      · cases fetched
        exact ⟨solid_scanWord (c :: s) {}, rfl⟩

theorem delivered_addArg (room : cmd.args.length < MAX_ARGS - 1) :
    (cmd.addArg x room).delivered = cmd.delivered + solid x := by
  have args : (cmd.addArg x room).args = cmd.args ++ [x] := rfl
  simp only [Command.delivered, Command.file_addArg, args, List.map_append, List.sum_append, List.map_cons,
    List.map_nil, List.sum_cons, List.sum_nil]
  omega

theorem delivered_setFile (unset : cmd.file r = none) :
    (cmd.setFile r x).delivered = cmd.delivered + solid r.operator + solid x := by
  cases r <;> simp [Command.delivered, Command.file_setFile, unset] <;> omega

theorem lost_cons (call : Asked × Option (List Char)) (calls : List (Asked × Option (List Char))) :
    lost (call :: calls) = solid ((behind (call.2.getD [])).take 1) + lost calls := by
  simp [lost]

theorem nextAlone_solid (fetched : nextAlone left = .token x left₁) :
    solid (left.getD []) = solid x + solid ((behind (left.getD [])).take 1) + solid (left₁.getD []) := by
  obtain ⟨here, rest⟩ := nextAlone_token fetched
  have split := solid_append ((behind (left.getD [])).take 1) ((behind (left.getD [])).drop 1)
  rw [List.take_append_drop, List.drop_one] at split
  rw [here, rest, split, Nat.add_assoc]

theorem text_char (left : Option (List Char)) (word : List Char) : alone.text left word = word := List.map_id word

/-- An accepted line with fewer arguments than the limit is delivered but for what its calls lose. -/
theorem parseLoop_delivered (accepted : (alone.parseLoop left cmd).command.hasError = false)
    (few : (alone.parseLoop left cmd).command.args.length < MAX_ARGS - 1) :
    (alone.parseLoop left cmd).command.delivered + lost (alone.parseLoop left cmd).calls =
      cmd.delivered + solid (left.getD []) := by
  fun_induction alone.parseLoop left cmd with
  | case1 | case3 | case4 => cases accepted
  | case2 left cmd left₁ fetched =>
    rw [Parsed.after, Tokenizer.finish_command] at few
    have bare := nextAlone_finished fetched
    have nothing : solid (left.getD []) = 0 := by
      rw [← solid_dropBlanks, bare]
      rfl
    have last : behind (left.getD []) = [] := by
      rw [← behind_dropBlanks, bare]
      rfl
    rw [Tokenizer.finish, if_neg (Nat.not_le.mpr few)]
    simp [Parsed.after, lost, last, nothing, show solid [] = 0 from rfl]
  | case5 left cmd y left₁ fetched room r operator unset left₂ name found ih =>
    have token := nextAlone_solid fetched
    have file := nextAlone_solid (Tokenizer.nextFile_token found)
    have rest := ih accepted few
    obtain rfl : y = r.operator := by rw [← Redirection.eq_operator operator, text_char]
    rw [delivered_setFile unset] at rest
    simp only [Parsed.after, lost_cons]
    omega
  | case6 left cmd y left₁ fetched room plain ih =>
    have token := nextAlone_solid fetched
    have rest := ih accepted few
    rw [delivered_addArg] at rest
    simp only [Parsed.after, lost_cons]
    omega
  | case7 left cmd y left₁ fetched full =>
    rw [Parsed.after, Tokenizer.finish_command] at few
    exact absurd few full

theorem lost_eq_zero {calls : List (Asked × Option (List Char))} :
    lost calls = 0 ↔ ∀ call ∈ calls, solid ((behind (call.2.getD [])).take 1) = 0 := by
  simp only [lost, List.sum_eq_zero_iff_forall_eq_nat, List.forall_mem_map]

theorem lost_of_apart {calls : List (Asked × Option (List Char))}
    (apart : ∀ call ∈ calls, loses (call.2.getD []) = false) : lost calls = 0 := by
  refine lost_eq_zero.mpr fun call member => ?_
  have blank := loses_eq_false.mp (apart call member)
  cases same : behind (call.2.getD []) with
  | nil => rfl
  | cons c rest =>
    rw [same] at blank
    exact solid_blank (blank c rfl) []

theorem losesQuote_of_lost {calls : List (Asked × Option (List Char))} (nothing : lost calls = 0) :
    ∀ call ∈ calls, loses (call.2.getD []) = true → losesQuote (call.2.getD []) = true := by
  intro call member passed
  have here := lost_eq_zero.mp nothing call member
  unfold loses losesQuote at *
  cases same : behind (call.2.getD []) with
  | nil =>
    rw [same] at passed
    cases passed
  | cons c rest =>
    rw [same] at passed here
    have visible : isBlank c = false := by simpa using passed
    simpa [solid, visible, Option.isSome_iff_ne_none] using here

theorem spaceOut_apart (line : List Char) :
    ∀ call ∈ (parseAlone (spaceOut {} line)).calls, loses (call.2.getD []) = false := by
  have start : ∃ left', Spaced (some (spaceOut {} line)) left' := ⟨some line, rfl⟩
  have kept (left : Option (List Char)) (spaced : ∃ left', Spaced left left') :
      ∃ left', Spaced (alone.next left).state left' := (nextAlone_apart spaced).2
  intro call member
  exact (nextAlone_apart (Tokenizer.parseLoop_calls kept start call member)).1

end Lost

/-! ### A line -/

theorem spaceOut_follows :
    Follows alone alone (fun _ left' => loses (left'.getD []) = false) (fun _ => True) Spaced (fun _ => True)
      (fun _ _ x y => x = y) where
  next spaced apart := nextAlone_spaceOut spaced apart
  file spaced apart delivered := by
    refine fileRel_of_next (nextAlone_spaceOut spaced apart) ?_ ?_ delivered
    · rintro _ _ x _ r rfl found
      exact found
    · rintro _ _ x _ rfl _ found
      exact found
  more spaced apart := (nextAlone_spaceOut spaced apart).imp (fun _ => trivial) id fun _ => trivial
  keep _ _ same := same
  state _ := trivial
  operator same found := by rwa [same]
  word same _ found := by rwa [same]

theorem spaceOut_visible {line : List Char} (visible : ∀ c ∈ line, c ≠ NUL) (q : Quoting) :
    ∀ c ∈ spaceOut q line, c ≠ NUL := by
  fun_induction spaceOut q line with
  | case1 => exact visible
  | case2 q c s plain ih =>
    obtain ⟨here, later⟩ := List.forall_mem_cons.mp visible
    exact List.forall_mem_cons.mpr ⟨here, ih later⟩
  | case3 q c s operator two ih =>
    obtain ⟨here, later⟩ := List.forall_mem_cons.mp visible
    have rest := ih fun c member => later c (List.mem_of_mem_tail member)
    simp only [List.forall_mem_cons]
    exact ⟨by decide, here, by decide, by decide, rest⟩
  | case4 q c s operator two ih =>
    obtain ⟨here, later⟩ := List.forall_mem_cons.mp visible
    simp only [List.forall_mem_cons]
    exact ⟨by decide, here, by decide, ih later⟩

/-- Two commands are the same but for the text of an error. -/
def Command.Alike {τ : Type} (cmd cmd' : Command τ) : Prop :=
  cmd.hasError = cmd'.hasError ∧ cmd.args = cmd'.args ∧ ∀ r : Redirection, cmd.file r = cmd'.file r

theorem Command.Alike.delivered {cmd cmd' : Command (List Char)} (alike : cmd.Alike cmd') :
    cmd.delivered = cmd'.delivered := by
  obtain ⟨_, args, files⟩ := alike
  simp only [Command.delivered, args, files]

/-- Where no call loses a character, blanks around operators are optional. An accepted line with fewer
arguments than the limit is the same command with them only if no call loses anything but a quote. -/
theorem parseCommand_spaceOut {line tail tail' : List Char} (noNul : NUL ∉ line) (closed : Closed tail)
    (closed' : Closed tail') :
    let spaced := (parseCommand (spaceOut {} line ++ tail') 0).read
    let cmd := (parseCommand (line ++ tail) 0).read
    ((∀ call ∈ (parseAlone line).calls, loses (call.2.getD []) = false) → spaced = cmd) ∧
      (cmd.hasError = false → cmd.args.length < MAX_ARGS - 1 → spaced.Alike cmd →
        ∀ call ∈ (parseAlone line).calls, loses (call.2.getD []) = true → losesQuote (call.2.getD []) = true) := by
  have visible := visible_of_noNul noNul
  dsimp only
  rw [(parseCommand_closed closed' (spaceOut_visible visible {})).1, (parseCommand_closed closed visible).1]
  constructor
  · intro apart
    have start : Spaced (some (spaceOut {} line)) (some line) := rfl
    exact (spaceOut_follows.parseLoop start .empty apart fun _ _ => trivial).command.eq
  · intro accepted few alike
    have plain := parseLoop_delivered accepted few
    have spaced := parseLoop_delivered (alike.1.trans accepted) (alike.2.1 ▸ few)
    have nothing := lost_of_apart (spaceOut_apart line)
    rw [Option.getD_some, solid_spaceOut] at spaced
    have same := alike.delivered
    refine losesQuote_of_lost ?_
    unfold parseAlone at *
    rw [Option.getD_some] at plain
    omega

theorem parseCommand_spaceOut_sort :
    (parseCommand (spaceOut {} "sort < 'a<b' > out 2> err".toList ++ []) 0).read =
      (parseCommand ("sort < 'a<b' > out 2> err".toList ++ []) 0).read :=
  (parseCommand_spaceOut (by decide) ⟨rfl, rfl⟩ ⟨rfl, rfl⟩).1 (by decide +kernel)

/-- The first character of a file name is lost after an operator. -/
theorem parseCommand_loses : ¬ ∀ line : List Char, NUL ∉ line →
    (parseCommand (spaceOut {} line) 0).read.Alike (parseCommand line 0).read := by
  intro same
  obtain ⟨_, _, files⟩ := same "cat <file".toList (by decide)
  exact absurd (files .input) (by decide +kernel)

end MyShell.Parser
