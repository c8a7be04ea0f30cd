import MyShell.Parser.Access
import MyShell.Parser.Quoting

/-! # Open quotes

`next_token` tells `parse_command` of a quote that is open at the end of the line, if it meets the quote: it
passes the character behind each token, and behind the limit it is not called any more. -/

namespace MyShell.Parser

variable {s line : List Char} {c : Char}

/-- The line without the characters that `next_token` passes, one behind each token. -/
def seen (s : List Char) : List Char :=
  if dropBlanks s = [] then [] else s.take (s.length - (behind s).length) ++ seen (behind s).tail
termination_by s.length
decreasing_by
  rename_i visible
  have nonempty : s ≠ [] := by
    rintro rfl
    exact visible rfl
  have some := List.length_pos_iff.mpr nonempty
  have shorter := behind_length s
  rw [List.length_tail]
  omega

@[simp] theorem seen_nil : seen [] = [] := by
  rw [seen]
  rfl

theorem after_scanWord (s : List Char) (q : Quoting) :
    ∃ raw, s = raw ++ (scanWord s q).rest ∧ q.after raw = (scanWord s q).quoting := by
  fun_induction scanWord s q with
  | case1 q => exact ⟨[], rfl, rfl⟩
  | case2 c s q stops => exact ⟨[], rfl, rfl⟩
  | case3 c s q goesOn q' toggled ih =>
    obtain ⟨raw, split, quoting⟩ := ih
    rw [look_char] at toggled
    refine ⟨c :: raw, congrArg (c :: ·) split, ?_⟩
    rw [after_cons, toggled]
    exact quoting
  | case4 c s q goesOn plain scanned ih =>
    obtain ⟨raw, split, quoting⟩ := ih
    rw [look_char] at plain
    refine ⟨c :: raw, congrArg (c :: ·) split, ?_⟩
    rw [after_cons, plain]
    exact quoting

theorem token_behind {s' : List Char} (head : dropBlanks s = c :: s') :
    ∃ raw, s = raw ++ behind s ∧ Quoting.after {} raw =
      if startsOperator c (charAt s' 0) = true then {} else (scanWord (c :: s') {}).quoting := by
  have blanks : s = s.takeWhile (isBlank ∘ look) ++ dropBlanks s := List.takeWhile_append_dropWhile.symm
  have blank : ∀ c ∈ s.takeWhile (isBlank ∘ look), isBlank (look c) = true := fun c member => by
    simpa using List.mem_takeWhile_imp member
  have quoting (raw : List Char) : Quoting.after {} (s.takeWhile (isBlank ∘ look) ++ raw) = Quoting.after {} raw := by
    rw [← after_dropBlanks, dropBlanks_append blank, after_dropBlanks]
  suffices token : ∃ raw, c :: s' = raw ++ behind (c :: s') ∧ Quoting.after {} raw =
      if startsOperator c (charAt s' 0) = true then {} else (scanWord (c :: s') {}).quoting by
    obtain ⟨raw, split, after⟩ := token
    refine ⟨s.takeWhile (isBlank ∘ look) ++ raw, ?_, by rw [quoting, after]⟩
    rw [← behind_dropBlanks, head, List.append_assoc, ← split, ← head]
    exact blanks
  by_cases starts : startsOperator c (charAt s' 0) = true
  · obtain ⟨r, rest, same⟩ := operator_of_starts starts
    rw [if_pos starts, same, behind_operator]
    exact ⟨r.operator, rfl, by cases r <;> rfl⟩
  · have visible : isBlank c = false := dropBlanks_head head
    rw [if_neg starts, behind_word visible (by simpa using starts)]
    exact after_scanWord (c :: s') {}

theorem take_behind {raw : List Char} (split : s = raw ++ behind s) : s.take (s.length - (behind s).length) = raw := by
  have length := congrArg List.length split
  rw [List.length_append] at length
  rw [length, Nat.add_sub_cancel]
  calc s.take raw.length = (raw ++ behind s).take raw.length := congrArg _ split
    _ = raw := List.take_left' rfl

theorem fetches_ending {left₁ : Option (List Char)} {x : CString} (fetched : nextAlone (some s) = .token x left₁) :
    (fetches (some s)).ending = .unterminated ↔ (fetches (some (behind s).tail)).ending = .unterminated := by
  have rest : left₁.getD [] = (behind s).tail := (nextAlone_token fetched).2
  rw [fetches_token fetched]
  cases left₁ with
  | none =>
    obtain rest : [] = (behind s).tail := rest
    rw [fetches_none, ← rest, fetches_nil]
    exact iff_of_false nofun nofun
  | some s₁ =>
    obtain rfl : s₁ = (behind s).tail := rest
    exact Iff.rfl

theorem isOpen_seen (s : List Char) : (Quoting.after {} (seen s)).isOpen = true ↔ (fetches (some s)).ending = .unterminated := by
  fun_induction seen s with
  | case1 s bare =>
    rw [fetches_finished (show nextAlone (some s) = .finished (some []) from if_pos bare)]
    exact iff_of_false (by decide) nofun
  | case2 s visible ih =>
    cases head : dropBlanks s with
    | nil => exact absurd head visible
    | cons c s' =>
      obtain ⟨raw, split, quoting⟩ := token_behind head
      have fetched := nextAlone_cons head
      rw [take_behind split, after_append, quoting]
      by_cases starts : startsOperator c (charAt s' 0) = true
      · obtain ⟨r, rest, same⟩ := operator_of_starts starts
        rw [same, headToken_operator] at fetched
        rw [if_pos starts, ih, fetches_ending fetched]
      · have plain : startsOperator c (charAt s' 0) = false := by simpa using starts
        rw [headToken_word plain] at fetched
        rw [if_neg starts]
        by_cases isOpen : (scanWord (c :: s') {}).quoting.isOpen = true
        · rw [if_pos isOpen] at fetched
          have last : behind s = [] := by
            have visible : isBlank c = false := dropBlanks_head head
            rw [← behind_dropBlanks, head, behind_word visible plain, scanWord_open isOpen]
          rw [fetches_unterminated fetched, last, List.tail_nil, seen_nil]
          exact iff_of_true isOpen rfl
        · rw [if_neg isOpen] at fetched
          rw [Quoting.eq_of_closed isOpen, ih, fetches_ending fetched]

/-! ### Calls past the end -/

theorem token_inside {left : Option (List Char)} {cmd : Command CString} (some : left ≠ none) :
    ∀ call ∈ (alone.parseLoop left cmd).calls, call.1 = .token → call.2 ≠ none := by
  have inside {left left₁ : Option (List Char)} {x : CString} (fetched : alone.next left = .token x left₁)
      (plain : Redirection.ofToken x = none) : left₁ ≠ none := by
    rintro rfl
    obtain ⟨r, rfl⟩ := nextAlone_lands fetched
    exact operator_not_plain r plain
  have finish {left : Option (List Char)} (cmd : Command CString) :
      ∀ call ∈ (alone.finish left cmd).calls, call.1 = .token → call.2 ≠ none := by
    intro call member token
    rw [Tokenizer.finish_calls alone member] at token
    cases token
  fun_induction alone.parseLoop left cmd with
  | case1 | case3 => simpa using some
  | case2 | case7 => exact List.forall_mem_cons.mpr ⟨fun _ => some, finish _⟩
  | case4 => simpa using some
  | case5 left cmd x left₁ fetched room r operator unset left₂ file found ih =>
    have plain := Tokenizer.nextFile_literal found
    rw [text_char] at plain
    have later := ih (inside (Tokenizer.nextFile_token found) plain)
    exact List.forall_mem_cons.mpr ⟨fun _ => some, List.forall_mem_cons.mpr ⟨fun asked => (by cases asked), later⟩⟩
  | case6 left cmd x left₁ fetched room plain ih =>
    rw [text_char] at plain
    exact List.forall_mem_cons.mpr ⟨fun _ => some, ih (inside fetched plain)⟩

theorem readsOn_accepted (noNul : NUL ∉ line) (reads : ReadsOn line) :
    ∃ tail : List Char, charAt tail 0 = NUL ∧ (parseCommand (line ++ tail) 0).read.hasError = false := by
  have visible : ∀ c ∈ line, c ≠ nul := visible_of_noNul noNul
  obtain ⟨⟨asked, left⟩, member, gone⟩ := calls_past.mpr reads
  obtain rfl : left = none := gone
  cases asked with
  | token => exact absurd rfl (token_inside (Option.some_ne_none line) _ member rfl)
  | more =>
    refine ⟨[], rfl, ?_⟩
    rw [List.append_nil, parseCommand_alone visible]
    exact Tokenizer.parseLoop_more alone rfl member
  | file =>
    have ends : charAt [NUL, 'a'] 0 = NUL := rfl
    refine ⟨[NUL, 'a'], ends, ?_⟩
    obtain ⟨red, r₁, r₂, taken, file, _, standing, found, clean, same⟩ :=
      parseLoop_takes ends (by decide +kernel) (standing_line [] [NUL, 'a'] visible) .empty rfl member
    have next : r₁.buf.drop r₁.cursor = ['a'] := by
      cases standing with
      | past consumed blanks buf whole beyond left blank =>
        cases blanks with
        | nil => exact left.symm
        | cons g blanks =>
          obtain rfl : 'a' = g := (List.cons.inj left).1
          exact absurd (blank 'a' List.mem_cons_self) (by decide)
    have within : r₁.cursor ≤ r₁.buf.length := by
      by_contra beyond
      rw [List.drop_eq_nil_of_le (Nat.le_of_not_le beyond)] at next
      exact nomatch next
    obtain ⟨tail', ends', standing'⟩ := standing_at within
    have text : readAt r₁.buf r₁.cursor = ['a'] := by
      rw [readAt, next]
      rfl
    have rel := nextFile_inside ends' standing'
    rw [text, found, show alone.nextFile (some ['a']) = (some [], some ['a']) from rfl] at rel
    cases rel with
    | some standing₂ placed =>
      have last := nextToken_reads ends' standing₂
      cases fetched : nextToken r₂ with
      | finished r₃ =>
        change (parseCommand ([] ++ (line ++ [NUL, 'a'])) ([] : List Char).length).command.hasError = false
        rw [parseCommand, same, Tokenizer.parseLoop_finished (show inPlace.next r₂ = .finished r₃ from fetched)]
        simpa using clean
      | token | unterminated =>
        rw [fetched] at last
        cases last

/-! ### Lines -/

/-- A quote that is open at the end of the line is an error, in whatever buffer the line stands. -/
def Caught (line : List Char) : Prop :=
  (Quoting.after {} line).isOpen = true →
    ∀ front tail : List Char, charAt tail 0 = NUL →
      (parseCommand (front ++ (line ++ tail)) front.length).read.hasError = true

/-- Up to the limit an operator is without a file name or there twice, whatever stands behind the line; or
the quote is open in what is seen, and nothing but its word comes behind the limit. -/
def Catchable (line : List Char) : Prop :=
  (¬Complete .initial (upTo (MAX_ARGS - 1) (items Redirection.ofToken (fetches (some line)).list)) ∧ ¬ReadsOn line) ∨
    ((Quoting.after {} (seen line)).isOpen = true ∧
      beyond (MAX_ARGS - 1) (items Redirection.ofToken (fetches (some line)).list) = [])

theorem caught_iff (noNul : NUL ∉ line) : Caught line ↔ ((Quoting.after {} line).isOpen = true → Catchable line) := by
  refine imp_congr_right fun _ => ?_
  unfold Catchable
  rw [isOpen_seen]
  by_cases reads : ReadsOn line
  · have past : (fetches (some line)).ending = .past := by
      obtain ⟨us, r, same, _⟩ := reads
      rw [same]
    obtain ⟨tail, ends, accepted⟩ := readsOn_accepted noNul reads
    refine iff_of_false (fun wrong => ?_) ?_
    · exact absurd ((wrong [] tail ends).symm.trans accepted) (by decide)
    · rintro (⟨_, inside⟩ | ⟨unterminated, _⟩)
      · exact inside reads
      · rw [past] at unterminated
        exact nomatch unterminated
  · have inside : ∀ call ∈ (parseAlone line).calls, call.2 ≠ none := fun call member none =>
      reads (calls_past.mp ⟨call, member, none⟩)
    have read (front tail : List Char) (ends : charAt tail 0 = NUL) :
        (parseCommand (front ++ (line ++ tail)) front.length).read.hasError = true ↔
          ¬Complete .initial (upTo (MAX_ARGS - 1) (items Redirection.ofToken (fetches (some line)).list)) ∨
            ((fetches (some line)).ending = .unterminated ∧
              beyond (MAX_ARGS - 1) (items Redirection.ofToken (fetches (some line)).list) = []) := by
      rw [(parseCommand_inside front noNul ends inside).1, ← Bool.not_eq_false]
      refine (not_congr parseAlone_accepts).trans ?_
      rw [not_and_or, not_not]
      rfl
    rw [and_iff_left reads, ← read [] [] rfl]
    exact ⟨fun wrong => wrong [] [] rfl, fun wrong front tail ends => (read front tail ends).mpr ((read [] [] rfl).mp wrong)⟩

theorem caught_iff_ls : Caught "ls 'a \"b".toList ↔ ((Quoting.after {} "ls 'a \"b".toList).isOpen = true → Catchable "ls 'a \"b".toList) :=
  caught_iff (by decide)

/-- A quote behind an operator is lost. -/
theorem quote_is_lost : ¬∀ line : List Char, NUL ∉ line → Caught line := by
  intro caught
  exact absurd (caught "cat <'ab".toList (by decide) (by decide) [] [] rfl) (by decide +kernel)

end MyShell.Parser
