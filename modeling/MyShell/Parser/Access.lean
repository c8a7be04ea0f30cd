import MyShell.Parser.Tokens

/-! # What the parser touches

The places of its buffer that `parse_command` reads and writes: `next_token` walks over the text and writes
its tokens in place, and `strcmp` reads the tokens that are compared with operators. Past the NUL of its
string nothing is touched but by a call of `next_token` that starts there. -/

namespace MyShell.Parser

/-- Places of the buffer. -/
structure Accesses where
  reads : List Nat := []
  writes : List Nat := []

namespace Accesses

instance : Append Accesses := ⟨fun a b => ⟨a.reads ++ b.reads, a.writes ++ b.writes⟩⟩

def Within (a : Accesses) (n : Nat) : Prop := (∀ p ∈ a.reads, p ≤ n) ∧ ∀ p ∈ a.writes, p ≤ n

def All (P : Nat → Prop) (a : Accesses) : Prop := (∀ p ∈ a.reads, P p) ∧ ∀ p ∈ a.writes, P p

variable {a b : Accesses} {n : Nat} {P : Nat → Prop}

@[simp] theorem reads_append : (a ++ b).reads = a.reads ++ b.reads := rfl

@[simp] theorem writes_append : (a ++ b).writes = a.writes ++ b.writes := rfl

theorem all_append : (a ++ b).All P ↔ a.All P ∧ b.All P := by
  simp only [All, reads_append, writes_append, List.forall_mem_append]
  exact and_and_and_comm

theorem all_nil : All P {} := ⟨nofun, nofun⟩

theorem all_reads {reads : List Nat} : All P { reads } ↔ ∀ p ∈ reads, P p := and_iff_left nofun

theorem within_append : (a ++ b).Within n ↔ a.Within n ∧ b.Within n := all_append (P := (· ≤ n))

theorem within_nil : Within {} n := all_nil

theorem within_reads {reads : List Nat} : Within { reads } n ↔ ∀ p ∈ reads, p ≤ n := all_reads (P := (· ≤ n))

end Accesses

section Definitions

variable {α : Type} [Glyph α]

def skipBlanksReads (b : List α) (p : Nat) : List Nat :=
  p :: if isBlank (charAt b p) then skipBlanksReads b (p + 1) else []
termination_by b.length - p
decreasing_by
  rename_i blank
  have := lt_length_of_charAt (isBlank_visible blank)
  omega

/-- The accesses of the loop that builds a word. The character after `*p` is read only if `*p` is a `'2'` that
is not quoted. -/
def wordLoopAccesses (b : List α) (p w : Nat) (q : Quoting) : Accesses :=
  if charAt b p = NUL then { reads := [p] }
  else if !q.isOpen && isBlank (charAt b p) then { reads := [p] }
  else
    let reads := p :: if !q.isOpen && charAt b p == '2' then [p + 1] else []
    if !q.isOpen && startsOperator (charAt b p) (charAt b (p + 1)) then { reads }
    else
      match q.toggle (charAt b p) with
      | some q => { reads } ++ wordLoopAccesses b (p + 1) w q
      | none => { reads, writes := [w] } ++ wordLoopAccesses (b.set w (b.getD p nul)) (p + 1) (w + 1) q
termination_by b.length - p
decreasing_by
  · rename_i visible _ _
    have := lt_length_of_charAt visible
    omega
  · rename_i visible _ _
    have := lt_length_of_charAt visible
    rw [List.length_set]
    omega

def nextTokenAccesses (r : Reader α) : Accesses :=
  let p := skipBlanks r.buf r.cursor
  { reads := skipBlanksReads r.buf r.cursor } ++
    if charAt r.buf p = NUL then {}
    else
      { reads := if charAt r.buf p == '2' then [p + 1] else [] } ++
        if charAt r.buf p == '2' && charAt r.buf (p + 1) == '>' then { writes := [p + 2] }
        else if charAt r.buf p == '<' || charAt r.buf p == '>' then { writes := [p + 1] }
        else
          let word := wordLoop r.buf p p {}
          wordLoopAccesses r.buf p p {} ++
            if word.quoting.isOpen then {} else { reads := [word.p], writes := [word.w] }

def strcmpReads (b : List α) (ptr : Nat) : CString → List Nat
  | [] => [ptr]
  | c :: text => ptr :: if charAt b ptr = c then strcmpReads b (ptr + 1) text else []

/-- A token is compared with one operator after the other, until it is one. -/
def comparesReads (b : List α) (ptr : Nat) : List Redirection → List Nat
  | [] => []
  | r :: rs => strcmpReads b ptr r.operator ++ if (readAt b ptr).map look = r.operator then [] else comparesReads b ptr rs

/-- What a token is compared with. At the limit the loop is left without a comparison, for a last call. -/
def compared (asked : Asked) (next : Option Asked) : List Redirection :=
  match asked, next with
  | .token, some .more | .more, _ => []
  | .token, _ => [.input, .error, .output]
  | .file, _ => [.input, .output, .error]

def callsAccesses : List (Asked × Reader α) → Accesses
  | [] => {}
  | (asked, r) :: calls =>
    nextTokenAccesses r ++
      (match nextToken r with
        | .token ptr r' => { reads := comparesReads r'.buf ptr (compared asked (calls.head?.map Prod.fst)) }
        | .finished _ | .unterminated _ => {}) ++
      callsAccesses calls

/-- What `parse_command` touches. -/
def parseAccesses (b : List α) (input : Nat) : Accesses := callsAccesses (parseCommand b input).calls

end Definitions

/-! ### Within the string -/

section Within

variable {α : Type} [Glyph α] {b : List α} {n p w ptr : Nat} {q : Quoting} {r : Reader α}

theorem ne_of_ends {c : Char} (ends : charAt b n = NUL) (here : charAt b p = c) (visible : c ≠ NUL) : p ≠ n := by
  rintro rfl
  exact visible (here.symm.trans ends)

theorem charAt_set_ne {g : α} (other : w ≠ n) : charAt (b.set w g) n = charAt b n := by
  simp [charAt, List.getElem?_set_ne other]

theorem charAt_set_nul (ends : charAt b n = NUL) : charAt (b.set w nul) n = NUL := by
  by_cases same : w = n
  · subst same
    by_cases inside : w < b.length
    · simp [charAt, inside]
    · rwa [List.set_eq_of_length_le (Nat.not_lt.mp inside)]
  · rwa [charAt_set_ne same]

theorem skipBlanks_within (ends : charAt b n = NUL) (before : p ≤ n) :
    skipBlanks b p ≤ n ∧ ∀ p' ∈ skipBlanksReads b p, p' ≤ n := by
  fun_induction skipBlanks b p with
  | case1 p blank ih =>
    have other := ne_of_ends ends rfl (isBlank_visible blank)
    obtain ⟨stops, reads⟩ := ih (by omega)
    rw [skipBlanksReads, if_pos blank]
    exact ⟨stops, List.forall_mem_cons.mpr ⟨before, reads⟩⟩
  | case2 p visible =>
    rw [skipBlanksReads, if_neg visible]
    exact ⟨before, by simpa using before⟩

section Pass

variable (visible : ¬ charAt b p = NUL) (solid : ¬ (!q.isOpen && isBlank (charAt b p)) = true)
  (plain : ¬ (!q.isOpen && startsOperator (charAt b p) (charAt b (p + 1))) = true)
include visible solid plain

theorem wordLoopAccesses_quote {q' : Quoting} (toggled : q.toggle (charAt b p) = some q') : wordLoopAccesses b p w q =
    { reads := p :: if !q.isOpen && charAt b p == '2' then [p + 1] else [] } ++ wordLoopAccesses b (p + 1) w q' := by
  rw [wordLoopAccesses, if_neg visible, if_neg solid, if_neg plain]
  simp only [toggled]

theorem wordLoopAccesses_glyph (other : q.toggle (charAt b p) = none) : wordLoopAccesses b p w q =
    { reads := p :: if !q.isOpen && charAt b p == '2' then [p + 1] else [], writes := [w] } ++
      wordLoopAccesses (b.set w (b.getD p nul)) (p + 1) (w + 1) q := by
  rw [wordLoopAccesses, if_neg visible, if_neg solid, if_neg plain]
  simp only [other]

end Pass

theorem wordLoop_within (ends : charAt b n = NUL) (behind : w ≤ p) (before : p ≤ n) :
    (wordLoopAccesses b p w q).Within n ∧ (wordLoop b p w q).p ≤ n ∧ (wordLoop b p w q).w ≤ (wordLoop b p w q).p ∧
      charAt (wordLoop b p w q).buf n = NUL := by
  have ahead {b : List α} {p : Nat} {q : Quoting} (visible : ¬ charAt b p = NUL) (ends : charAt b n = NUL) (before : p ≤ n) :
      ∀ p' ∈ p :: (if (!q.isOpen && charAt b p == '2') = true then [p + 1] else []), p' ≤ n := by
    have other := ne_of_ends ends rfl visible
    refine List.forall_mem_cons.mpr ⟨before, ?_⟩
    split
    · simp
      omega
    · exact List.forall_mem_nil _
  fun_induction wordLoop b p w q with
  | case1 b p w q ended =>
    rw [wordLoopAccesses, if_pos ended]
    exact ⟨Accesses.within_reads.mpr (by simpa using before), before, behind, ends⟩
  | case2 b p w q visible blank =>
    rw [wordLoopAccesses, if_neg visible, if_pos blank]
    exact ⟨Accesses.within_reads.mpr (by simpa using before), before, behind, ends⟩
  | case3 b p w q visible solid operator =>
    rw [wordLoopAccesses, if_neg visible, if_neg solid, if_pos operator]
    exact ⟨Accesses.within_reads.mpr (ahead visible ends before), before, behind, ends⟩
  | case4 b p w q visible solid plain q' toggled ih =>
    have other := ne_of_ends ends rfl visible
    obtain ⟨within, rest⟩ := ih ends (by omega) (by omega)
    rw [wordLoopAccesses_quote visible solid plain toggled]
    exact ⟨Accesses.within_append.mpr ⟨Accesses.within_reads.mpr (ahead visible ends before), within⟩, rest⟩
  | case5 b p w q visible solid plain toggled ih =>
    have other := ne_of_ends ends rfl visible
    obtain ⟨within, rest⟩ := ih (by rwa [charAt_set_ne (by omega)]) (by omega) (by omega)
    rw [wordLoopAccesses_glyph visible solid plain toggled]
    refine ⟨Accesses.within_append.mpr ⟨⟨ahead visible ends before, ?_⟩, within⟩, rest⟩
    simp
    omega

theorem nextToken_within (ends : charAt r.buf n = NUL) (before : r.cursor ≤ n) :
    (nextTokenAccesses r).Within n ∧ charAt (nextToken r).state.buf n = NUL ∧
      ∀ ptr r', nextToken r = .token ptr r' → ptr ≤ n := by
  obtain ⟨stops, skipped⟩ := skipBlanks_within ends before
  have word := wordLoop_within (q := {}) ends (Nat.le_refl (skipBlanks r.buf r.cursor)) stops
  unfold nextTokenAccesses nextToken
  dsimp only
  generalize skipBlanks r.buf r.cursor = p at *
  rw [Accesses.within_append, Accesses.within_reads]
  by_cases ended : charAt r.buf p = NUL
  · rw [if_pos ended, if_pos ended]
    exact ⟨⟨skipped, Accesses.within_nil⟩, ends, nofun⟩
  have inside : p < n := Nat.lt_of_le_of_ne stops (ne_of_ends ends rfl ended)
  have ahead : ∀ p' ∈ (if (charAt r.buf p == '2') = true then [p + 1] else []), p' ≤ n := by
    split
    · simpa using Nat.succ_le_of_lt inside
    · exact List.forall_mem_nil _
  rw [if_neg ended, if_neg ended, Accesses.within_append, Accesses.within_reads]
  by_cases error : (charAt r.buf p == '2' && charAt r.buf (p + 1) == '>') = true
  · have next : p + 1 ≠ n := ne_of_ends ends (c := '>') (by simp_all) (by decide)
    rw [if_pos error, if_pos error]
    refine ⟨⟨skipped, ahead, nofun, ?_⟩, charAt_set_nul ends, ?_⟩
    · simp
      omega
    · rintro _ _ ⟨⟩
      exact stops
  rw [if_neg error, if_neg error]
  by_cases redirects : (charAt r.buf p == '<' || charAt r.buf p == '>') = true
  · rw [if_pos redirects, if_pos redirects]
    refine ⟨⟨skipped, ahead, nofun, by simpa using Nat.succ_le_of_lt inside⟩, charAt_set_nul ends, ?_⟩
    rintro _ _ ⟨⟩
    exact stops
  rw [if_neg redirects, if_neg redirects, Accesses.within_append]
  obtain ⟨within, stop, order, kept⟩ := word
  by_cases isOpen : (wordLoop r.buf p p {}).quoting.isOpen = true
  · rw [if_pos isOpen, if_pos isOpen]
    exact ⟨⟨skipped, ahead, within, Accesses.within_nil⟩, kept, nofun⟩
  · rw [if_neg isOpen, if_neg isOpen]
    refine ⟨⟨skipped, ahead, within, by simpa using stop, by simpa using Nat.le_trans order stop⟩, charAt_set_nul kept, ?_⟩
    rintro _ _ ⟨⟩
    exact stops

theorem nextToken_ends (ends : charAt r.buf n = NUL) : charAt (nextToken r).state.buf n = NUL := by
  rcases Nat.lt_or_ge n r.cursor with past | before
  · rw [← charAt_take past, (nextToken_take r).1, charAt_take past]
    exact ends
  · exact (nextToken_within ends before).2.1

theorem strcmpReads_within {text : CString} (noNul : NUL ∉ text) (ends : charAt b n = NUL) (before : ptr ≤ n) :
    ∀ p ∈ strcmpReads b ptr text, p ≤ n := by
  induction text generalizing ptr with
  | nil => simpa [strcmpReads] using before
  | cons c text ih =>
    obtain ⟨visible, noNul⟩ : NUL ≠ c ∧ NUL ∉ text := by simpa using noNul
    rw [strcmpReads]
    refine List.forall_mem_cons.mpr ⟨before, ?_⟩
    split
    · rename_i same
      have other := ne_of_ends ends same (Ne.symm visible)
      exact ih noNul (by omega)
    · exact List.forall_mem_nil _

theorem comparesReads_within (ends : charAt b n = NUL) (before : ptr ≤ n) (rs : List Redirection) :
    ∀ p ∈ comparesReads b ptr rs, p ≤ n := by
  induction rs with
  | nil => exact List.forall_mem_nil _
  | cons r rs ih =>
    have noNul : NUL ∉ r.operator := by cases r <;> decide
    rw [comparesReads, List.forall_mem_append]
    refine ⟨strcmpReads_within noNul ends before, ?_⟩
    split
    · exact List.forall_mem_nil _
    · exact ih

theorem callsAccesses_within {calls : List (Asked × Reader α)} (ends : ∀ call ∈ calls, charAt call.2.buf n = NUL) :
    (callsAccesses calls).Within n ↔ ∀ call ∈ calls, call.2.cursor ≤ n := by
  induction calls with
  | nil => exact iff_of_true Accesses.within_nil (List.forall_mem_nil _)
  | cons call calls ih =>
    obtain ⟨asked, r⟩ := call
    obtain ⟨here, later⟩ := List.forall_mem_cons.mp ends
    rw [callsAccesses, Accesses.within_append, Accesses.within_append, ih later, List.forall_mem_cons]
    refine and_congr_left' ⟨fun within => ?_, fun before => ?_⟩
    · refine within.1.1 r.cursor (List.mem_append_left _ ?_)
      rw [skipBlanksReads]
      exact List.mem_cons_self
    · obtain ⟨within, kept, placed⟩ := nextToken_within here before
      refine ⟨within, ?_⟩
      cases fetched : nextToken r with
      | token ptr r' =>
        rw [fetched] at kept
        exact Accesses.within_reads.mpr (comparesReads_within kept (placed ptr r' fetched) _)
      | finished r' | unterminated r' => exact Accesses.within_nil

end Within

/-! ### Past the string -/

/-- Behind the tokens `us` the operator `r` is fetched with these redirections and arguments, and after it
`parse_command` calls once more: for the file, or to see whether arguments are left over. -/
def Awaits (cmd : Command CString) (us : List CString) (r : Redirection) : Prop :=
  Complete cmd (items Redirection.ofToken us) ∧ beyond cmd.vacant (items Redirection.ofToken us) = [] ∧
    (cmd.file r = none ∧ names r (items Redirection.ofToken us) = [] ∨
      cmd.vacant = (words (items Redirection.ofToken us)).length)

/-- The line ends in an operator, and `parse_command` calls once more after it. -/
def ReadsOn (line : List Char) : Prop :=
  ∃ us r, fetches (some line) = ⟨us ++ [r.operator], .past⟩ ∧ Awaits .initial us r

/-- Nothing but the line decides what `parse_command` finds, and nothing past its NUL is touched. -/
def OnlyTheLine (line : List Char) : Prop :=
  (∀ front tail front' tail' : List Char, charAt tail 0 = NUL → charAt tail' 0 = NUL →
      (parseCommand (front ++ (line ++ tail)) front.length).read =
        (parseCommand (front' ++ (line ++ tail')) front'.length).read) ∧
    ∀ front tail : List Char, charAt tail 0 = NUL →
      (parseAccesses (front ++ (line ++ tail)) front.length).Within (front.length + line.length)

section Awaits

variable {st st₁ : Tokens} {cmd : Command CString} {us : List CString} {x file : CString} {r r' : Redirection}

def Tokens.Lands (st : Tokens) : Prop := st.ending = .past → st.list = [] ∨ ∃ us r, st.list = us ++ [Redirection.operator r]

theorem Tokens.Lands.tail (lands : st.Lands) (same : st = ⟨x :: st₁.list, st₁.ending⟩) : st₁.Lands := by
  subst same
  intro past
  rcases lands past with empty | ⟨us, r, list⟩
  · exact nomatch empty
  · cases us with
    | nil => exact .inl (List.cons.inj list).2
    | cons y us => exact .inr ⟨us, r, (List.cons.inj list).2⟩

theorem Tokens.Lands.last (lands : st.Lands) (same : st = ⟨[x], .past⟩) : ∃ r, x = Redirection.operator r := by
  subst same
  rcases lands rfl with empty | ⟨us, r, list⟩
  · exact nomatch empty
  · cases us with
    | nil => exact ⟨r, (List.cons.inj list).1⟩
    | cons y us => simp at list

theorem exists_last {P : List CString → Redirection → Prop} (x : CString) (st : Tokens) :
    (∃ us r, (⟨x :: st.list, st.ending⟩ : Tokens) = ⟨us ++ [r.operator], .past⟩ ∧ P us r) ↔
      (∃ r, x = r.operator ∧ st = ⟨[], .past⟩ ∧ P [] r) ∨ ∃ us r, st = ⟨us ++ [r.operator], .past⟩ ∧ P (x :: us) r := by
  obtain ⟨xs, ending⟩ := st
  simp only [Tokens.mk.injEq]
  constructor
  · rintro ⟨us, r, ⟨list, past⟩, here⟩
    cases us with
    | nil => exact .inl ⟨r, (List.cons.inj list).1, ⟨(List.cons.inj list).2, past⟩, here⟩
    | cons y us =>
      obtain ⟨rfl, rest⟩ := List.cons.inj list
      exact .inr ⟨us, r, ⟨rest, past⟩, here⟩
  · rintro (⟨r, rfl, ⟨rfl, past⟩, here⟩ | ⟨us, r, ⟨rfl, past⟩, here⟩)
    · exact ⟨[], r, ⟨rfl, past⟩, here⟩
    · exact ⟨x :: us, r, ⟨rfl, past⟩, here⟩

theorem awaits_nil : Awaits cmd [] r ↔ cmd.file r = none ∨ cmd.vacant = 0 := by
  simp [Awaits, items, complete_nil, names, words]

theorem awaits_word (plain : Redirection.ofToken x = none) (room : cmd.args.length < MAX_ARGS - 1) :
    Awaits cmd (x :: us) r ↔ Awaits (cmd.addArg x room) us r := by
  have vacant := vacant_addArg (x := x) room
  simp [Awaits, Complete, items_word plain, vacant, beyond, names, words]

theorem awaits_file (operator : Redirection.ofToken x = some r') (plain : Redirection.ofToken file = none)
    (unset : cmd.file r' = none) (room : cmd.args.length < MAX_ARGS - 1) :
    Awaits cmd (x :: file :: us) r ↔ Awaits (cmd.setFile r' file) us r := by
  have back := (upTo_redirection r' (some file) (items Redirection.ofToken us) (vacant_pos room)).2
  have complete : Complete cmd (.redirection r' (some file) :: items Redirection.ofToken us) ↔
      Complete (cmd.setFile r' file) (items Redirection.ofToken us) := by
    refine forall_congr' fun r => exists_congr fun name => ?_
    rw [Command.file_setFile, names]
    by_cases this : r = r'
    · subst this
      simp [unset]
    · simp [this, Ne.symm this]
  rw [Awaits, Awaits, items_file operator plain, complete, back, vacant_setFile, Command.file_setFile, names, words]
  by_cases this : r = r'
  · subst this
    simp
  · simp [this, Ne.symm this]

theorem not_awaits_twice (operator : Redirection.ofToken x = some r') (twice : cmd.file r' = some file) :
    ¬ Awaits cmd (x :: us) r := by
  obtain ⟨name, is, same⟩ := items_operator operator us
  rintro ⟨complete, _⟩
  rw [same] at complete
  exact not_complete twice complete

theorem not_awaits_missing (operator : Redirection.ofToken x = some r') (unset : cmd.file r' = none)
    (missing : ∀ y ∈ us.head?, Redirection.ofToken y ≠ none) : ¬ Awaits cmd (x :: us) r := by
  rintro ⟨complete, _⟩
  rw [items_missing operator missing] at complete
  obtain ⟨name, same⟩ := complete r'
  cases name <;> simp [names, unset] at same

theorem awaits_full (full : ¬ cmd.args.length < MAX_ARGS - 1) : Awaits cmd us r ↔ us = [] := by
  have vacant := vacant_full full
  constructor
  · rintro ⟨_, nothing, _⟩
    rw [vacant, beyond_zero] at nothing
    exact items_eq_nil.mp nothing
  · rintro rfl
    exact awaits_nil.mpr (.inr vacant)

theorem parseLoop_past (st : Tokens) (cmd : Command CString) (lands : st.Lands) (inside : st ≠ ⟨[], .past⟩) :
    (∃ call ∈ (listed.parseLoop st cmd).calls, call.2 = ⟨[], .past⟩) ↔
      ∃ us r, st = ⟨us ++ [r.operator], .past⟩ ∧ Awaits cmd us r := by
  fun_induction listed.parseLoop st cmd with
  | case1 st cmd st₁ fetched =>
    obtain rfl := listed_unterminated fetched
    simp
  | case2 st cmd st₁ fetched =>
    obtain ⟨none, _, rfl⟩ := listed_finished fetched
    have last : ¬ ∃ us r, st₁ = ⟨us ++ [Redirection.operator r], .past⟩ ∧ Awaits cmd us r := by
      rintro ⟨us, r, rfl, _⟩
      simp at none
    refine iff_of_false ?_ last
    rintro ⟨call, member, past⟩
    rcases List.mem_cons.mp member with rfl | member
    · exact inside past
    · by_cases full : cmd.args.length < MAX_ARGS - 1
      · simp [Tokenizer.finish, Nat.not_le.mpr full] at member
      · rw [Tokenizer.finish_full listed st₁ full, List.mem_singleton] at member
        subst member
        exact inside past
  | case3 st cmd x st₁ fetched room r' operator file twice =>
    obtain rfl := listed_token fetched
    replace operator : Redirection.ofToken x = some r' := operator
    refine iff_of_false (by simp) ?_
    rw [exists_last]
    rintro (⟨r, rfl, _, awaits⟩ | ⟨us, r, _, awaits⟩)
    · rw [ofToken_operator, Option.some.injEq] at operator
      subst operator
      rcases awaits_nil.mp awaits with unset | full
      · exact absurd (twice.symm.trans unset) (Option.some_ne_none file)
      · exact absurd full (vacant_pos room).ne'
    · exact not_awaits_twice operator twice awaits
  | case4 st cmd x st₁ fetched room r' operator unset st₂ missing =>
    obtain rfl := listed_token fetched
    replace operator : Redirection.ofToken x = some r' := operator
    have head := listed_missing missing
    have calls : (∃ call ∈ [((Asked.token, ⟨x :: st₁.list, st₁.ending⟩) : Asked × Tokens), (.file, st₁)],
        call.2 = ⟨[], .past⟩) ↔ st₁ = ⟨[], .past⟩ := by simp
    rw [calls, exists_last]
    constructor
    · intro past
      exact .inl ⟨r', Redirection.eq_operator operator, past, awaits_nil.mpr (.inl unset)⟩
    · rintro (⟨_, _, past, _⟩ | ⟨us, r, same, awaits⟩)
      · exact past
      · refine absurd awaits (not_awaits_missing operator unset fun y first => head y ?_)
        rw [same]
        cases us with
        | nil => cases first
        | cons z us => exact first
  | case5 st cmd x st₁ fetched room r' operator unset st₂ file found ih =>
    obtain rfl := listed_token fetched
    replace operator : Redirection.ofToken x = some r' := operator
    obtain ⟨rfl, plain⟩ := listed_file found
    have lands₁ : Tokens.Lands ⟨file :: st₂.list, st₂.ending⟩ := lands.tail rfl
    have inside₂ : st₂ ≠ ⟨[], .past⟩ := by
      rintro rfl
      obtain ⟨r, rfl⟩ := lands₁.last rfl
      exact operator_not_plain r plain
    have rest := ih (lands₁.tail rfl) inside₂
    have calls : (∃ call ∈ (((listed.parseLoop st₂ (cmd.setFile r' file)).after (.file, ⟨file :: st₂.list, st₂.ending⟩)).after
        (.token, ⟨x :: file :: st₂.list, st₂.ending⟩)).calls, call.2 = ⟨[], .past⟩) ↔
        ∃ call ∈ (listed.parseLoop st₂ (cmd.setFile r' file)).calls, call.2 = ⟨[], .past⟩ := by simp [Parsed.after]
    rw [calls, rest, exists_last x ⟨file :: st₂.list, st₂.ending⟩, exists_last file st₂]
    constructor
    · rintro ⟨us, r, same, awaits⟩
      exact .inr (.inr ⟨us, r, same, (awaits_file operator plain unset room).mpr awaits⟩)
    · rintro (⟨_, _, past, _⟩ | ⟨r, rfl, _⟩ | ⟨us, r, same, awaits⟩)
      · simp at past
      · exact absurd plain (operator_not_plain r)
      · exact ⟨us, r, same, (awaits_file operator plain unset room).mp awaits⟩
  | case6 st cmd x st₁ fetched room plain ih =>
    obtain rfl := listed_token fetched
    replace plain : Redirection.ofToken x = none := plain
    have inside₁ : st₁ ≠ ⟨[], .past⟩ := by
      rintro rfl
      obtain ⟨r, rfl⟩ := lands.last rfl
      exact operator_not_plain r plain
    have rest := ih (lands.tail rfl) inside₁
    have calls : (∃ call ∈ ((listed.parseLoop st₁ (cmd.addArg x room)).after (.token, ⟨x :: st₁.list, st₁.ending⟩)).calls,
        call.2 = ⟨[], .past⟩) ↔ ∃ call ∈ (listed.parseLoop st₁ (cmd.addArg x room)).calls, call.2 = ⟨[], .past⟩ := by
      simp [Parsed.after]
    rw [calls, rest, exists_last]
    constructor
    · rintro ⟨us, r, same, awaits⟩
      exact .inr ⟨us, r, same, (awaits_word plain room).mpr awaits⟩
    · rintro (⟨r, rfl, _⟩ | ⟨us, r, same, awaits⟩)
      · exact absurd plain (operator_not_plain r)
      · exact ⟨us, r, same, (awaits_word plain room).mp awaits⟩
  | case7 st cmd x st₁ fetched full =>
    obtain rfl := listed_token fetched
    have calls : (∃ call ∈ ((listed.finish st₁ cmd).after (.token, ⟨x :: st₁.list, st₁.ending⟩)).calls,
        call.2 = ⟨[], .past⟩) ↔ st₁ = ⟨[], .past⟩ := by
      simp [Parsed.after, Tokenizer.finish_full listed st₁ full]
    rw [calls, exists_last]
    constructor
    · rintro rfl
      obtain ⟨r, rfl⟩ := lands.last rfl
      exact .inl ⟨r, rfl, rfl, (awaits_full full).mpr rfl⟩
    · rintro (⟨_, _, past, _⟩ | ⟨us, r, _, awaits⟩)
      · exact past
      · exact absurd ((awaits_full full).mp awaits) (List.cons_ne_nil _ _)

end Awaits

/-! ### Lines -/

section Line

variable {left left₁ : Option (List Char)} {line front tail x : List Char} {r : Reader Char} {size : Nat}

theorem fetches_past : fetches left = ⟨[], .past⟩ ↔ left = none := by
  constructor
  · intro past
    cases left with
    | none => rfl
    | some s =>
      cases fetched : nextAlone (some s) with
      | token x left₁ =>
        rw [fetches_token fetched] at past
        exact nomatch past
      | finished left₁ =>
        rw [fetches_finished fetched, nextAlone_finished_some fetched] at past
        exact nomatch past
      | unterminated left₁ =>
        rw [fetches_unterminated fetched] at past
        exact nomatch past
  · rintro rfl
    exact fetches_none

theorem nextAlone_lands (fetched : nextAlone left = .token x none) : ∃ r, x = Redirection.operator r := by
  cases left with
  | none => cases fetched
  | some s =>
    by_cases bare : dropBlanks s = []
    · rw [nextAlone, if_pos bare] at fetched
      cases fetched
    cases head : dropBlanks s with
    | nil => exact absurd head bare
    | cons c s' =>
      rw [nextAlone_cons head] at fetched
      by_cases starts : startsOperator c (charAt s' 0) = true
      · obtain ⟨r, rest, same⟩ := operator_of_starts starts
        rw [same, headToken_operator, Fetched.token.injEq] at fetched
        exact ⟨r, fetched.1.symm⟩
      · rw [headToken_word (by simpa using starts)] at fetched
        split at fetched <;> cases fetched

theorem fetches_lands (left : Option (List Char)) : (fetches left).Lands := by
  fun_induction fetches left with
  | case1 => exact fun _ => .inl rfl
  | case2 | case3 => exact nofun
  | case4 left x left₁ fetched ih =>
    intro past
    rcases ih past with last | ⟨us, r, list⟩
    · obtain rfl : left₁ = none := by
        rw [← fetches_past, ← last, ← show (fetches left₁).ending = .past from past]
      obtain ⟨r, rfl⟩ := nextAlone_lands fetched
      exact .inr ⟨[], r, by simp⟩
    · exact .inr ⟨x :: us, r, by simp [list]⟩

theorem calls_past : (∃ call ∈ (parseAlone line).calls, call.2 = none) ↔ ReadsOn line := by
  have past := parseLoop_past (fetches (some line)) .initial (fetches_lands _) fun same => nomatch fetches_past.mp same
  rw [parseLoop_listed] at past
  unfold ReadsOn
  rw [← past]
  constructor
  · rintro ⟨call, member, none⟩
    exact ⟨(call.1, fetches call.2), List.mem_map_of_mem member, fetches_past.mpr none⟩
  · rintro ⟨_, member, none⟩
    obtain ⟨call, called, rfl⟩ := List.mem_map.mp member
    exact ⟨call, called, fetches_past.mp none⟩

theorem standing_cursor (standing : Standing front tail size r left) : r.cursor ≤ front.length + size ↔ left ≠ none := by
  cases standing with
  | inside consumed s buf cursor whole =>
    refine iff_of_true ?_ nofun
    rw [cursor, List.length_append]
    omega
  | past consumed blanks buf whole beyond =>
    refine iff_of_false ?_ (fun some => some rfl)
    rw [List.length_append] at beyond
    omega

theorem forall_mem_iff {σ σ' : Type} {R : σ → σ' → Prop} {P : σ → Prop} {Q : σ' → Prop} {l : List σ} {l' : List σ'}
    (both : List.Forall₂ R l l') (same : ∀ {x y}, R x y → (P x ↔ Q y)) : (∀ x ∈ l, P x) ↔ ∀ y ∈ l', Q y := by
  induction both with
  | nil => simp
  | cons here _ ih => rw [List.forall_mem_cons, List.forall_mem_cons, same here, ih]

theorem parseAccesses_within (front : List Char) (noNul : NUL ∉ line) (ends : charAt tail 0 = NUL)
    (stays : ∀ call ∈ (parseAlone line).calls, Stays tail.tail call.1 call.2) :
    (parseAccesses (front ++ (line ++ tail)) front.length).Within (front.length + line.length) ↔
      ∀ call ∈ (parseAlone line).calls, call.2 ≠ none := by
  have visible : ∀ c ∈ line, c ≠ nul := visible_of_noNul noNul
  have ended : charAt (front ++ (line ++ tail)) (front.length + line.length) = NUL := by
    rw [charAt_append, charAt_length_append, ends]
  have kept : ∀ call ∈ (parseCommand (front ++ (line ++ tail)) front.length).calls,
      charAt call.2.buf (front.length + line.length) = NUL :=
    Tokenizer.parseLoop_calls (t := inPlace) (I := fun r => charAt r.buf (front.length + line.length) = NUL)
      (fun _ ends => nextToken_ends ends) ended
  have alongside := (inPlace_follows ends).alongside (standing_line front tail visible) .empty stays fun _ _ => trivial
  rw [parseAccesses, callsAccesses_within kept]
  exact forall_mem_iff alongside.calls fun both => standing_cursor both.2

/-- `parse_command` keeps to its line, unless the line ends in an operator after which it calls once more. -/
theorem onlyTheLine_iff (noNul : NUL ∉ line) : OnlyTheLine line ↔ ¬ReadsOn line := by
  rw [← calls_past]
  constructor
  · rintro ⟨_, within⟩ ⟨call, member, none⟩
    have stays : ∀ call ∈ (parseAlone line).calls, Stays ([] : List Char).tail call.1 call.2 :=
      fun call _ => stays_of_ended rfl call.1 call.2
    exact (parseAccesses_within [] noNul rfl stays).mp (within [] [] rfl) call member none
  · intro inside
    have some : ∀ call ∈ (parseAlone line).calls, call.2 ≠ none := fun call member none => inside ⟨call, member, none⟩
    refine ⟨fun front tail front' tail' ends ends' => ?_, fun front tail ends => ?_⟩
    · rw [(parseCommand_inside front noNul ends some).1, (parseCommand_inside front' noNul ends' some).1]
    · exact (parseAccesses_within front noNul ends fun call member none => absurd none (some call member)).mpr some

theorem onlyTheLine_sort : OnlyTheLine "sort <in >>".toList ↔ ¬ReadsOn "sort <in >>".toList :=
  onlyTheLine_iff (by decide)

/-- What stands behind the NUL becomes the file of an operator in front of it. -/
theorem reads_past_the_line : ¬∀ line : List Char, NUL ∉ line → OnlyTheLine line := by
  intro only
  have same := (only "cat <".toList (by decide)).1 [] [NUL, 'i', 'n'] [] [NUL] rfl rfl
  exact absurd (congrArg Command.hasError same) (by decide +kernel)

end Line

end MyShell.Parser
