import MyShell.Parser.Access

/-! # Successive calls

Calls of `next_token` with one cursor, up to the first that returns NULL. A token is written where it was
read, and the cursor is left behind all that was changed: no later call reads it, and none changes a token.
The tokens are those of `nextString`, which leaves its buffer alone. -/

namespace MyShell.Parser

section Definitions

variable {σ σ' τ τ' α : Type} [Glyph α]

def Fetched.map (f : σ → σ') (g : τ → τ') : Fetched σ τ → Fetched σ' τ'
  | .token x s => .token (g x) (f s)
  | .finished s => .finished (f s)
  | .unterminated s => .unterminated (f s)

structure Call (σ τ : Type) where
  start : σ
  fetched : Fetched σ τ

/-- `n` successive calls, or fewer if one of them returns NULL. -/
def successive (next : σ → Fetched σ τ) : Nat → σ → List (Call σ τ)
  | 0, _ => []
  | n + 1, s =>
    ⟨s, next s⟩ ::
      match next s with
      | .token _ s' => successive next n s'
      | .finished _ | .unterminated _ => []

def leftBy (s : σ) (calls : List (Call σ τ)) : σ := calls.foldl (fun _ call => call.fetched.state) s

structure Copied (α : Type) where
  word : List α
  p : Nat
  quoting : Quoting

/-- The loop that builds a word, in a string of its own. -/
def wordCopy (b : List α) (p : Nat) (q : Quoting) : Copied α :=
  if charAt b p = NUL then ⟨[], p, q⟩
  else if !q.isOpen && isBlank (charAt b p) then ⟨[], p, q⟩
  else if !q.isOpen && startsOperator (charAt b p) (charAt b (p + 1)) then ⟨[], p, q⟩
  else
    match q.toggle (charAt b p) with
    | some q => wordCopy b (p + 1) q
    | none =>
      let copied := wordCopy b (p + 1) q
      { copied with word := b.getD p nul :: copied.word }
termination_by b.length - p
decreasing_by
  all_goals
    rename_i visible _ _
    have := lt_length_of_charAt visible
    omega

/-- `next_token` with the tokens in strings of their own. -/
def nextString (b : List α) (cursor : Nat) : Fetched Nat (List α) :=
  let p := skipBlanks b cursor
  if charAt b p = NUL then .finished p
  else if charAt b p == '2' && charAt b (p + 1) == '>' then .token [b.getD p nul, b.getD (p + 1) nul] (p + 3)
  else if charAt b p == '<' || charAt b p == '>' then .token [b.getD p nul] (p + 2)
  else
    let copied := wordCopy b p {}
    if copied.quoting.isOpen then .unterminated cursor
    else .token copied.word (if charAt b copied.p = NUL then copied.p else copied.p + 1)

/-- `w` and `p`, whenever the loop that builds a word looks at `*p`. -/
def wordIndices (b : List α) (p w : Nat) (q : Quoting) : List (Nat × Nat) :=
  (w, p) ::
    if charAt b p = NUL then []
    else if !q.isOpen && isBlank (charAt b p) then []
    else if !q.isOpen && startsOperator (charAt b p) (charAt b (p + 1)) then []
    else
      match q.toggle (charAt b p) with
      | some q => wordIndices b (p + 1) w q
      | none => wordIndices (b.set w (b.getD p nul)) (p + 1) (w + 1) q
termination_by b.length - p
decreasing_by
  · rename_i visible _ _
    have := lt_length_of_charAt visible
    omega
  · rename_i visible _ _
    have := lt_length_of_charAt visible
    rw [List.length_set]
    omega

/-- `w` and `p` in a call of `next_token`. Only a word is built with them. -/
def nextTokenIndices (r : Reader α) : List (Nat × Nat) :=
  let p := skipBlanks r.buf r.cursor
  if charAt r.buf p = NUL then []
  else if startsOperator (charAt r.buf p) (charAt r.buf (p + 1)) then []
  else wordIndices r.buf p p {}

/-- What `n` successive calls write and read, and the tokens that are found in the buffer after the last one. -/
structure Undamaged (r : Reader α) (n : Nat) : Prop where
  writes : ∀ call ∈ successive nextToken n r, ∀ p ∈ (nextTokenAccesses call.start).writes, call.start.cursor ≤ p
  order : ∀ call ∈ successive nextToken n r, ∀ wp ∈ nextTokenIndices call.start, wp.1 ≤ wp.2
  tokens : (successive nextToken n r).Pairwise fun call later => ∀ ptr r', call.fetched = .token ptr r' →
    readAt later.fetched.state.buf ptr = readAt r'.buf ptr
  reads : (successive nextToken n r).Pairwise fun call later => ∀ p ∈ (nextTokenAccesses later.start).reads,
    call.fetched.state.buf.getD p nul = call.start.buf.getD p nul
  copy : ((successive nextToken n r).map fun call =>
      ⟨call.start.cursor, call.fetched.map Reader.cursor (readAt (leftBy r (successive nextToken n r)).buf)⟩) =
    successive (nextString r.buf) n r.cursor

end Definitions

/-! ### What holds from call to call -/

section Successive

variable {σ τ : Type} {next : σ → Fetched σ τ} {s : σ}

theorem successive_invariant {I : σ → Prop} (step : ∀ s, I s → I (next s).state) (n : Nat) (holds : I s) :
    (∀ call ∈ successive next n s, I call.start ∧ I call.fetched.state) ∧ I (leftBy s (successive next n s)) := by
  induction n generalizing s with
  | zero => exact ⟨List.forall_mem_nil _, holds⟩
  | succ n ih =>
    have after := step s holds
    rw [successive]
    cases fetched : next s with
    | token x s' =>
      rw [fetched] at after
      obtain ⟨later, last⟩ := ih after
      exact ⟨List.forall_mem_cons.mpr ⟨⟨holds, after⟩, later⟩, last⟩
    | finished s' | unterminated s' =>
      rw [fetched] at after
      exact ⟨List.forall_mem_cons.mpr ⟨⟨holds, after⟩, List.forall_mem_nil _⟩, after⟩

theorem successive_pairwise {R : Call σ τ → Call σ τ → Prop}
    (after : ∀ s x s' n, next s = .token x s' → ∀ later ∈ successive next n s', R ⟨s, .token x s'⟩ later) (n : Nat) (s : σ) :
    (successive next n s).Pairwise R := by
  induction n generalizing s with
  | zero => exact .nil
  | succ n ih =>
    rw [successive]
    cases fetched : next s with
    | token x s' => exact .cons (after s x s' n fetched) (ih s')
    | finished s' | unterminated s' => exact List.pairwise_singleton ..

theorem parseLoop_successive (t : Tokenizer σ τ) (s : σ) (cmd : Command τ) :
    ∃ n more, (t.parseLoop s cmd).calls.map Prod.snd = (successive t.next n s).map Call.start ++ more ∧
      ∀ s' ∈ more, ∃ s₀, t.next s₀ = .finished s' := by
  have finish (s : σ) (cmd : Command τ) :
      (t.finish s cmd).calls.map Prod.snd = [] ∨ (t.finish s cmd).calls.map Prod.snd = [s] := by
    unfold Tokenizer.finish
    split
    · split <;> exact .inr rfl
    · exact .inl rfl
  have one (s : σ) : (successive t.next 1 s).map Call.start = [s] := by
    rw [successive]
    cases t.next s <;> rfl
  have cons {s s' : σ} {x : τ} (n : Nat) (fetched : t.next s = .token x s') :
      (successive t.next (n + 1) s).map Call.start = s :: (successive t.next n s').map Call.start := by
    rw [successive, fetched]
    rfl
  fun_induction t.parseLoop s cmd with
  | case1 s cmd s₁ fetched => exact ⟨1, [], by simp [one], List.forall_mem_nil _⟩
  | case2 s cmd s₁ fetched =>
    refine ⟨1, (t.finish s₁ cmd).calls.map Prod.snd, by simp [one, Parsed.after], fun s' member => ⟨s, ?_⟩⟩
    rcases finish s₁ cmd with beyond | more
    · simp [beyond] at member
    · simp only [more, List.mem_singleton] at member
      rw [member, fetched]
  | case3 s cmd x s₁ fetched room r operator file twice => exact ⟨1, [], by simp [one], List.forall_mem_nil _⟩
  | case4 s cmd x s₁ fetched room r operator unset s₂ missing =>
    exact ⟨2, [], by simp [cons 1 fetched, one], List.forall_mem_nil _⟩
  | case5 s cmd x s₁ fetched room r operator unset s₂ file found ih =>
    obtain ⟨n, more, calls, past⟩ := ih
    refine ⟨n + 2, more, ?_, past⟩
    rw [cons (n + 1) fetched, cons n (Tokenizer.nextFile_token found)]
    simp [Parsed.after, calls]
  | case6 s cmd x s₁ fetched room plain ih =>
    obtain ⟨n, more, calls, past⟩ := ih
    refine ⟨n + 1, more, ?_, past⟩
    rw [cons n fetched]
    simp [Parsed.after, calls]
  | case7 s cmd x s₁ fetched full =>
    rcases finish s₁ cmd with beyond | more
    · exact ⟨1, [], by simp [one, Parsed.after, beyond], List.forall_mem_nil _⟩
    · exact ⟨2, [], by simp [cons 1 fetched, one, Parsed.after, more], List.forall_mem_nil _⟩

end Successive

/-! ### What a call touches -/

section Touches

variable {α : Type} [Glyph α] {b b' : List α} {n p p' w : Nat} {q : Quoting} {r : Reader α}

theorem skipBlanksReads_from (b : List α) (p : Nat) : ∀ p' ∈ skipBlanksReads b p, p ≤ p' := by
  fun_induction skipBlanks b p with
  | case1 p blank ih =>
    rw [skipBlanksReads, if_pos blank]
    exact List.forall_mem_cons.mpr ⟨Nat.le_refl p, fun p' member => Nat.le_of_succ_le (ih p' member)⟩
  | case2 p visible =>
    rw [skipBlanksReads, if_neg visible]
    simp

theorem wordLoop_order (b : List α) (q : Quoting) (behind : w ≤ p) :
    w ≤ (wordLoop b p w q).w ∧ (wordLoop b p w q).w ≤ (wordLoop b p w q).p :=
  (wordLoop_take b p q (Nat.le_refl w) behind).2

theorem wordLoop_touches (behind : w ≤ p) : (∀ p' ∈ (wordLoopAccesses b p w q).reads, p ≤ p') ∧
    ∀ p' ∈ (wordLoopAccesses b p w q).writes, w ≤ p' ∧ p' < (wordLoop b p w q).w := by
  have ahead (b : List α) (p : Nat) (q : Quoting) :
      ∀ p' ∈ p :: (if (!q.isOpen && charAt b p == '2') = true then [p + 1] else []), p ≤ p' := by
    refine List.forall_mem_cons.mpr ⟨Nat.le_refl p, ?_⟩
    split <;> simp
  have later {reads : List Nat} {p : Nat} (from' : ∀ p' ∈ reads, p + 1 ≤ p') : ∀ p' ∈ reads, p ≤ p' :=
    fun p' member => Nat.le_of_succ_le (from' p' member)
  fun_induction wordLoop b p w q with
  | case1 b p w q ended =>
    rw [wordLoopAccesses, if_pos ended]
    exact ⟨by simp, List.forall_mem_nil _⟩
  | case2 b p w q visible blank =>
    rw [wordLoopAccesses, if_neg visible, if_pos blank]
    exact ⟨by simp, List.forall_mem_nil _⟩
  | case3 b p w q visible solid operator =>
    rw [wordLoopAccesses, if_neg visible, if_neg solid, if_pos operator]
    exact ⟨ahead b p q, List.forall_mem_nil _⟩
  | case4 b p w q visible solid plain q' toggled ih =>
    obtain ⟨reads, writes⟩ := ih (by omega)
    rw [wordLoopAccesses_quote visible solid plain toggled]
    exact ⟨List.forall_mem_append.mpr ⟨ahead b p q, later reads⟩, writes⟩
  | case5 b p w q visible solid plain toggled ih =>
    obtain ⟨reads, writes⟩ := ih (by omega)
    have more := (wordLoop_order (b.set w (b.getD p nul)) q (Nat.succ_le_succ behind)).1
    rw [wordLoopAccesses_glyph visible solid plain toggled]
    refine ⟨List.forall_mem_append.mpr ⟨ahead b p q, later reads⟩, List.forall_mem_cons.mpr ⟨⟨Nat.le_refl w, more⟩, ?_⟩⟩
    exact fun p' member => ⟨Nat.le_of_succ_le (writes p' member).1, (writes p' member).2⟩

theorem getD_set_ne {g : α} (other : w ≠ p) : (b.set w g).getD p nul = b.getD p nul := by
  simp [List.getElem?_set_ne other]

theorem wordLoop_unwritten (untouched : p' ∉ (wordLoopAccesses b p w q).writes) :
    (wordLoop b p w q).buf.getD p' nul = b.getD p' nul := by
  fun_induction wordLoop b p w q with
  | case1 | case2 | case3 => rfl
  | case4 b p w q visible solid plain q' toggled ih =>
    rw [wordLoopAccesses_quote visible solid plain toggled] at untouched
    exact ih untouched
  | case5 b p w q visible solid plain toggled ih =>
    rw [wordLoopAccesses_glyph visible solid plain toggled] at untouched
    have untouched : p' ∉ w :: (wordLoopAccesses (b.set w (b.getD p nul)) (p + 1) (w + 1) q).writes := untouched
    obtain ⟨other, untouched⟩ := not_or.mp (mt List.mem_cons.mpr untouched)
    rw [ih untouched, getD_set_ne (Ne.symm other)]

section Pass

variable (visible : ¬ charAt b p = NUL) (solid : ¬ (!q.isOpen && isBlank (charAt b p)) = true)
  (plain : ¬ (!q.isOpen && startsOperator (charAt b p) (charAt b (p + 1))) = true)
include visible solid plain

theorem wordIndices_quote {q' : Quoting} (toggled : q.toggle (charAt b p) = some q') :
    wordIndices b p w q = (w, p) :: wordIndices b (p + 1) w q' := by
  rw [wordIndices, if_neg visible, if_neg solid, if_neg plain]
  simp only [toggled]

theorem wordIndices_glyph (other : q.toggle (charAt b p) = none) :
    wordIndices b p w q = (w, p) :: wordIndices (b.set w (b.getD p nul)) (p + 1) (w + 1) q := by
  rw [wordIndices, if_neg visible, if_neg solid, if_neg plain]
  simp only [other]

end Pass

theorem wordIndices_order (behind : w ≤ p) : ∀ wp ∈ wordIndices b p w q, wp.1 ≤ wp.2 := by
  fun_induction wordLoop b p w q with
  | case1 b p w q ended =>
    rw [wordIndices, if_pos ended]
    simpa using behind
  | case2 b p w q visible blank =>
    rw [wordIndices, if_neg visible, if_pos blank]
    simpa using behind
  | case3 b p w q visible solid operator =>
    rw [wordIndices, if_neg visible, if_neg solid, if_pos operator]
    simpa using behind
  | case4 b p w q visible solid plain q' toggled ih =>
    rw [wordIndices_quote visible solid plain toggled]
    exact List.forall_mem_cons.mpr ⟨behind, ih (by omega)⟩
  | case5 b p w q visible solid plain toggled ih =>
    rw [wordIndices_glyph visible solid plain toggled]
    exact List.forall_mem_cons.mpr ⟨behind, ih (by omega)⟩

theorem wordIndices_last : (wordIndices b p w q).getLast? = some ((wordLoop b p w q).w, (wordLoop b p w q).p) := by
  have more (b : List α) (p w : Nat) (q : Quoting) (wp : Nat × Nat) :
      (wp :: wordIndices b p w q).getLast? = (wordIndices b p w q).getLast? := by
    rw [wordIndices]
    rfl
  fun_induction wordLoop b p w q with
  | case1 b p w q ended =>
    rw [wordIndices, if_pos ended]
    rfl
  | case2 b p w q visible blank =>
    rw [wordIndices, if_neg visible, if_pos blank]
    rfl
  | case3 b p w q visible solid operator =>
    rw [wordIndices, if_neg visible, if_neg solid, if_pos operator]
    rfl
  | case4 b p w q visible solid plain q' toggled ih =>
    rw [wordIndices_quote visible solid plain toggled, more]
    exact ih
  | case5 b p w q visible solid plain toggled ih =>
    rw [wordIndices_glyph visible solid plain toggled, more]
    exact ih

theorem nextToken_touches (r : Reader α) : (nextTokenAccesses r).All (r.cursor ≤ ·) := by
  have skipped := skipBlanks_ge r.buf r.cursor
  have skipReads := skipBlanksReads_from r.buf r.cursor
  have touches := wordLoop_touches (b := r.buf) (q := {}) (Nat.le_refl (skipBlanks r.buf r.cursor))
  have order := wordLoop_order r.buf {} (Nat.le_refl (skipBlanks r.buf r.cursor))
  unfold nextTokenAccesses
  dsimp only
  generalize skipBlanks r.buf r.cursor = p at *
  have ahead : ∀ p' ∈ (if (charAt r.buf p == '2') = true then [p + 1] else []), r.cursor ≤ p' := by
    split
    · simpa using Nat.le_succ_of_le skipped
    · exact List.forall_mem_nil _
  rw [Accesses.all_append, Accesses.all_reads]
  refine ⟨skipReads, ?_⟩
  by_cases ended : charAt r.buf p = NUL
  · rw [if_pos ended]
    exact Accesses.all_nil
  rw [if_neg ended, Accesses.all_append, Accesses.all_reads]
  refine ⟨ahead, ?_⟩
  by_cases error : (charAt r.buf p == '2' && charAt r.buf (p + 1) == '>') = true
  · rw [if_pos error]
    exact ⟨List.forall_mem_nil _, by simp; omega⟩
  rw [if_neg error]
  by_cases redirects : (charAt r.buf p == '<' || charAt r.buf p == '>') = true
  · rw [if_pos redirects]
    exact ⟨List.forall_mem_nil _, by simp; omega⟩
  rw [if_neg redirects, Accesses.all_append]
  refine ⟨⟨fun p' member => ?_, fun p' member => ?_⟩, ?_⟩
  · exact Nat.le_trans skipped (touches.1 p' member)
  · exact Nat.le_trans skipped (touches.2 p' member).1
  · split
    · exact Accesses.all_nil
    · exact ⟨by simp; omega, by simp; omega⟩

theorem nextToken_unwritten (untouched : p ∉ (nextTokenAccesses r).writes) :
    (nextToken r).state.buf.getD p nul = r.buf.getD p nul := by
  have word : p ∉ (wordLoopAccesses r.buf (skipBlanks r.buf r.cursor) (skipBlanks r.buf r.cursor) {}).writes →
      (wordLoop r.buf (skipBlanks r.buf r.cursor) (skipBlanks r.buf r.cursor) {}).buf.getD p nul = r.buf.getD p nul :=
    wordLoop_unwritten
  unfold nextTokenAccesses at untouched
  unfold nextToken
  dsimp only at untouched ⊢
  generalize skipBlanks r.buf r.cursor = start at *
  by_cases ended : charAt r.buf start = NUL
  · rw [if_pos ended]
    rfl
  rw [if_neg ended] at untouched ⊢
  by_cases error : (charAt r.buf start == '2' && charAt r.buf (start + 1) == '>') = true
  · rw [if_pos error] at untouched ⊢
    simp only [Accesses.writes_append, List.nil_append, List.mem_singleton] at untouched
    exact getD_set_ne (Ne.symm untouched)
  rw [if_neg error] at untouched ⊢
  by_cases redirects : (charAt r.buf start == '<' || charAt r.buf start == '>') = true
  · rw [if_pos redirects] at untouched ⊢
    simp only [Accesses.writes_append, List.nil_append, List.mem_singleton] at untouched
    exact getD_set_ne (Ne.symm untouched)
  rw [if_neg redirects] at untouched ⊢
  simp only [Accesses.writes_append, List.nil_append, List.mem_append, not_or] at untouched
  obtain ⟨before, last⟩ := untouched
  split
  · exact word before
  · rename_i complete
    rw [if_neg complete, List.mem_singleton] at last
    exact (getD_set_ne (Ne.symm last)).trans (word before)

def SameFrom (n : Nat) (b b' : List α) : Prop := ∀ p, n ≤ p → b.getD p nul = b'.getD p nul

namespace SameFrom

theorem trans {b'' : List α} (same : SameFrom n b b') (same' : SameFrom n b' b'') : SameFrom n b b'' := fun p behind =>
  (same p behind).trans (same' p behind)

theorem mono (same : SameFrom n b b') (later : n ≤ p) : SameFrom p b b' := fun p' behind =>
  same p' (Nat.le_trans later behind)

theorem charAt (same : SameFrom n b b') (behind : n ≤ p) : charAt b p = charAt b' p := congrArg look (same p behind)

theorem set {g : α} (before : w < n) : SameFrom n (b.set w g) b := fun _ behind =>
  getD_set_ne (Nat.ne_of_lt (Nat.lt_of_lt_of_le before behind))

end SameFrom

theorem wordLoop_ahead (behind : w ≤ p) : SameFrom (wordLoop b p w q).p (wordLoop b p w q).buf b := by
  intro p' ahead
  refine wordLoop_unwritten fun written => ?_
  have before := ((wordLoop_touches behind).2 p' written).2
  have order := (wordLoop_order b q behind).2
  omega

end Touches

/-! ### The copy -/

section Copy

variable {α : Type} [Glyph α] {b b' : List α} {n p w ptr : Nat} {q : Quoting} {r : Reader α} {text : List α}

theorem skipBlanks_same (same : SameFrom p b b') : skipBlanks b p = skipBlanks b' p := by
  fun_induction skipBlanks b p with
  | case1 p blank ih =>
    rw [ih (same.mono (Nat.le_succ p))]
    rw [same.charAt (Nat.le_refl p)] at blank
    conv => rhs; unfold skipBlanks
    rw [if_pos blank]
  | case2 p visible =>
    rw [same.charAt (Nat.le_refl p)] at visible
    unfold skipBlanks
    rw [if_neg visible]

section Pass

variable (visible : ¬ charAt b p = NUL) (solid : ¬ (!q.isOpen && isBlank (charAt b p)) = true)
  (plain : ¬ (!q.isOpen && startsOperator (charAt b p) (charAt b (p + 1))) = true)
include visible solid plain

theorem wordCopy_quote {q' : Quoting} (toggled : q.toggle (charAt b p) = some q') :
    wordCopy b p q = wordCopy b (p + 1) q' := by
  conv => lhs; rw [wordCopy, if_neg visible, if_neg solid, if_neg plain]
  simp only [toggled]

theorem wordCopy_glyph (other : q.toggle (charAt b p) = none) : wordCopy b p q =
    { wordCopy b (p + 1) q with word := b.getD p nul :: (wordCopy b (p + 1) q).word } := by
  conv => lhs; rw [wordCopy, if_neg visible, if_neg solid, if_neg plain]
  simp only [other]

end Pass

theorem wordCopy_same (same : SameFrom p b b') : wordCopy b p q = wordCopy b' p q := by
  have here := same.charAt (Nat.le_refl p)
  have next := same.charAt (Nat.le_succ p)
  fun_induction wordCopy b p q with
  | case1 p q ended =>
    rw [here] at ended
    rw [wordCopy, if_pos ended]
  | case2 p q visible blank =>
    rw [here] at visible blank
    rw [wordCopy, if_neg visible, if_pos blank]
  | case3 p q visible solid operator =>
    rw [here] at visible solid operator
    rw [next] at operator
    rw [wordCopy, if_neg visible, if_neg solid, if_pos operator]
  | case4 p q visible solid plain q' toggled ih =>
    have later := same.mono (Nat.le_succ p)
    rw [ih later (later.charAt (Nat.le_refl _)) (later.charAt (Nat.le_succ _))]
    rw [here] at visible solid plain toggled
    rw [next] at plain
    exact (wordCopy_quote visible solid plain toggled).symm
  | case5 p q visible solid plain toggled copied ih =>
    have later := same.mono (Nat.le_succ p)
    have rest : copied = wordCopy b' (p + 1) q := ih later (later.charAt (Nat.le_refl _)) (later.charAt (Nat.le_succ _))
    rw [rest]
    rw [here] at visible solid plain toggled
    rw [next] at plain
    rw [wordCopy_glyph visible solid plain toggled, same p (Nat.le_refl p)]

theorem wordCopy_ge (b : List α) (p : Nat) (q : Quoting) : p ≤ (wordCopy b p q).p := by
  fun_induction wordCopy b p q with
  | case1 | case2 | case3 => exact Nat.le_refl _
  | case4 p q _ _ _ q' toggled ih => exact Nat.le_of_succ_le ih
  | case5 p q _ _ _ plain copied ih => exact Nat.le_of_succ_le ih

theorem nextString_same (same : SameFrom p b b') : nextString b p = nextString b' p := by
  have skipped := skipBlanks_same same
  have later := same.mono (skipBlanks_ge b p)
  have copied := wordCopy_same (q := {}) later
  unfold nextString
  dsimp only
  rw [← skipped, ← copied, later.charAt (Nat.le_refl _), later.charAt (Nat.le_succ _), later _ (Nat.le_refl _),
    later _ (Nat.le_succ _), later.charAt (wordCopy_ge ..)]

theorem take_getD (inside : p < b.length) : b.take (p + 1) = b.take p ++ [b.getD p nul] := by
  rw [List.take_add_one]
  simp [inside]

theorem wordLoop_copy (behind : w ≤ p) : (wordLoop b p w q).p = (wordCopy b p q).p ∧
    (wordLoop b p w q).quoting = (wordCopy b p q).quoting ∧ (wordLoop b p w q).w = w + (wordCopy b p q).word.length ∧
    (wordLoop b p w q).buf.take (wordLoop b p w q).w = b.take w ++ (wordCopy b p q).word ∧
    ∀ g ∈ (wordCopy b p q).word, g ≠ nul := by
  fun_induction wordLoop b p w q with
  | case1 b p w q ended =>
    rw [wordCopy, if_pos ended]
    simp
  | case2 b p w q visible blank =>
    rw [wordCopy, if_neg visible, if_pos blank]
    simp
  | case3 b p w q visible solid operator =>
    rw [wordCopy, if_neg visible, if_neg solid, if_pos operator]
    simp
  | case4 b p w q visible solid plain q' toggled ih =>
    rw [wordCopy_quote visible solid plain toggled]
    exact ih (by omega)
  | case5 b p w q visible solid plain toggled ih =>
    have inside := lt_length_of_charAt visible
    -- the glyph that is copied to `w` is not read again
    have same : wordCopy (b.set w (b.getD p nul)) (p + 1) q = wordCopy b (p + 1) q :=
      wordCopy_same (SameFrom.set (by omega))
    have written : (b.set w (b.getD p nul)).take (w + 1) = b.take w ++ [b.getD p nul] := by
      rw [List.take_add_one, List.take_set_of_le (Nat.le_refl w)]
      simp [Nat.lt_of_le_of_lt behind inside]
    obtain ⟨place, quoting, length, word, noNul⟩ := ih (by omega)
    rw [same] at place quoting length word noNul
    rw [wordCopy_glyph visible solid plain toggled]
    refine ⟨place, quoting, ?_, ?_, List.forall_mem_cons.mpr ⟨?_, noNul⟩⟩
    · rw [length, List.length_cons]
      omega
    · rw [word, written, List.append_assoc, List.singleton_append]
    · exact fun ended => visible (look_eq_nul.mpr ended)

theorem sameFrom_set_nul (ended : charAt b w = NUL) : SameFrom n (b.set w nul) b := by
  intro p _
  by_cases same : w = p
  · subst same
    have here : b.getD w nul = nul := look_eq_nul.mp ended
    have there : (b.set w nul).getD w nul = nul := look_eq_nul.mp (charAt_set_nul ended)
    rw [here, there]
  · exact getD_set_ne same

theorem placed_set {front : List α} (cut : b.take w = front ++ text) (start : front.length = ptr)
    (length : w = ptr + text.length) (noNul : ∀ g ∈ text, g ≠ nul) (within : w ≤ n) : Placed (b.set w nul) n ptr text := by
  subst start length
  have split : b.set (front.length + text.length) nul =
      front ++ (text ++ (b.drop (front.length + text.length)).set 0 nul) := by
    conv => lhs; rw [← List.take_append_drop (front.length + text.length) b, cut, List.append_assoc]
    rw [List.set_append_right _ _ (by omega), List.set_append_right _ _ (by omega)]
    simp
  refine placed_of_eq split ?_ noNul within
  cases b.drop (front.length + text.length) <;> simp

theorem nextToken_cases (r : Reader α) :
    (∃ p, nextToken r = .finished ⟨r.buf, p⟩ ∧ nextString r.buf r.cursor = .finished p) ∨
    (∃ b, nextToken r = .unterminated ⟨b, r.cursor⟩ ∧ nextString r.buf r.cursor = .unterminated r.cursor) ∨
    ∃ ptr r' text, nextToken r = .token ptr r' ∧ nextString r.buf r.cursor = .token text r'.cursor ∧
      Placed r'.buf r'.cursor ptr text ∧ SameFrom r'.cursor r'.buf r.buf := by
  have copy := wordLoop_copy (b := r.buf) (q := {}) (Nat.le_refl (skipBlanks r.buf r.cursor))
  have ahead := wordLoop_ahead (b := r.buf) (q := {}) (Nat.le_refl (skipBlanks r.buf r.cursor))
  have order := wordLoop_order r.buf {} (Nat.le_refl (skipBlanks r.buf r.cursor))
  unfold nextToken nextString
  dsimp only
  generalize skipBlanks r.buf r.cursor = p at *
  by_cases ended : charAt r.buf p = NUL
  · rw [if_pos ended, if_pos ended]
    exact .inl ⟨p, rfl, rfl⟩
  have inside := lt_length_of_charAt ended
  have start : (r.buf.take p).length = p := List.length_take_of_le (Nat.le_of_lt inside)
  have visible : r.buf.getD p nul ≠ nul := mt look_eq_nul.mpr ended
  rw [if_neg ended, if_neg ended]
  by_cases error : (charAt r.buf p == '2' && charAt r.buf (p + 1) == '>') = true
  · rw [if_pos error, if_pos error]
    simp only [Bool.and_eq_true, beq_iff_eq] at error
    have ended' : charAt r.buf (p + 1) ≠ NUL := by rw [error.2]; decide
    have visible' : r.buf.getD (p + 1) nul ≠ nul := mt look_eq_nul.mpr ended'
    have cut : r.buf.take (p + 2) = r.buf.take p ++ [r.buf.getD p nul, r.buf.getD (p + 1) nul] := by
      rw [take_getD (lt_length_of_charAt ended'), take_getD inside, List.append_assoc]
      rfl
    refine .inr (.inr ⟨p, _, _, rfl, rfl, placed_set cut start rfl ?_ (Nat.le_succ _), SameFrom.set (Nat.lt_succ_self _)⟩)
    exact List.forall_mem_cons.mpr ⟨visible, List.forall_mem_singleton.mpr visible'⟩
  rw [if_neg error, if_neg error]
  by_cases redirects : (charAt r.buf p == '<' || charAt r.buf p == '>') = true
  · rw [if_pos redirects, if_pos redirects]
    refine .inr (.inr ⟨p, _, _, rfl, rfl, placed_set (take_getD inside) start rfl ?_ (Nat.le_succ _), ?_⟩)
    · exact List.forall_mem_singleton.mpr visible
    · exact SameFrom.set (Nat.lt_succ_self _)
  rw [if_neg redirects, if_neg redirects]
  obtain ⟨place, quoting, length, word, noNul⟩ := copy
  rw [quoting]
  by_cases isOpen : (wordCopy r.buf p {}).quoting.isOpen = true
  · rw [if_pos isOpen, if_pos isOpen]
    exact .inr (.inl ⟨_, rfl, rfl⟩)
  rw [if_neg isOpen, if_neg isOpen, ← place, ← ahead.charAt (Nat.le_refl _)]
  refine .inr (.inr ⟨p, _, _, rfl, rfl, placed_set word start length noNul ?_, ?_⟩)
  · dsimp only
    split <;> omega
  · dsimp only
    split
    · rename_i last
      -- the cursor stays at the NUL, which is also that of the word if no quote was left out
      rcases Nat.lt_or_eq_of_le order.2 with shrunk | whole
      · exact (SameFrom.set shrunk).trans ahead
      · rw [whole]
        exact (sameFrom_set_nul last).trans ahead
    · exact (SameFrom.set (by omega)).trans (ahead.mono (Nat.le_succ _))

theorem nextToken_token {r' : Reader α} (fetched : nextToken r = .token ptr r') :
    (∃ text, Placed r'.buf r'.cursor ptr text) ∧ SameFrom r'.cursor r'.buf r.buf := by
  rcases nextToken_cases r with ⟨_, finished, _⟩ | ⟨_, unterminated, _⟩ | ⟨_, _, text, token, _, placed, rest⟩
  · exact nomatch fetched.symm.trans finished
  · exact nomatch fetched.symm.trans unterminated
  · cases fetched.symm.trans token
    exact ⟨⟨text, placed⟩, rest⟩

end Copy

/-! ### The calls -/

section Calls

variable {α : Type} [Glyph α] {b : List α} {n c ptr : Nat} {r : Reader α} {text : List α}

theorem successive_placed (n : Nat) (placed : Placed r.buf r.cursor ptr text) :
    (∀ call ∈ successive nextToken n r, readAt call.fetched.state.buf ptr = text) ∧
      readAt (leftBy r (successive nextToken n r)).buf ptr = text := by
  have step (r : Reader α) (placed : Placed r.buf r.cursor ptr text) :
      Placed (nextToken r).state.buf (nextToken r).state.cursor ptr text :=
    placed.keep (nextToken_take r).1 nextToken_ends (nextToken_take r).2
  obtain ⟨calls, last⟩ := successive_invariant step n placed
  exact ⟨fun call member => (calls call member).2.read, last.read⟩

theorem successive_cursor (n : Nat) (r : Reader α) : ∀ call ∈ successive nextToken n r, r.cursor ≤ call.start.cursor := by
  have step (r' : Reader α) (behind : r.cursor ≤ r'.cursor) : r.cursor ≤ (nextToken r').state.cursor :=
    Nat.le_trans behind (nextToken_take r').2
  exact fun call member => ((successive_invariant step n (Nat.le_refl _)).1 call member).1

/-- The calls find in a buffer what they find on a copy of what is behind the cursor. -/
theorem successive_copy (n : Nat) (same : SameFrom r.cursor r.buf b) :
    ((successive nextToken n r).map fun call =>
      ⟨call.start.cursor, call.fetched.map Reader.cursor (readAt (leftBy r (successive nextToken n r)).buf)⟩) =
    successive (nextString b) n r.cursor := by
  induction n generalizing r with
  | zero => rfl
  | succ n ih =>
    rw [successive, successive, ← nextString_same same]
    rcases nextToken_cases r with ⟨p, finished, copy⟩ | ⟨b', unterminated, copy⟩ | ⟨ptr, r', text, token, copy, placed, rest⟩
    · rw [finished, copy]
      rfl
    · rw [unterminated, copy]
      rfl
    · have behind : r.cursor ≤ r'.cursor := by
        have order := (nextToken_take r).2
        rwa [token] at order
      have later := ih (rest.trans (same.mono behind))
      have found := (successive_placed n placed).2
      have here : (⟨r.cursor, .token (readAt (leftBy r' (successive nextToken n r')).buf ptr) r'.cursor⟩ : Call Nat (List α)) =
          ⟨r.cursor, .token text r'.cursor⟩ := by rw [found]
      rw [token, copy]
      exact congrArg₂ List.cons here later

theorem nextToken_again {r' : Reader α} (finished : nextToken r = .finished r') : nextToken r' = .finished r' := by
  unfold nextToken at finished
  dsimp only at finished
  split_ifs at finished with ended
  cases finished
  exact nextToken_finished ended

theorem parseCommand_successive (b : List α) (input : Nat) :
    ∃ n more, (parseCommand b input).calls.map Prod.snd = (successive nextToken n ⟨b, input⟩).map Call.start ++ more ∧
      ∀ r ∈ more, nextToken r = .finished r := by
  obtain ⟨n, more, calls, past⟩ := parseLoop_successive inPlace ⟨b, input⟩ {}
  refine ⟨n, more, calls, fun r member => ?_⟩
  obtain ⟨r₀, finished⟩ := past r member
  exact nextToken_again finished

/-- Successive calls never damage what they have returned. -/
theorem successive_undamaged (r : Reader α) (n : Nat) : Undamaged r n where
  writes call _ := (nextToken_touches call.start).2
  order call _ := by
    unfold nextTokenIndices
    dsimp only
    split_ifs
    · exact List.forall_mem_nil _
    · exact List.forall_mem_nil _
    · exact wordIndices_order (Nat.le_refl _)
  tokens := by
    refine successive_pairwise (fun r ptr r' n fetched later member ptr' r'' same => ?_) n r
    cases same
    obtain ⟨⟨text, placed⟩, _⟩ := nextToken_token fetched
    rw [(successive_placed n placed).1 later member, placed.read]
  reads := by
    refine successive_pairwise (fun r ptr r' n fetched later member p read => ?_) n r
    have behind := Nat.le_trans (successive_cursor n r' later member) ((nextToken_touches later.start).1 p read)
    exact (nextToken_token fetched).2 p behind
  copy := successive_copy n fun _ _ => rfl

end Calls

end MyShell.Parser
