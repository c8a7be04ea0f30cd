import MyShell.Text
import Mathlib.Data.List.DropRight
import Mathlib.Data.List.TakeWhile

/-! # Tokens

`next_token` of `parser.c`. It takes the tokens of a line out of its buffer in place: quote
characters are squeezed out, and the character after a token is overwritten with its NUL.

`nextAlone` is what it is meant to do to a line that nothing follows, as a function on the text
that is left. `nextToken_reads` relates the two wherever the line stands in a buffer. -/

namespace MyShell.Parser

/-- What a letter looks like that is never compared with anything else. -/
def LETTER : Char := 'x'

/-- What a buffer holds. The code compares the character `look` of it, and writes NULs; its own buffers
hold plain characters. -/
class Glyph (α : Type) where
  plain : Char → α
  look : α → Char
  look_plain (c : Char) : look (plain c) = c
  plain_look {g : α} (special : look g ≠ LETTER) : plain (look g) = g

export Glyph (plain look look_plain plain_look)

instance : Glyph Char := ⟨id, id, fun _ => rfl, fun _ => rfl⟩

/-- `in_single` and `in_double`. -/
structure Quoting where
  inSingle : Bool := false
  inDouble : Bool := false
deriving DecidableEq

def Quoting.isOpen (q : Quoting) : Bool := q.inSingle || q.inDouble

/-- The quoting after a character that opens or closes a quote. -/
def Quoting.toggle (q : Quoting) (c : Char) : Option Quoting :=
  if c == '\'' && !q.inDouble then some { q with inSingle := !q.inSingle }
  else if c == '"' && !q.inSingle then some { q with inDouble := !q.inDouble }
  else none

def isBlank (c : Char) : Bool := c == ' ' || c == '\t'

/-- A redirection operator starts with `c`, where `c'` is the character after it. -/
def startsOperator (c c' : Char) : Bool := c == '<' || c == '>' || (c == '2' && c' == '>')

/-- What a call of `next_token` returns: a token, NULL, or NULL with `quote_error` set. -/
inductive Fetched (σ τ : Type) where
  | token (token : τ) (s : σ)
  | finished (s : σ)
  | unterminated (s : σ)

inductive Fetched.Rel {σ σ' τ τ' : Type} (S : σ → σ' → Prop) (U : σ → Prop) (T : σ → σ' → τ → τ' → Prop) :
    Fetched σ τ → Fetched σ' τ' → Prop where
  | token {x x' s s'} (states : S s s') (tokens : T s s' x x') : Rel S U T (.token x s) (.token x' s')
  | finished {s s'} (states : S s s') : Rel S U T (.finished s) (.finished s')
  | unterminated {s s'} (state : U s) : Rel S U T (.unterminated s) (.unterminated s')

theorem Fetched.Rel.imp {σ σ' τ τ' : Type} {S S' : σ → σ' → Prop} {U U' : σ → Prop} {T T' : σ → σ' → τ → τ' → Prop}
    {fetched : Fetched σ τ} {fetched' : Fetched σ' τ'} (related : Rel S U T fetched fetched')
    (states : ∀ {s s'}, S s s' → S' s s') (state : ∀ {s}, U s → U' s)
    (tokens : ∀ {s s' x y}, T s s' x y → T' s s' x y) : Rel S' U' T' fetched fetched' := by
  cases related with
  | token here same => exact .token (states here) (tokens same)
  | finished here => exact .finished (states here)
  | unterminated here => exact .unterminated (state here)

def Fetched.state {σ τ : Type} : Fetched σ τ → σ
  | .token _ s | .finished s | .unterminated s => s

variable {α : Type} [Glyph α]

def nul : α := plain NUL

theorem look_eq_nul {g : α} : look g = NUL ↔ g = nul := by
  constructor
  · intro ended
    rw [← plain_look (g := g) (by rw [ended]; decide), ended]
    rfl
  · rintro rfl
    exact look_plain NUL

/-- The character at a place of a buffer, which is filled with NULs beyond its end. -/
def charAt (b : List α) (p : Nat) : Char := look (b.getD p nul)

@[simp] theorem look_nul : look (nul : α) = NUL := look_eq_nul.mpr rfl

@[simp] theorem charAt_nil (p : Nat) : charAt ([] : List α) p = NUL := by simp [charAt]

@[simp] theorem charAt_cons_zero (g : α) (s : List α) : charAt (g :: s) 0 = look g := rfl

@[simp] theorem charAt_cons_succ (g : α) (s : List α) (p : Nat) : charAt (g :: s) (p + 1) = charAt s p := rfl

theorem charAt_append (front s : List α) (p : Nat) : charAt (front ++ s) (front.length + p) = charAt s p := by
  simp [charAt, List.getElem?_append_right]

theorem charAt_length_append (front s : List α) : charAt (front ++ s) front.length = charAt s 0 :=
  charAt_append front s 0

theorem charAt_drop (b : List α) (n p : Nat) : charAt (b.drop n) p = charAt b (n + p) := by
  simp [charAt]

theorem charAt_drop_zero (b : List α) (n : Nat) : charAt (b.drop n) 0 = charAt b n := charAt_drop b n 0

theorem lt_length_of_charAt {b : List α} {p : Nat} (visible : charAt b p ≠ NUL) : p < b.length := by
  by_contra beyond
  exact visible (by simp [charAt, List.getElem?_eq_none (Nat.not_lt.mp beyond)])

theorem visible_of_noNul {line : List Char} (noNul : NUL ∉ line) : ∀ c ∈ line, c ≠ NUL := fun _ member =>
  ne_of_mem_of_not_mem member noNul

theorem isBlank_visible {c : Char} (blank : isBlank c = true) : c ≠ NUL := by
  rintro rfl
  exact absurd blank (by decide)

/-! ### In place -/

/-- The buffer and `*cursor`. -/
structure Reader (α : Type) where
  buf : List α
  cursor : Nat

def skipBlanks (b : List α) (p : Nat) : Nat :=
  if isBlank (charAt b p) then skipBlanks b (p + 1) else p
termination_by b.length - p
decreasing_by
  rename_i blank
  have := lt_length_of_charAt (isBlank_visible blank)
  omega

structure WordState (α : Type) where
  buf : List α
  p : Nat
  w : Nat
  quoting : Quoting

/-- The loop that builds a word in place: `*w = *p` for every character that is not a quote. -/
def wordLoop (b : List α) (p w : Nat) (q : Quoting) : WordState α :=
  if charAt b p = NUL then ⟨b, p, w, q⟩
  else if !q.isOpen && isBlank (charAt b p) then ⟨b, p, w, q⟩
  else if !q.isOpen && startsOperator (charAt b p) (charAt b (p + 1)) then ⟨b, p, w, q⟩
  else
    match q.toggle (charAt b p) with
    | some q => wordLoop b (p + 1) w q
    | none => wordLoop (b.set w (b.getD p nul)) (p + 1) (w + 1) q
termination_by b.length - p
decreasing_by
  · rename_i visible _ _
    have := lt_length_of_charAt visible
    omega
  · rename_i visible _ _
    have := lt_length_of_charAt visible
    rw [List.length_set]
    omega

def nextToken (r : Reader α) : Fetched (Reader α) Nat :=
  let p := skipBlanks r.buf r.cursor
  if charAt r.buf p = NUL then .finished { r with cursor := p }
  else if charAt r.buf p == '2' && charAt r.buf (p + 1) == '>' then .token p ⟨r.buf.set (p + 2) nul, p + 3⟩
  else if charAt r.buf p == '<' || charAt r.buf p == '>' then .token p ⟨r.buf.set (p + 1) nul, p + 2⟩
  else
    let word := wordLoop r.buf p p {}
    if word.quoting.isOpen then .unterminated { r with buf := word.buf }
    else
      let cursor := if charAt word.buf word.p = NUL then word.p else word.p + 1
      .token p ⟨word.buf.set word.w nul, cursor⟩

/-! ### On the text that is left -/

structure Scanned (α : Type) where
  word : List α
  rest : List α
  quoting : Quoting

/-- The word at the head of a line, what follows it, and the quoting at its end. -/
def scanWord : List α → Quoting → Scanned α
  | [], q => ⟨[], [], q⟩
  | g :: s, q =>
    if !q.isOpen && (isBlank (look g) || startsOperator (look g) (charAt s 0)) then ⟨[], g :: s, q⟩
    else
      match q.toggle (look g) with
      | some q => scanWord s q
      | none =>
        let scanned := scanWord s q
        { scanned with word := g :: scanned.word }

/-- The rest of a line after its first `n` places; none is left past its terminator. -/
def landAt (s : List α) (n : Nat) : Option (List α) := if n ≤ s.length then some (s.drop n) else none

def dropBlanks (s : List α) : List α := s.dropWhile (isBlank ∘ look)

/-- The token at the head of a line that starts with none of the blanks. -/
def headToken (s : List α) : Fetched (Option (List α)) (List α) :=
  if charAt s 0 == '2' && charAt s 1 == '>' then .token (s.take 2) (landAt s 3)
  else if charAt s 0 == '<' || charAt s 0 == '>' then .token (s.take 1) (landAt s 2)
  else
    let scanned := scanWord s {}
    if scanned.quoting.isOpen then .unterminated (some scanned.rest)
    else .token scanned.word (some scanned.rest.tail)

def nextAlone : Option (List α) → Fetched (Option (List α)) (List α)
  | none => .finished none
  | some s => if dropBlanks s = [] then .finished (some []) else headToken (dropBlanks s)

/-! ### What a call leaves alone -/

theorem skipBlanks_ge (b : List α) (p : Nat) : p ≤ skipBlanks b p := by
  fun_induction skipBlanks b p with
  | case1 p blank ih => omega
  | case2 p visible => omega

theorem wordLoop_take {n : Nat} (b : List α) (p : Nat) {w : Nat} (q : Quoting) (before : n ≤ w) (behind : w ≤ p) :
    (wordLoop b p w q).buf.take n = b.take n ∧ n ≤ (wordLoop b p w q).w ∧
      (wordLoop b p w q).w ≤ (wordLoop b p w q).p := by
  fun_induction wordLoop b p w q with
  | case1 | case2 | case3 => exact ⟨rfl, before, behind⟩
  | case4 b p w q _ _ _ q' toggled ih => exact ih before (by omega)
  | case5 b p w q _ _ _ plain ih =>
    obtain ⟨kept, order⟩ := ih (by omega) (by omega)
    exact ⟨by rw [kept, List.take_set_of_le before], order⟩

theorem nextToken_take (r : Reader α) :
    (nextToken r).state.buf.take r.cursor = r.buf.take r.cursor ∧ r.cursor ≤ (nextToken r).state.cursor := by
  have skipped := skipBlanks_ge r.buf r.cursor
  have word := wordLoop_take (n := r.cursor) r.buf (skipBlanks r.buf r.cursor) {} skipped (Nat.le_refl _)
  unfold nextToken
  dsimp only
  split_ifs <;> simp only [Fetched.state]
  · exact ⟨trivial, skipped⟩
  · exact ⟨List.take_set_of_le (by omega), by omega⟩
  · exact ⟨List.take_set_of_le (by omega), by omega⟩
  · exact ⟨word.1, Nat.le_refl _⟩
  · rw [List.take_set_of_le word.2.1]
    exact ⟨word.1, by omega⟩
  · rw [List.take_set_of_le word.2.1]
    exact ⟨word.1, by omega⟩

theorem skipBlanks_visible {b : List α} {p : Nat} (visible : isBlank (charAt b p) = false) : skipBlanks b p = p := by
  unfold skipBlanks
  simp [visible]

theorem nextToken_finished {r : Reader α} (ended : charAt r.buf r.cursor = NUL) : nextToken r = .finished r := by
  have visible : isBlank (charAt r.buf r.cursor) = false := by rw [ended]; rfl
  simp [nextToken, skipBlanks_visible visible, ended]

theorem skipBlanks_eq (b : List α) (p : Nat) :
    skipBlanks b p = p + ((b.drop p).takeWhile (isBlank ∘ look)).length := by
  fun_induction skipBlanks b p with
  | case1 p blank ih =>
    have inside := lt_length_of_charAt (isBlank_visible blank)
    have line := List.drop_eq_getElem_cons inside
    rw [← charAt_drop_zero, line, charAt_cons_zero] at blank
    rw [ih, line, List.takeWhile_cons_of_pos (by simpa using blank), List.length_cons]
    omega
  | case2 p visible =>
    rw [← charAt_drop_zero] at visible
    cases same : b.drop p with
    | nil => rfl
    | cons g s =>
      rw [same, charAt_cons_zero] at visible
      rw [List.takeWhile_cons_of_neg (by simpa using visible)]
      rfl

theorem drop_skipBlanks (b : List α) (p : Nat) : b.drop (skipBlanks b p) = dropBlanks (b.drop p) := by
  have left (blanks s : List α) : (blanks ++ s).drop blanks.length = s := List.drop_left' rfl
  have cut := left ((b.drop p).takeWhile (isBlank ∘ look)) ((b.drop p).dropWhile (isBlank ∘ look))
  rw [List.takeWhile_append_dropWhile] at cut
  rw [skipBlanks_eq, ← List.drop_drop, cut]
  rfl

/-! ### A line between two parts of a buffer -/

section Standing

-- what precedes the line, and its terminator with what follows
variable (front tail : List α)

/-- The buffer when a line of `size` characters stands in it and `nextAlone` has something of the
line left. -/
inductive Standing (size : Nat) (r : Reader α) : Option (List α) → Prop where
  | inside (consumed s : List α) (buf : r.buf = front ++ consumed ++ (s ++ tail))
      (cursor : r.cursor = (front ++ consumed).length) (whole : consumed.length + s.length = size)
      (plain : ∀ g ∈ s, g ≠ nul) : Standing size r (some s)
  | past (consumed blanks : List α) (buf : r.buf = front ++ consumed ++ tail) (whole : consumed.length = size)
      (beyond : (front ++ consumed).length < r.cursor) (left : tail.tail = blanks ++ r.buf.drop r.cursor)
      (blank : ∀ g ∈ blanks, isBlank (look g)) : Standing size r none

end Standing

structure Placed (b : List α) (n ptr : Nat) (text : List α) : Prop where
  within : ptr + text.length ≤ n
  here : (b.drop ptr).take text.length = text
  ended : charAt b (ptr + text.length) = NUL
  plain : ∀ g ∈ text, g ≠ nul

/-- The C string at a place of a buffer. -/
def readAt (b : List α) (ptr : Nat) : List α := (b.drop ptr).takeWhile (look · ≠ NUL)

variable {b b' front tail s text : List α} {n n' ptr size : Nat}

theorem charAt_take {p : Nat} (within : p < n) : charAt (b.take n) p = charAt b p := by
  simp [charAt, List.getElem?_take_of_lt within]

theorem takeWhile_visible (plain : ∀ g ∈ text, g ≠ nul) (ended : charAt tail 0 = NUL) :
    (text ++ tail).takeWhile (look · ≠ NUL) = text := by
  rw [List.takeWhile_append_of_pos (by simpa [look_eq_nul] using plain)]
  cases tail with
  | nil => simp
  | cons g tail =>
    have last : look g = NUL := ended
    simp [last]

theorem Placed.read (placed : Placed b n ptr text) : readAt b ptr = text := by
  have ended : charAt ((b.drop ptr).drop text.length) 0 = NUL := by
    rw [List.drop_drop, charAt_drop]
    exact placed.ended
  unfold readAt
  rw [← List.take_append_drop text.length (b.drop ptr), placed.here]
  exact takeWhile_visible placed.plain ended

theorem Placed.keep (placed : Placed b n ptr text) (kept : b'.take n = b.take n)
    (ended : charAt b n = NUL → charAt b' n = NUL) (more : n ≤ n') : Placed b' n' ptr text where
  within := Nat.le_trans placed.within more
  here := by
    have bound : text.length ≤ n - ptr := Nat.le_sub_of_add_le' placed.within
    have cut (c : List α) : (c.drop ptr).take text.length = ((c.take n).drop ptr).take text.length := by
      rw [List.drop_take, List.take_take, Nat.min_eq_left bound]
    rw [cut, kept, ← cut]
    exact placed.here
  ended := by
    rcases Nat.lt_or_eq_of_le placed.within with before | last
    · rw [← charAt_take before, kept, charAt_take before]
      exact placed.ended
    · rw [last]
      exact ended (last ▸ placed.ended)
  plain := placed.plain

theorem placed_of_eq {b before after : List α} (buf : b = before ++ (text ++ after)) (ended : charAt after 0 = NUL)
    (plain : ∀ g ∈ text, g ≠ nul) (within : before.length + text.length ≤ n) :
    Placed b n before.length text := by
  subst buf
  refine ⟨within, by simp, ?_, plain⟩
  rw [charAt_append, ← ended, ← charAt_length_append text after]

/-! ### `nextToken` against `nextAlone` -/

theorem dropBlanks_head {g : α} (head : dropBlanks s = g :: text) : isBlank (look g) = false := by
  have visible := List.head?_dropWhile_not (isBlank ∘ look) s
  rw [show s.dropWhile (isBlank ∘ look) = g :: text from head] at visible
  simpa using visible

theorem scanWord_subset (s : List α) (q : Quoting) :
    (scanWord s q).word ⊆ s ∧ (scanWord s q).rest ⊆ s := by
  fun_induction scanWord s q with
  | case1 q => simp
  | case2 g s q stops => simp
  | case3 g s q goesOn q' toggled ih => exact ⟨fun _ member => .tail _ (ih.1 member), fun _ member => .tail _ (ih.2 member)⟩
  | case4 g s q goesOn plain scanned ih =>
    exact ⟨List.cons_subset_cons g ih.1, fun _ member => .tail _ (ih.2 member)⟩

theorem scanWord_length (s : List α) (q : Quoting) : (scanWord s q).rest.length ≤ s.length := by
  fun_induction scanWord s q with
  | case1 | case2 => simp
  | case3 g s q goesOn q' toggled ih => exact Nat.le_succ_of_le ih
  | case4 g s q goesOn plain scanned ih => exact Nat.le_succ_of_le ih

theorem nextAlone_length (left : Option (List α)) : ((nextAlone left).state.getD []).length ≤ (left.getD []).length := by
  cases left with
  | none => exact Nat.le_refl _
  | some s =>
    have skipped : (dropBlanks s).length ≤ s.length := List.length_dropWhile_le ..
    have scanned := scanWord_length (dropBlanks s) {}
    have landed (n : Nat) : ((landAt (dropBlanks s) n).getD []).length ≤ (dropBlanks s).length := by
      unfold landAt
      split <;> simp
    unfold nextAlone headToken
    dsimp only
    split_ifs <;> simp only [Fetched.state, Option.getD_some, List.length_nil, List.length_tail]
    · exact Nat.zero_le _
    · exact Nat.le_trans (landed 3) skipped
    · exact Nat.le_trans (landed 2) skipped
    · omega
    · omega

def reached (front : List α) (size : Nat) (left : Option (List α)) : Nat :=
  front.length + size - (left.getD []).length

section Reads

variable (ends : charAt tail 0 = NUL)
include ends

theorem charAt_line {p : Nat} (within : p ≤ s.length) : charAt (s ++ tail) p = charAt s p := by
  rcases Nat.lt_or_eq_of_le within with inside | rfl
  · simp [charAt, List.getElem?_append_left inside]
  · rw [charAt_length_append, ends]
    simp [charAt]

theorem set_zero_ends : tail.set 0 nul = tail := by
  cases tail with
  | nil => rfl
  | cons g tail =>
    obtain rfl : g = nul := look_eq_nul.mp ends
    rfl

theorem skipBlanks_line (front s : List α) :
    skipBlanks (front ++ (s ++ tail)) front.length = (front ++ s.takeWhile (isBlank ∘ look)).length := by
  have stops : tail.takeWhile (isBlank ∘ look) = [] := by
    cases tail with
    | nil => rfl
    | cons g tail =>
      have ended : look g = NUL := ends
      simp [ended, isBlank, NUL]
  have whole : (s ++ tail).takeWhile (isBlank ∘ look) = s.takeWhile (isBlank ∘ look) := by
    rw [List.takeWhile_append, stops, List.append_nil]
    split
    · rename_i all
      exact ((List.takeWhile_prefix _).eq_of_length all).symm
    · rfl
  rw [skipBlanks_eq, List.drop_left', whole, List.length_append]
  rfl

theorem wordLoop_line (plain : ∀ g ∈ s, g ≠ nul) (front gap : List α) (q : Quoting) :
    ∃ gap', wordLoop (front ++ gap ++ (s ++ tail)) (front ++ gap).length front.length q =
        ⟨front ++ (scanWord s q).word ++ gap' ++ ((scanWord s q).rest ++ tail),
          (front ++ (scanWord s q).word ++ gap').length, (front ++ (scanWord s q).word).length,
          (scanWord s q).quoting⟩ ∧
      (scanWord s q).word.length + gap'.length + (scanWord s q).rest.length = gap.length + s.length := by
  induction s generalizing front gap q with
  | nil =>
    refine ⟨gap, ?_, by simp [scanWord]⟩
    unfold wordLoop
    rw [List.nil_append, charAt_length_append, if_pos ends]
    simp [scanWord]
  | cons g s ih =>
    have plainRest : ∀ g ∈ s, g ≠ nul := fun g member => plain g (List.mem_cons_of_mem _ member)
    have visible : look g ≠ NUL := fun ended => plain g (List.mem_cons_self ..) (look_eq_nul.mp ended)
    have head : charAt (front ++ gap ++ (g :: s ++ tail)) (front ++ gap).length = look g :=
      charAt_length_append ..
    have next : charAt (front ++ gap ++ (g :: s ++ tail)) ((front ++ gap).length + 1) = charAt s 0 := by
      rw [charAt_append, List.cons_append, charAt_cons_succ, charAt_line ends (Nat.zero_le _)]
    unfold wordLoop scanWord
    rw [head, next, if_neg visible]
    by_cases stops : (!q.isOpen && (isBlank (look g) || startsOperator (look g) (charAt s 0))) = true
    · refine ⟨gap, ?_, by simp [stops]⟩
      simp only [stops, if_true]
      simp only [Bool.and_or_distrib_left, Bool.or_eq_true] at stops
      rcases stops with blank | operator
      · simp [blank]
      · simp [operator]
    · simp only [stops, Bool.false_eq_true, if_false]
      simp only [Bool.and_or_distrib_left, Bool.or_eq_true, not_or] at stops
      rw [if_neg stops.1, if_neg stops.2]
      cases toggled : q.toggle (look g) with
      | some q' =>
        obtain ⟨gap', run, size⟩ := ih plainRest front (gap ++ [g]) q'
        refine ⟨gap', by simpa [Nat.add_assoc] using run, ?_⟩
        simp only [List.length_append, List.length_cons, List.length_nil] at size ⊢
        omega
      | none =>
        obtain ⟨gap', run, size⟩ := ih plainRest (front ++ [g]) (gap ++ [g]).tail q
        have moved : (front ++ gap ++ (g :: s ++ tail)).set front.length
            ((front ++ gap ++ (g :: s ++ tail)).getD (front ++ gap).length nul) =
              front ++ [g] ++ (gap ++ [g]).tail ++ (s ++ tail) := by
          cases gap <;> simp
        refine ⟨gap', ?_, ?_⟩
        · rw [moved]
          simpa [Nat.add_assoc] using run
        · simp only [List.length_tail, List.length_append, List.length_cons, List.length_nil] at size ⊢
          omega

theorem reads_operator {consumed : List α} {n : Nat} (op s : List α) (plain : ∀ g ∈ op ++ s, g ≠ nul)
    (whole : consumed.length + (op ++ s).length = size) (long : op.length = n) :
    Fetched.Rel (Standing front tail size)
      (fun r' => ∃ consumed, r'.buf = front ++ consumed ++ tail ∧ consumed.length = size)
      (fun r' left ptr word => Placed r'.buf (reached front size left) ptr word)
      (.token (front ++ consumed).length ⟨(front ++ consumed ++ (op ++ s ++ tail)).set ((front ++ consumed).length + n) nul,
        (front ++ consumed).length + (n + 1)⟩)
      (.token op (landAt (op ++ s) (n + 1))) := by
  subst long
  have plainOp : ∀ g ∈ op, g ≠ nul := fun g member => plain g (List.mem_append_left _ member)
  have written : (front ++ consumed ++ (op ++ s ++ tail)).set ((front ++ consumed).length + op.length) nul =
      front ++ consumed ++ (op ++ (s ++ tail).set 0 nul) := by
    rw [List.append_assoc op, List.set_append_right _ _ (by simp), List.set_append_right _ _ (by simp)]
    simp
  rw [written]
  cases s with
  | nil =>
    rw [List.nil_append, set_zero_ends ends]
    have left : landAt (op ++ []) (op.length + 1) = none := by simp [landAt]
    rw [left]
    simp only [List.append_nil] at whole
    refine .token (.past (consumed ++ op) [] (by simp) (by simp [whole]) ?_ ?_ (by simp)) ?_
    · simp only [List.length_append]
      omega
    · dsimp only
      rw [List.nil_append, ← List.append_assoc, ← List.drop_one, ← Nat.add_assoc, ← List.drop_drop, List.drop_left']
      simp [Nat.add_assoc]
    · exact placed_of_eq rfl ends plainOp (by simp [reached]; omega)
  | cons g s =>
    have left : landAt (op ++ g :: s) (op.length + 1) = some s := by simp [landAt]
    rw [left]
    simp only [List.length_append, List.length_cons] at whole
    refine .token (.inside (consumed ++ op ++ [nul]) s (by simp) ?_ (by simp; omega) ?_) ?_
    · simp [Nat.add_assoc]
    · exact fun g member => plain g (by simp [member])
    · refine placed_of_eq rfl (by simp) plainOp ?_
      simp only [reached, Option.getD_some, List.length_append]
      omega

theorem reads_word {consumed line : List α} {c : Nat} (plain : ∀ g ∈ line, g ≠ nul) (whole : consumed.length + line.length = size) :
    let b := front ++ consumed ++ (line ++ tail)
    let word := wordLoop b (front ++ consumed).length (front ++ consumed).length {}
    Fetched.Rel (Standing front tail size)
      (fun r' => ∃ consumed, r'.buf = front ++ consumed ++ tail ∧ consumed.length = size)
      (fun r' left ptr word => Placed r'.buf (reached front size left) ptr word)
      (if word.quoting.isOpen = true then .unterminated ⟨word.buf, c⟩
        else .token (front ++ consumed).length
          ⟨word.buf.set word.w nul, if charAt word.buf word.p = NUL then word.p else word.p + 1⟩)
      (if (scanWord line {}).quoting.isOpen = true then .unterminated (some (scanWord line {}).rest)
        else .token (scanWord line {}).word (some (scanWord line {}).rest.tail)) := by
  obtain ⟨gap, run, size'⟩ := wordLoop_line ends plain (front ++ consumed) [] {}
  obtain ⟨wordSubset, restSubset⟩ := scanWord_subset line {}
  have plainWord : ∀ g ∈ (scanWord line {}).word, g ≠ nul := fun g member => plain g (wordSubset member)
  have plainRest : ∀ g ∈ (scanWord line {}).rest, g ≠ nul := fun g member => plain g (restSubset member)
  simp only [List.append_nil, List.length_nil, Nat.zero_add] at run size'
  dsimp only
  rw [run]
  generalize (scanWord line {}).word = word at *
  generalize (scanWord line {}).rest = rest at *
  generalize (scanWord line {}).quoting = q at *
  dsimp only
  split
  · refine .unterminated ⟨consumed ++ word ++ gap ++ rest, by simp, ?_⟩
    simp only [List.length_append]
    omega
  · have ended : charAt (front ++ consumed ++ word ++ gap ++ (rest ++ tail)) (front ++ consumed ++ word ++ gap).length =
        charAt rest 0 := by
      rw [charAt_length_append, charAt_line ends (Nat.zero_le _)]
    have written : (front ++ consumed ++ word ++ gap ++ (rest ++ tail)).set (front ++ consumed ++ word).length nul =
        front ++ consumed ++ (word ++ (gap ++ (rest ++ tail)).set 0 nul) := by
      rw [List.append_assoc _ gap, List.set_append_right _ _ (Nat.le_refl _)]
      simp
    rw [ended, written]
    -- the NUL falls on the place after the word, which is what follows it when no quote was squeezed out
    cases rest with
    | nil =>
      have cut : ∃ gap', (gap ++ ([] ++ tail)).set 0 nul = gap' ++ tail ∧ gap'.length = gap.length ∧
          charAt (gap' ++ tail) 0 = NUL := by
        cases gap with
        | nil => exact ⟨[], by simpa using set_zero_ends ends, rfl, ends⟩
        | cons d gap => exact ⟨nul :: gap, by simp, rfl, by simp⟩
      obtain ⟨gap', cut, same, nulAfter⟩ := cut
      rw [cut, if_pos (charAt_nil 0)]
      simp only [List.length_nil, Nat.add_zero] at size'
      refine .token (.inside (consumed ++ word ++ gap') [] (by simp) ?_ ?_ (by simp)) ?_
      · simp [same]
      · simp only [List.length_append, List.length_nil]
        omega
      · refine placed_of_eq rfl nulAfter plainWord ?_
        simp only [reached, List.tail_nil, Option.getD_some, List.length_append, List.length_nil]
        omega
    | cons d rest =>
      have cut : ∃ gap', (gap ++ (d :: rest ++ tail)).set 0 nul = gap' ++ (rest ++ tail) ∧
          gap'.length = gap.length + 1 ∧ charAt (gap' ++ (rest ++ tail)) 0 = NUL := by
        cases gap with
        | nil => exact ⟨[nul], by simp, rfl, by simp⟩
        | cons e gap => exact ⟨nul :: gap ++ [d], by simp, by simp, by simp⟩
      obtain ⟨gap', cut, longer, nulAfter⟩ := cut
      have visible : charAt (d :: rest) 0 ≠ NUL := fun ended => plainRest d (List.mem_cons_self ..) (look_eq_nul.mp ended)
      rw [cut, if_neg visible]
      simp only [List.length_cons] at size'
      refine .token (.inside (consumed ++ word ++ gap') rest (by simp) ?_ ?_ ?_) ?_
      · simp [longer]
        omega
      · simp only [List.length_append]
        omega
      · exact fun g member => plainRest g (List.mem_cons_of_mem _ member)
      · refine placed_of_eq rfl nulAfter plainWord ?_
        simp only [reached, List.tail_cons, Option.getD_some, List.length_append]
        omega

theorem nextToken_reads {r : Reader α} (standing : Standing front tail size r (some s)) :
    Fetched.Rel (Standing front tail size)
      (fun r' => ∃ consumed, r'.buf = front ++ consumed ++ tail ∧ consumed.length = size)
      (fun r' left ptr word => Placed r'.buf (reached front size left) ptr word)
      (nextToken r) (nextAlone (some s)) := by
  obtain ⟨consumed, s, buf, cursor, whole, plain⟩ := standing
  obtain ⟨b, c⟩ := r
  dsimp only at buf cursor
  subst buf cursor
  generalize blanksEq : s.takeWhile (isBlank ∘ look) = blanks
  generalize lineEq : dropBlanks s = line
  have split : s = blanks ++ line := by
    rw [← blanksEq, ← lineEq]
    exact List.takeWhile_append_dropWhile.symm
  have plainLine : ∀ g ∈ line, g ≠ nul := fun g member => plain g (split ▸ List.mem_append_right _ member)
  have size' : (consumed ++ blanks).length + line.length = size := by
    rw [← whole, split]
    simp [Nat.add_assoc]
  have skipped : skipBlanks (front ++ consumed ++ (s ++ tail)) (front ++ consumed).length =
      (front ++ (consumed ++ blanks)).length := by
    rw [skipBlanks_line ends, blanksEq, List.append_assoc]
  have same : front ++ consumed ++ (s ++ tail) = front ++ (consumed ++ blanks) ++ (line ++ tail) := by
    rw [split]
    simp
  unfold nextToken nextAlone headToken
  dsimp only
  rw [skipped, same, lineEq]
  generalize consumed ++ blanks = consumed' at *
  have head : charAt (front ++ consumed' ++ (line ++ tail)) (front ++ consumed').length = charAt line 0 := by
    rw [charAt_length_append, charAt_line ends (Nat.zero_le _)]
  cases line with
  | nil =>
    rw [head, if_pos (charAt_nil 0), if_pos rfl]
    exact .finished (.inside consumed' [] rfl rfl size' (by simp))
  | cons g line =>
    have next : charAt (front ++ consumed' ++ (g :: line ++ tail)) ((front ++ consumed').length + 1) = charAt line 0 := by
      rw [charAt_append, charAt_line ends (by simp), charAt_cons_succ]
    have visible : look g ≠ NUL := fun ended => plainLine g (List.mem_cons_self ..) (look_eq_nul.mp ended)
    rw [head, next]
    simp only [charAt_cons_zero, charAt_cons_succ, reduceCtorEq, if_false, visible]
    by_cases redirectsError : (look g == '2' && charAt line 0 == '>') = true
    · simp only [redirectsError, if_true]
      cases line with
      | nil => exact absurd redirectsError (by simp [NUL])
      | cons h line => exact reads_operator ends [g, h] line plainLine size' rfl
    · simp only [redirectsError, Bool.false_eq_true, if_false]
      by_cases redirects : (look g == '<' || look g == '>') = true
      · simp only [redirects, if_true]
        exact reads_operator ends [g] line plainLine size' rfl
      · simp only [redirects, Bool.false_eq_true, if_false]
        exact reads_word ends plainLine size'

end Reads

def Bare (s : List α) : Prop := charAt (dropBlanks s) 0 = NUL

theorem dropBlanks_append {blanks : List α} (blank : ∀ g ∈ blanks, isBlank (look g)) (s : List α) :
    dropBlanks (blanks ++ s) = dropBlanks s := List.dropWhile_append_of_pos (by simpa using blank)

theorem nextToken_past {r : Reader α} (standing : Standing front tail size r none) (bare : Bare tail.tail) :
    ∃ r', nextToken r = .finished r' ∧ Standing front tail size r' none := by
  cases standing with
  | past consumed blanks buf whole beyond left blank =>
    have ended : charAt r.buf (skipBlanks r.buf r.cursor) = NUL := by
      rw [← charAt_drop_zero, drop_skipBlanks, ← dropBlanks_append blank, ← left]
      exact bare
    refine ⟨{ r with cursor := skipBlanks r.buf r.cursor }, by simp [nextToken, ended], ?_⟩
    refine .past consumed (blanks ++ (r.buf.drop r.cursor).takeWhile (isBlank ∘ look)) buf whole ?_ ?_ ?_
    · exact Nat.lt_of_lt_of_le beyond (skipBlanks_ge ..)
    · dsimp only
      rw [drop_skipBlanks, List.append_assoc, left]
      exact congrArg _ List.takeWhile_append_dropWhile.symm
    · intro g member
      rcases List.mem_append.mp member with member | member
      · exact blank g member
      · simpa using List.mem_takeWhile_imp member

theorem readAt_split (b : List α) (p : Nat) :
    ∃ tail, b.drop p = readAt b p ++ tail ∧ charAt tail 0 = NUL ∧ ∀ g ∈ readAt b p, g ≠ nul := by
  refine ⟨(b.drop p).dropWhile (look · ≠ NUL), List.takeWhile_append_dropWhile.symm, ?_, ?_⟩
  · have last := List.head?_dropWhile_not (look · ≠ NUL) (b.drop p)
    cases ended : (b.drop p).dropWhile (look · ≠ NUL) with
    | nil => exact charAt_nil 0
    | cons g tail =>
      rw [ended] at last
      simpa using last
  · intro g member
    simpa [look_eq_nul] using List.mem_takeWhile_imp member

theorem standing_at {r : Reader α} (inside : r.cursor ≤ r.buf.length) :
    ∃ tail, charAt tail 0 = NUL ∧ Standing (r.buf.take r.cursor) tail (readAt r.buf r.cursor).length r
      (some (readAt r.buf r.cursor)) := by
  obtain ⟨tail, split, ended, plain⟩ := readAt_split r.buf r.cursor
  refine ⟨tail, ended, .inside [] _ ?_ (by simp [inside]) (by simp) plain⟩
  rw [List.append_nil, ← split, List.take_append_drop]

/-! ### The head of a text -/

def behind (s : List α) : List α :=
  let s := dropBlanks s
  if charAt s 0 == '2' && charAt s 1 == '>' then s.drop 2
  else if charAt s 0 == '<' || charAt s 0 == '>' then s.drop 1
  else (scanWord s {}).rest

@[simp] theorem look_char (c : Char) : look c = c := rfl

section Head

variable {q : Quoting} {left left₁ : Option (List α)}

theorem Quoting.eq_of_closed (closed : ¬ q.isOpen = true) : q = {} := by
  obtain ⟨inSingle, inDouble⟩ := q
  cases inSingle <;> cases inDouble <;> simp_all [Quoting.isOpen]

theorem toggle_blank {c : Char} (blank : isBlank c = true) : q.toggle c = none := by
  rcases (by simpa [isBlank] using blank : c = ' ' ∨ c = '\t') with rfl | rfl <;> rfl

theorem startsOperator_blank {c c' : Char} (blank : isBlank c = true) : startsOperator c c' = false := by
  rcases (by simpa [isBlank] using blank : c = ' ' ∨ c = '\t') with rfl | rfl <;> rfl

theorem nextAlone_bare (bare : dropBlanks (left.getD []) = []) :
    ∃ left₁, nextAlone left = .finished left₁ ∧ left₁.getD [] = [] := by
  cases left with
  | none => exact ⟨none, rfl, rfl⟩
  | some s => exact ⟨some [], if_pos bare, rfl⟩

theorem nextAlone_head {head : List α} (trimmed : dropBlanks (left.getD []) = head) (nonempty : head ≠ []) :
    nextAlone left = headToken head := by
  cases left with
  | none => exact absurd trimmed.symm nonempty
  | some s =>
    rw [Option.getD_some] at trimmed
    rw [nextAlone, trimmed, if_neg nonempty]

theorem nextAlone_cons {α : Type} [Glyph α] {g : α} {s s' : List α} (head : dropBlanks s = g :: s') :
    nextAlone (some s) = headToken (g :: s') :=
  nextAlone_head (show dropBlanks ((some s).getD []) = g :: s' from head) (List.cons_ne_nil g s')

theorem landAt_getD {α : Type} (op r : List α) : (landAt (op ++ r) (op.length + 1)).getD [] = r.tail := by
  cases r with
  | nil =>
    rw [List.append_nil, landAt, if_neg (Nat.not_succ_le_self _)]
    rfl
  | cons c r => simp [landAt]

theorem headToken_word {g : α} (plain : startsOperator (look g) (charAt s 0) = false) :
    headToken (g :: s) =
      if (scanWord (g :: s) {}).quoting.isOpen then .unterminated (some (scanWord (g :: s) {}).rest)
      else .token (scanWord (g :: s) {}).word (some (scanWord (g :: s) {}).rest.tail) := by
  obtain ⟨noOperator, noPair⟩ := Bool.or_eq_false_iff.mp plain
  simp only [headToken, charAt_cons_zero, charAt_cons_succ, noOperator, noPair, Bool.false_eq_true, if_false]

theorem dropBlanks_idem (s : List α) : dropBlanks (dropBlanks s) = dropBlanks s := List.dropWhile_idempotent _ s

theorem behind_dropBlanks (s : List α) : behind (dropBlanks s) = behind s := by
  unfold behind
  rw [dropBlanks_idem]

theorem scanWord_open (isOpen : (scanWord s q).quoting.isOpen = true) : (scanWord s q).rest = [] := by
  fun_induction scanWord s q with
  | case1 => rfl
  | case2 g s q stops => simp_all
  | case3 g s q goesOn q' toggled ih => exact ih isOpen
  | case4 g s q goesOn toggled scanned ih => exact ih isOpen

theorem scanWord_stops {s : List Char} {c : Char} {rest : List Char}
    (behind : (scanWord s q).rest = c :: rest) : isBlank c = true ∨ startsOperator c (charAt rest 0) = true := by
  fun_induction scanWord s q with
  | case1 => cases behind
  | case2 g s q stops =>
    cases behind
    simp only [look_char, Bool.and_eq_true, Bool.or_eq_true] at stops
    exact stops.2
  | case3 g s q goesOn q' toggled ih => exact ih behind
  | case4 g s q goesOn toggled scanned ih => exact ih behind

theorem nextAlone_finished (fetched : nextAlone left = .finished left₁) : dropBlanks (left.getD []) = [] := by
  cases head : dropBlanks (left.getD []) with
  | nil => rfl
  | cons c s =>
    rw [nextAlone_head head (List.cons_ne_nil c s)] at fetched
    unfold headToken at fetched
    dsimp only at fetched
    split_ifs at fetched

end Head

end MyShell.Parser
