import MyShell.Parser.Token
import Mathlib.Data.List.Forall2
import Mathlib.Data.Option.Basic

/-! # Commands

`parse_command` of `parser.c`. It is written over what `next_token` does, so that it can be run in
place on a buffer and on the text that is left of a line, and so that two such runs can be compared
call by call. -/

namespace MyShell.Parser

def MAX_ARGS : Nat := 64

inductive Redirection where
  | input | error | output
deriving DecidableEq

namespace Redirection

def operator : Redirection → CString
  | input => "<".toList
  | error => "2>".toList
  | output => ">".toList

/-- The redirection whose operator the token is. -/
def ofToken (token : CString) : Option Redirection :=
  if token = operator .input then some .input
  else if token = operator .error then some .error
  else if token = operator .output then some .output
  else none

def duplicate : Redirection → CString
  | input => "Duplicate input redirection.".toList
  | error => "Duplicate error redirection.".toList
  | output => "Duplicate output redirection.".toList

def missing : Redirection → CString
  | input => "Input file not specified.".toList
  | error => "Error output file not specified.".toList
  | output => "Output file not specified after redirection.".toList

end Redirection

def isRedirectionOperator (token : CString) : Bool :=
  token = "<".toList || token = ">".toList || token = "2>".toList

def UNTERMINATED_QUOTE : CString := "Unterminated quote.".toList

def ARGS_EXCEEDED : CString :=
  "Warning: Maximum number of arguments (63) exceeded. Extra arguments ignored.\n".toList

/-- `Command`. The array `args` holds NULL after its arguments. -/
structure Command (τ : Type) where
  command : Option τ := none
  args : List τ := []
  inputFile : Option τ := none
  outputFile : Option τ := none
  errorFile : Option τ := none
  hasError : Bool := false
  errorMsg : CString := []
  fits : args.length < MAX_ARGS := by exact Nat.succ_pos _

namespace Command

variable {τ τ' : Type}

def file (cmd : Command τ) : Redirection → Option τ
  | .input => cmd.inputFile
  | .error => cmd.errorFile
  | .output => cmd.outputFile

def setFile (cmd : Command τ) (r : Redirection) (token : τ) : Command τ :=
  match r with
  | .input => { cmd with inputFile := some token }
  | .error => { cmd with errorFile := some token }
  | .output => { cmd with outputFile := some token }

def addArg (cmd : Command τ) (token : τ) (room : cmd.args.length < MAX_ARGS - 1) : Command τ :=
  { cmd with
    command := some (cmd.command.getD token)
    args := cmd.args ++ [token]
    fits := by
      rw [List.length_append, List.length_singleton]
      unfold MAX_ARGS at room ⊢
      omega }

def fail (cmd : Command τ) (msg : CString) : Command τ := { cmd with hasError := true, errorMsg := msg }

def map (f : τ → τ') (cmd : Command τ) : Command τ' where
  command := cmd.command.map f
  args := cmd.args.map f
  inputFile := cmd.inputFile.map f
  outputFile := cmd.outputFile.map f
  errorFile := cmd.errorFile.map f
  hasError := cmd.hasError
  errorMsg := cmd.errorMsg
  fits := by simpa using cmd.fits

def initial : Command τ := {}

def room (cmd : Command τ) : Nat :=
  (MAX_ARGS - cmd.args.length) + cmd.inputFile.isNone.toNat + cmd.errorFile.isNone.toNat + cmd.outputFile.isNone.toNat

variable {cmd : Command τ} {r r' : Redirection} {token : τ} {msg : CString}

@[simp] theorem hasError_map (f : τ → τ') : (cmd.map f).hasError = cmd.hasError := rfl

@[simp] theorem file_fail : (cmd.fail msg).file r = cmd.file r := by cases r <;> rfl

@[simp] theorem file_addArg (room : cmd.args.length < MAX_ARGS - 1) : (cmd.addArg token room).file r = cmd.file r := by
  cases r <;> rfl

theorem file_setFile : (cmd.setFile r token).file r' = if r' = r then some token else cmd.file r' := by
  cases r <;> cases r' <;> rfl

theorem setFile_isSome {r' : Redirection} (set : cmd.file r' ≠ none) : (cmd.setFile r token).file r' ≠ none := by
  rw [file_setFile]
  split
  · simp
  · exact set

@[simp] theorem command_setFile : (cmd.setFile r token).command = cmd.command := by cases r <;> rfl

@[simp] theorem args_setFile : (cmd.setFile r token).args = cmd.args := by cases r <;> rfl

@[simp] theorem hasError_setFile : (cmd.setFile r token).hasError = cmd.hasError := by cases r <;> rfl

@[simp] theorem errorMsg_setFile : (cmd.setFile r token).errorMsg = cmd.errorMsg := by cases r <;> rfl

theorem room_setFile (unset : cmd.file r = none) : (cmd.setFile r token).room < cmd.room := by
  cases r <;> simp_all [file, setFile, room]

theorem room_addArg (room : cmd.args.length < MAX_ARGS - 1) : (cmd.addArg token room).room < cmd.room := by
  simp only [Command.room, addArg, List.length_append, List.length_singleton]
  omega

end Command

/-! ### The loop -/

/-- What `next_token` and `strcmp` do to the place where a line is read. -/
structure Tokenizer (σ τ : Type) where
  next : σ → Fetched σ τ
  text : σ → τ → CString

/-- What `parse_command` called `next_token` for: a token of its loop, a file name, or to see whether
arguments are left over. -/
inductive Asked where
  | token | file | more
deriving DecidableEq

/-- How `parse_command` ends. `calls` are the places at which it called `next_token`. -/
structure Parsed (σ τ : Type) where
  command : Command τ
  state : σ
  stderr : List CString
  calls : List (Asked × σ)

variable {σ σ' τ τ' : Type}

def Parsed.after (call : Asked × σ) (parsed : Parsed σ τ) : Parsed σ τ :=
  { parsed with calls := call :: parsed.calls }

namespace Tokenizer

variable (t : Tokenizer σ τ)

/-- The token after an operator, unless it is NULL or an operator itself. -/
def nextFile (s : σ) : σ × Option τ :=
  match t.next s with
  | .token file s => (s, if isRedirectionOperator (t.text s file) then none else some file)
  | .finished s | .unterminated s => (s, none)

/-- After the loop, without a quote error. -/
def finish (s : σ) (cmd : Command τ) : Parsed σ τ :=
  if cmd.args.length ≥ MAX_ARGS - 1 then
    match t.next s with
    | .token _ s' => ⟨cmd, s', [ARGS_EXCEEDED], [(.more, s)]⟩
    | .finished s' | .unterminated s' => ⟨cmd, s', [], [(.more, s)]⟩
  else ⟨cmd, s, [], []⟩

def parseLoop (s : σ) (cmd : Command τ) : Parsed σ τ :=
  match t.next s with
  | .unterminated s' => ⟨cmd.fail UNTERMINATED_QUOTE, s', [], [(.token, s)]⟩
  | .finished s' => (t.finish s' cmd).after (.token, s)
  | .token token s' =>
    if room : cmd.args.length < MAX_ARGS - 1 then
      match Redirection.ofToken (t.text s' token) with
      | some r =>
        match _ : cmd.file r with
        | some _ => ⟨cmd.fail r.duplicate, s', [], [(.token, s)]⟩
        | none =>
          match t.nextFile s' with
          | (s'', none) => ⟨cmd.fail r.missing, s'', [], [(.token, s), (.file, s')]⟩
          | (s'', some file) => ((parseLoop s'' (cmd.setFile r file)).after (.file, s')).after (.token, s)
      | none => (parseLoop s' (cmd.addArg token room)).after (.token, s)
    else (t.finish s' cmd).after (.token, s)
termination_by cmd.room
decreasing_by
  · exact Command.room_setFile ‹_›
  · exact Command.room_addArg room

end Tokenizer

def inPlace {α : Type} [Glyph α] : Tokenizer (Reader α) Nat where
  next := nextToken
  text r ptr := (readAt r.buf ptr).map look

def alone {α : Type} [Glyph α] : Tokenizer (Option (List α)) (List α) where
  next := nextAlone
  text _ token := token.map look

/-- `parse_command(input, cmd)`, where `input` is a place of the buffer. -/
def parseCommand {α : Type} [Glyph α] (b : List α) (input : Nat) : Parsed (Reader α) Nat :=
  inPlace.parseLoop ⟨b, input⟩ {}

def Parsed.read {α : Type} [Glyph α] (parsed : Parsed (Reader α) Nat) : Command (List α) :=
  parsed.command.map (readAt parsed.state.buf)

/-- `parse_command` on a line that nothing follows. -/
def parseAlone {α : Type} [Glyph α] (line : List α) : Parsed (Option (List α)) (List α) :=
  alone.parseLoop (some line) {}

/-! ### Two runs compared -/

structure Command.Rel (T : τ → τ' → Prop) (cmd : Command τ) (cmd' : Command τ') : Prop where
  command : Option.Rel T cmd.command cmd'.command
  args : List.Forall₂ T cmd.args cmd'.args
  file : ∀ r, Option.Rel T (cmd.file r) (cmd'.file r)
  hasError : cmd.hasError = cmd'.hasError
  errorMsg : cmd.errorMsg = cmd'.errorMsg

namespace Command.Rel

variable {T T' : τ → τ' → Prop} {cmd : Command τ} {cmd' : Command τ'} {x : τ} {y : τ'}

theorem empty : Rel T {} {} :=
  ⟨.none, .nil, fun r => by cases r <;> exact .none, rfl, rfl⟩

theorem imp {x : Option τ} {y : Option τ'} (related : Option.Rel T x y) (more : ∀ x y, T x y → T' x y) :
    Option.Rel T' x y := by
  cases related with
  | some token => exact .some (more _ _ token)
  | none => exact .none

theorem mono (related : Rel T cmd cmd') (more : ∀ x y, T x y → T' x y) : Rel T' cmd cmd' where
  command := imp related.command more
  args := related.args.imp more
  file r := imp (related.file r) more
  hasError := related.hasError
  errorMsg := related.errorMsg

theorem fail (related : Rel T cmd cmd') (msg : CString) : Rel T (cmd.fail msg) (cmd'.fail msg) :=
  ⟨related.command, related.args, fun r => by simpa using related.file r, rfl, rfl⟩

theorem length (related : Rel T cmd cmd') : cmd.args.length = cmd'.args.length := related.args.length_eq

theorem file_none {r : Redirection} (related : Rel T cmd cmd') (unset : cmd'.file r = none) : cmd.file r = none := by
  have same := related.file r
  rw [unset] at same
  cases found : cmd.file r with
  | none => rfl
  | some x =>
    rw [found] at same
    cases same

theorem file_some {r : Redirection} (related : Rel T cmd cmd') (set : cmd'.file r = some y) :
    ∃ x, cmd.file r = some x := by
  have same := related.file r
  rw [set] at same
  cases found : cmd.file r with
  | none =>
    rw [found] at same
    cases same
  | some x => exact ⟨x, rfl⟩

theorem addArg (related : Rel T cmd cmd') (token : T x y) (room : cmd.args.length < MAX_ARGS - 1)
    (room' : cmd'.args.length < MAX_ARGS - 1) : Rel T (cmd.addArg x room) (cmd'.addArg y room') where
  command := by
    have first := related.command
    unfold Command.addArg
    cases found : cmd.command <;> cases found' : cmd'.command <;> rw [found, found'] at first <;> cases first
    · exact .some token
    · exact .some ‹_›
  args := List.rel_append related.args (.cons token .nil)
  file r := by simpa using related.file r
  hasError := related.hasError
  errorMsg := related.errorMsg

theorem setFile (related : Rel T cmd cmd') (token : T x y) (r : Redirection) :
    Rel T (cmd.setFile r x) (cmd'.setFile r y) where
  command := by simpa using related.command
  args := by simpa using related.args
  file r' := by
    rw [Command.file_setFile, Command.file_setFile]
    split
    · exact .some token
    · exact related.file r'
  hasError := by simpa using related.hasError
  errorMsg := by simpa using related.errorMsg

theorem optionRel_flip {x : Option τ} {y : Option τ'} (pair : Option.Rel T x y) : Option.Rel (flip T) y x := by
  cases pair with
  | some token => exact .some token
  | none => exact .none

theorem flip (related : Rel T cmd cmd') : Rel (flip T) cmd' cmd where
  command := optionRel_flip related.command
  args := related.args.flip
  file r := optionRel_flip (related.file r)
  hasError := related.hasError.symm
  errorMsg := related.errorMsg.symm

theorem eq {cmd cmd' : Command τ} (related : Rel (fun x y => x = y) cmd cmd') : cmd = cmd' := by
  have optional {x y : Option τ} (pair : Option.Rel (fun x y => x = y) x y) : x = y := by
    cases pair with
    | some token => exact congrArg some token
    | none => rfl
  obtain ⟨command, args, input, output, error, hasError, errorMsg, fits⟩ := cmd'
  obtain ⟨_, _, _, _, _, _, _, _⟩ := cmd
  simp only [Command.mk.injEq]
  exact ⟨optional related.command, List.forall₂_eq_eq_eq ▸ related.args, optional (related.file .input),
    optional (related.file .output), optional (related.file .error), related.hasError, related.errorMsg⟩

theorem optionRel_map_eq {f : τ → τ'} {x : Option τ} {y : Option τ'} (pair : Option.Rel T x y)
    (same : ∀ x y, T x y → f x = y) : x.map f = y := by
  cases pair with
  | some token => exact congrArg some (same _ _ token)
  | none => rfl

theorem map_eq {f : τ → τ'} (related : Rel T cmd cmd') (same : ∀ x y, T x y → f x = y) : cmd.map f = cmd' := by
  have optional {x : Option τ} {y : Option τ'} (pair : Option.Rel T x y) : x.map f = y := optionRel_map_eq pair same
  have args : cmd.args.map f = cmd'.args := by
    rw [← List.forall₂_eq_eq_eq, List.forall₂_map_left_iff]
    exact related.args.imp same
  obtain ⟨command, args', input, output, error, hasError, errorMsg, fits⟩ := cmd'
  simp only [map, Command.mk.injEq]
  exact ⟨optional related.command, args, optional (related.file .input), optional (related.file .output),
    optional (related.file .error), related.hasError, related.errorMsg⟩

end Command.Rel

inductive FileRel (S : σ → σ' → Prop) (T : σ → σ' → τ → τ' → Prop) : σ × Option τ → σ' × Option τ' → Prop where
  | some {x y s s'} (states : S s s') (tokens : T s s' x y) : FileRel S T (s, some x) (s', some y)
  | none {s s'} : FileRel S T (s, none) (s', none)

def Command.words (cmd : Command τ) : List τ :=
  cmd.args ++ cmd.inputFile.toList ++ cmd.errorFile.toList ++ cmd.outputFile.toList

/-- An error has the text of what it is about. -/
def Command.Explained (cmd : Command τ) : Prop :=
  cmd.hasError = true →
    cmd.errorMsg = UNTERMINATED_QUOTE ∨ ∃ r : Redirection, cmd.errorMsg = r.duplicate ∨ cmd.errorMsg = r.missing

namespace Command

variable {cmd : Command τ} {x : τ} {r : Redirection}

theorem mem_words : x ∈ cmd.words ↔ x ∈ cmd.args ∨ ∃ r, cmd.file r = some x := by
  simp only [words, List.mem_append, Option.mem_toList]
  constructor
  · rintro (((arg | input) | error) | output)
    · exact .inl arg
    · exact .inr ⟨.input, input⟩
    · exact .inr ⟨.error, error⟩
    · exact .inr ⟨.output, output⟩
  · rintro (arg | ⟨r, here⟩)
    · exact .inl (.inl (.inl arg))
    · cases r with
      | input => exact .inl (.inl (.inr here))
      | error => exact .inl (.inr here)
      | output => exact .inr here

theorem words_fail (cmd : Command τ) (msg : CString) : (cmd.fail msg).words = cmd.words := rfl

theorem words_addArg (room : cmd.args.length < MAX_ARGS - 1) : cmd.words ⊆ (cmd.addArg x room).words := by
  intro y
  simp only [mem_words, file_addArg]
  rintro (arg | file)
  · exact .inl (List.mem_append_left _ arg)
  · exact .inr file

theorem words_setFile (unset : cmd.file r = none) : cmd.words ⊆ (cmd.setFile r x).words := by
  intro y
  simp only [mem_words, args_setFile]
  rintro (arg | ⟨r', here⟩)
  · exact .inl arg
  · refine .inr ⟨r', ?_⟩
    have other : r' ≠ r := by
      rintro rfl
      rw [unset] at here
      cases here
    rw [file_setFile, if_neg other, here]

end Command

/-- In the eyes of `parse_command` the tokenizer `t` does what `t'` does, as long as `t'` is called
where `ok` and delivers words that are `good`. -/
structure Follows (t : Tokenizer σ τ) (t' : Tokenizer σ' τ') (ok : Asked → σ' → Prop) (good : τ' → Prop)
    (S : σ → σ' → Prop) (U : σ → Prop) (T : σ → σ' → τ → τ' → Prop) : Prop where
  next {s s'} : S s s' → ok .token s' → Fetched.Rel S U T (t.next s) (t'.next s')
  file {s s'} : S s s' → ok .file s' → (∀ y, (t'.nextFile s').2 = some y → good y) →
    FileRel S T (t.nextFile s) (t'.nextFile s')
  more {s s'} : S s s' → ok .more s' → Fetched.Rel (fun s _ => U s) U (fun _ _ _ _ => True) (t.next s) (t'.next s')
  keep {s s' x y a} : S s s' → ok a s' → T s s' x y → T (t.next s).state (t'.next s').state x y
  state {s s'} : S s s' → U s
  operator {s s' x y r} : T s s' x y → Redirection.ofToken (t'.text s' y) = some r → Redirection.ofToken (t.text s x) = some r
  word {s s' x y} : T s s' x y → good y → Redirection.ofToken (t'.text s' y) = none → Redirection.ofToken (t.text s x) = none

structure Agree (U : σ → Prop) (T : σ → σ' → τ → τ' → Prop) (parsed : Parsed σ τ) (parsed' : Parsed σ' τ') : Prop where
  command : parsed.command.Rel (T parsed.state parsed'.state) parsed'.command
  stderr : parsed.stderr = parsed'.stderr
  state : parsed'.command.hasError = false → U parsed.state

theorem Redirection.eq_operator {token : CString} {r : Redirection} (operator : ofToken token = some r) :
    token = r.operator := by
  unfold ofToken at operator
  split_ifs at operator with input error output <;> cases operator <;> assumption

theorem ofToken_operator (r : Redirection) : Redirection.ofToken r.operator = some r := by cases r <;> decide

theorem operator_not_plain (r : Redirection) : Redirection.ofToken r.operator ≠ none := by
  rw [ofToken_operator]
  exact Option.some_ne_none r

theorem isRedirectionOperator_eq (token : CString) :
    isRedirectionOperator token = (Redirection.ofToken token).isSome := by
  unfold isRedirectionOperator Redirection.ofToken Redirection.operator
  by_cases input : token = "<".toList
  · simp [input]
  by_cases error : token = "2>".toList
  · simp [error]
  by_cases output : token = ">".toList <;> simp_all

namespace Tokenizer

variable {t : Tokenizer σ τ} {s : σ} {cmd : Command τ}

theorem nextFile_state : (t.nextFile s).1 = (t.next s).state := by
  unfold nextFile
  split <;> simp [*, Fetched.state]

theorem nextFile_token {s' : σ} {file : τ} (found : t.nextFile s = (s', some file)) : t.next s = .token file s' := by
  unfold nextFile at found
  split at found
  · split at found
    · simp at found
    · rename_i fetched _
      obtain ⟨rfl, rfl⟩ : _ = s' ∧ _ = file := by simpa using found
      exact fetched
  · simp at found
  · simp at found

theorem nextFile_literal {s' : σ} {file : τ} (found : t.nextFile s = (s', some file)) :
    Redirection.ofToken (t.text s' file) = none := by
  have fetched := nextFile_token found
  rw [nextFile, fetched] at found
  by_contra operator
  simp [isRedirectionOperator_eq, Option.isSome_iff_ne_none, operator] at found

theorem finish_command : (t.finish s cmd).command = cmd := by
  unfold finish
  split
  · split <;> rfl
  · rfl

theorem finish_calls {call : Asked × σ} (t : Tokenizer σ τ) (member : call ∈ (t.finish s cmd).calls) : call.1 = .more := by
  unfold finish at member
  split at member
  · split at member <;> simp_all
  · cases member

theorem finish_full (t : Tokenizer σ τ) (s : σ) (full : ¬ cmd.args.length < MAX_ARGS - 1) :
    (t.finish s cmd).calls = [(.more, s)] := by
  unfold finish
  rw [if_pos (Nat.not_lt.mp full)]
  cases t.next s <;> rfl

theorem parseLoop_finished {s₁ : σ} (fetched : t.next s = .finished s₁) : (t.parseLoop s cmd).command = cmd := by
  rw [parseLoop, fetched]
  exact finish_command

/-! What the loop does with a token. -/

section Token

variable {x file : τ} {s₁ s₂ : σ} {r : Redirection} {set : τ}

theorem parseLoop_full (fetched : t.next s = .token x s₁) (full : ¬ cmd.args.length < MAX_ARGS - 1) :
    t.parseLoop s cmd = (t.finish s₁ cmd).after (.token, s) := by
  rw [parseLoop, fetched]
  exact dif_neg full

theorem parseLoop_arg (fetched : t.next s = .token x s₁) (room : cmd.args.length < MAX_ARGS - 1)
    (plain : Redirection.ofToken (t.text s₁ x) = none) :
    t.parseLoop s cmd = (t.parseLoop s₁ (cmd.addArg x room)).after (.token, s) := by
  rw [parseLoop, fetched]
  simp only [room, dif_pos, plain]

theorem parseLoop_duplicate (fetched : t.next s = .token x s₁) (room : cmd.args.length < MAX_ARGS - 1)
    (operator : Redirection.ofToken (t.text s₁ x) = some r) (twice : cmd.file r = some set) :
    t.parseLoop s cmd = ⟨cmd.fail r.duplicate, s₁, [], [(.token, s)]⟩ := by
  rw [parseLoop, fetched]
  simp only [room, dif_pos, operator]
  split
  · rfl
  · simp_all

theorem parseLoop_missing (fetched : t.next s = .token x s₁) (room : cmd.args.length < MAX_ARGS - 1)
    (operator : Redirection.ofToken (t.text s₁ x) = some r) (unset : cmd.file r = none)
    (missing : t.nextFile s₁ = (s₂, none)) :
    t.parseLoop s cmd = ⟨cmd.fail r.missing, s₂, [], [(.token, s), (.file, s₁)]⟩ := by
  rw [parseLoop, fetched]
  simp only [room, dif_pos, operator]
  split
  · simp_all
  · simp only [missing]

theorem parseLoop_file (fetched : t.next s = .token x s₁) (room : cmd.args.length < MAX_ARGS - 1)
    (operator : Redirection.ofToken (t.text s₁ x) = some r) (unset : cmd.file r = none)
    (found : t.nextFile s₁ = (s₂, some file)) :
    t.parseLoop s cmd = ((t.parseLoop s₂ (cmd.setFile r file)).after (.file, s₁)).after (.token, s) := by
  rw [parseLoop, fetched]
  simp only [room, dif_pos, operator]
  split
  · simp_all
  · simp only [found]

end Token

theorem parseLoop_invariant {I : σ → Prop} (next : ∀ s, I s → I (t.next s).state) (holds : I s) :
    I (t.parseLoop s cmd).state := by
  have file (s : σ) (holds : I s) : I (t.nextFile s).1 := nextFile_state ▸ next s holds
  have finish (s : σ) (cmd : Command τ) (holds : I s) : I (t.finish s cmd).state := by
    have after := next s holds
    unfold Tokenizer.finish
    split
    · split <;> simp_all [Fetched.state]
    · exact holds
  fun_induction t.parseLoop s cmd with
  | case1 s cmd s₁ fetched => simpa [fetched, Fetched.state] using next s holds
  | case2 s cmd s₁ fetched => exact finish _ _ (by simpa [fetched, Fetched.state] using next s holds)
  | case3 s cmd x s₁ fetched => simpa [fetched, Fetched.state] using next s holds
  | case4 s cmd x s₁ fetched _ _ _ _ s₂ missing =>
    have here : I s₁ := by simpa [fetched, Fetched.state] using next s holds
    simpa [missing] using file s₁ here
  | case5 s cmd x s₁ fetched _ _ _ _ s₂ word found ih =>
    have here : I s₁ := by simpa [fetched, Fetched.state] using next s holds
    exact ih (by simpa [found] using file s₁ here)
  | case6 s cmd x s₁ fetched _ _ ih => exact ih (by simpa [fetched, Fetched.state] using next s holds)
  | case7 s cmd x s₁ fetched => exact finish _ _ (by simpa [fetched, Fetched.state] using next s holds)

theorem parseLoop_calls {I : σ → Prop} (next : ∀ s, I s → I (t.next s).state) (holds : I s) :
    ∀ call ∈ (t.parseLoop s cmd).calls, I call.2 := by
  have finish (s : σ) (cmd : Command τ) (holds : I s) : ∀ call ∈ (t.finish s cmd).calls, I call.2 := by
    unfold Tokenizer.finish
    split
    · split <;> simp [holds]
    · simp
  have file (s : σ) (holds : I s) : I (t.nextFile s).1 := nextFile_state ▸ next s holds
  fun_induction t.parseLoop s cmd with
  | case1 | case3 => simpa using holds
  | case2 s cmd s₁ fetched =>
    have here : I s₁ := by simpa [fetched, Fetched.state] using next s holds
    exact List.forall_mem_cons.mpr ⟨holds, finish _ _ here⟩
  | case4 s cmd x s₁ fetched =>
    have here : I s₁ := by simpa [fetched, Fetched.state] using next s holds
    exact List.forall_mem_cons.mpr ⟨holds, List.forall_mem_cons.mpr ⟨here, by simp⟩⟩
  | case5 s cmd x s₁ fetched _ _ _ _ s₂ word found ih =>
    have here : I s₁ := by simpa [fetched, Fetched.state] using next s holds
    exact List.forall_mem_cons.mpr ⟨holds, List.forall_mem_cons.mpr ⟨here, ih (by simpa [found] using file s₁ here)⟩⟩
  | case6 s cmd x s₁ fetched _ _ ih =>
    exact List.forall_mem_cons.mpr ⟨holds, ih (by simpa [fetched, Fetched.state] using next s holds)⟩
  | case7 s cmd x s₁ fetched =>
    have here : I s₁ := by simpa [fetched, Fetched.state] using next s holds
    exact List.forall_mem_cons.mpr ⟨holds, finish _ _ here⟩

theorem parseLoop_more (t : Tokenizer σ τ) {s' : σ} (accepted : cmd.hasError = false)
    (more : (.more, s') ∈ (t.parseLoop s cmd).calls) : (t.parseLoop s cmd).command.hasError = false := by
  fun_induction t.parseLoop s cmd with
  | case1 | case3 | case4 => simp at more
  | case2 | case7 =>
    rw [Parsed.after, finish_command]
    exact accepted
  | case5 s cmd x s₁ _ _ r _ unset s₂ file found ih => exact ih (by simpa using accepted) (by simpa [Parsed.after] using more)
  | case6 s cmd x s₁ _ room plain ih => exact ih accepted (by simpa [Parsed.after] using more)

theorem parseLoop_words (t : Tokenizer σ τ) (s : σ) (cmd : Command τ) :
    cmd.words ⊆ (t.parseLoop s cmd).command.words := by
  fun_induction t.parseLoop s cmd with
  | case1 => rw [Command.words_fail]; exact List.Subset.refl _
  | case2 | case7 => rw [Parsed.after, finish_command]; exact List.Subset.refl _
  | case3 | case4 => rw [Command.words_fail]; exact List.Subset.refl _
  | case5 s cmd token s₁ _ _ r _ unset s₂ file _ ih => exact List.Subset.trans (Command.words_setFile unset) ih
  | case6 s cmd token s₁ _ room _ ih => exact List.Subset.trans (Command.words_addArg room) ih

theorem parseLoop_explained (t : Tokenizer σ τ) (s : σ) {cmd : Command τ} (accepted : cmd.hasError = false) :
    (t.parseLoop s cmd).command.Explained := by
  fun_induction t.parseLoop s cmd with
  | case1 => exact fun _ => .inl rfl
  | case2 | case7 =>
    intro wrong
    rw [Parsed.after, finish_command, accepted] at wrong
    cases wrong
  | case3 s cmd x s₁ _ _ r => exact fun _ => .inr ⟨r, .inl rfl⟩
  | case4 s cmd x s₁ _ _ r => exact fun _ => .inr ⟨r, .inr rfl⟩
  | case5 s cmd x s₁ _ _ r _ _ s₂ file _ ih => exact ih (by simpa using accepted)
  | case6 s cmd x s₁ _ room _ ih => exact ih accepted

theorem missing_ne_unterminated (r : Redirection) : r.missing ≠ UNTERMINATED_QUOTE := by
  cases r <;> decide

theorem missing_ne_duplicate (r r' : Redirection) : r.missing ≠ r'.duplicate := by
  cases r <;> cases r' <;> decide

theorem missing_injective {r r' : Redirection} (same : r.missing = r'.missing) : r = r' := by
  revert same
  cases r <;> cases r' <;> decide

theorem parseLoop_literal {text : τ → CString} (t : Tokenizer σ τ) (same : ∀ s x, t.text s x = text x) (s : σ)
    {cmd : Command τ} (literal : ∀ x ∈ cmd.words, Redirection.ofToken (text x) = none) :
    ∀ x ∈ (t.parseLoop s cmd).command.words, Redirection.ofToken (text x) = none := by
  fun_induction t.parseLoop s cmd with
  | case1 => exact literal
  | case2 | case7 =>
    rw [Parsed.after, finish_command]
    exact literal
  | case3 | case4 => exact literal
  | case5 s cmd token s₁ _ _ r _ unset s₂ file found ih =>
    refine ih fun x member => ?_
    rcases Command.mem_words.mp member with arg | ⟨r', here⟩
    · rw [Command.args_setFile] at arg
      exact literal x (Command.mem_words.mpr (.inl arg))
    · rw [Command.file_setFile] at here
      split at here
      · obtain rfl : file = x := by simpa using here
        exact same s₂ file ▸ nextFile_literal found
      · exact literal x (Command.mem_words.mpr (.inr ⟨r', here⟩))
  | case6 s cmd token s₁ _ room plain ih =>
    refine ih fun x member => ?_
    rcases Command.mem_words.mp member with arg | ⟨r', here⟩
    · rcases List.mem_append.mp arg with before | last
      · exact literal x (Command.mem_words.mpr (.inl before))
      · obtain rfl : x = token := by simpa using last
        exact same s₁ x ▸ plain
    · rw [Command.file_addArg] at here
      exact literal x (Command.mem_words.mpr (.inr ⟨r', here⟩))

theorem parseLoop_not_missing (t : Tokenizer σ τ) (s : σ) {cmd : Command τ} {r : Redirection}
    (accepted : cmd.hasError = false) (set : cmd.file r ≠ none) :
    ¬ ((t.parseLoop s cmd).command.hasError = true ∧ (t.parseLoop s cmd).command.errorMsg = r.missing) := by
  fun_induction t.parseLoop s cmd with
  | case1 => exact fun ⟨_, same⟩ => missing_ne_unterminated r same.symm
  | case2 | case7 =>
    rintro ⟨wrong, _⟩
    rw [Parsed.after, finish_command, accepted] at wrong
    cases wrong
  | case3 s cmd x s₁ _ _ r' => exact fun ⟨_, same⟩ => missing_ne_duplicate r r' same.symm
  | case4 s cmd x s₁ _ _ r' _ unset =>
    rintro ⟨_, same⟩
    obtain rfl := missing_injective same
    exact set unset
  | case5 s cmd x s₁ _ _ r' _ _ s₂ file _ ih => exact ih (by simpa using accepted) (Command.setFile_isSome set)
  | case6 s cmd x s₁ _ room _ ih => exact ih accepted (by simpa using set)

end Tokenizer

section Run

variable {t : Tokenizer σ τ} {t' : Tokenizer σ' τ'} {ok : Asked → σ' → Prop} {good : τ' → Prop}
  {S : σ → σ' → Prop} {U : σ → Prop} {T : σ → σ' → τ → τ' → Prop} {s : σ} {s' : σ'}
  {cmd : Command τ} {cmd' : Command τ'}

/-- Two runs end alike, and call for their tokens at related places. -/
structure Alongside (S : σ → σ' → Prop) (U : σ → Prop) (T : σ → σ' → τ → τ' → Prop) (parsed : Parsed σ τ)
    (parsed' : Parsed σ' τ') : Prop extends Agree U T parsed parsed' where
  calls : List.Forall₂ (fun call call' => call.1 = call'.1 ∧ S call.2 call'.2) parsed.calls parsed'.calls

theorem Alongside.after {parsed : Parsed σ τ} {parsed' : Parsed σ' τ'} (alongside : Alongside S U T parsed parsed')
    (asked : Asked) (states : S s s') : Alongside S U T (parsed.after (asked, s)) (parsed'.after (asked, s')) :=
  ⟨⟨alongside.command, alongside.stderr, alongside.state⟩, .cons ⟨rfl, states⟩ alongside.calls⟩

theorem Alongside.failed {u : σ} {u' : σ'} {calls : List (Asked × σ)} {calls' : List (Asked × σ')}
    (related : cmd.Rel (T u u') cmd') (msg : CString)
    (same : List.Forall₂ (fun call call' => call.1 = call'.1 ∧ S call.2 call'.2) calls calls') :
    Alongside S U T ⟨cmd.fail msg, u, [], calls⟩ ⟨cmd'.fail msg, u', [], calls'⟩ :=
  ⟨⟨related.fail msg, rfl, fun accepted => by cases accepted⟩, same⟩

theorem Follows.finish (follows : Follows t t' ok good S U T) (states : S s s') (related : cmd.Rel (T s s') cmd')
    (calls : ∀ call ∈ (t'.finish s' cmd').calls, ok call.1 call.2) :
    Alongside S U T (t.finish s cmd) (t'.finish s' cmd') := by
  unfold Tokenizer.finish at calls ⊢
  rw [related.length]
  split at calls
  · rename_i full
    have asked : ok .more s' := by
      cases fetched : t'.next s' <;> simp only [fetched] at calls <;> exact calls _ (List.mem_cons_self ..)
    have kept := related.mono fun _ _ => follows.keep states asked
    have more := follows.more states asked
    have called : List.Forall₂ (fun call call' => call.1 = call'.1 ∧ S call.2 call'.2) [(Asked.more, s)] [(Asked.more, s')] :=
      .cons ⟨rfl, states⟩ .nil
    rw [if_pos full, if_pos full]
    cases fetched : t.next s <;> cases fetched' : t'.next s' <;> rw [fetched, fetched'] at more kept <;> cases more
    · exact ⟨⟨kept, rfl, fun _ => ‹_›⟩, called⟩
    · exact ⟨⟨kept, rfl, fun _ => ‹_›⟩, called⟩
    · exact ⟨⟨kept, rfl, fun _ => ‹_›⟩, called⟩
  · rename_i room
    rw [if_neg room, if_neg room]
    exact ⟨⟨related, rfl, fun _ => follows.state states⟩, .nil⟩

theorem Follows.next_token (follows : Follows t t' ok good S U T) (states : S s s') (asked : ok .token s')
    {y : τ'} {s₁' : σ'} (fetched' : t'.next s' = .token y s₁') :
    ∃ x s₁, t.next s = .token x s₁ ∧ S s₁ s₁' ∧ T s₁ s₁' x y ∧ ∀ x y, T s s' x y → T s₁ s₁' x y := by
  have fetched := follows.next states asked
  have kept x y := follows.keep (x := x) (y := y) states asked
  cases one : t.next s <;> rw [one, fetched'] at fetched <;> cases fetched
  rw [one, fetched'] at kept
  exact ⟨_, _, rfl, ‹_›, ‹_›, kept⟩

theorem fileRel_of_next (fetched : Fetched.Rel S U T (t.next s) (t'.next s'))
    (operator : ∀ {s s' x y r}, T s s' x y →
      Redirection.ofToken (t'.text s' y) = some r → Redirection.ofToken (t.text s x) = some r)
    (word : ∀ {s s' x y}, T s s' x y → good y →
      Redirection.ofToken (t'.text s' y) = none → Redirection.ofToken (t.text s x) = none)
    (delivered : ∀ y, (t'.nextFile s').2 = some y → good y) : FileRel S T (t.nextFile s) (t'.nextFile s') := by
  unfold Tokenizer.nextFile at delivered ⊢
  cases one : t.next s <;> cases one' : t'.next s' <;> rw [one, one'] at fetched <;> cases fetched
  · rename_i x s₁ y s₁' states token
    rw [one'] at delivered
    dsimp only at delivered ⊢
    rw [isRedirectionOperator_eq, isRedirectionOperator_eq]
    rw [isRedirectionOperator_eq] at delivered
    cases found : Redirection.ofToken (t'.text s₁' y) with
    | some r =>
      rw [operator token found]
      exact .none
    | none =>
      rw [found] at delivered
      rw [word token (delivered y rfl) found]
      exact .some states token
  · exact .none
  · exact .none

theorem Follows.alongside (follows : Follows t t' ok good S U T) (states : S s s')
    (related : cmd.Rel (T s s') cmd') (calls : ∀ call ∈ (t'.parseLoop s' cmd').calls, ok call.1 call.2)
    (delivered : ∀ y ∈ (t'.parseLoop s' cmd').command.words, good y) :
    Alongside S U T (t.parseLoop s cmd) (t'.parseLoop s' cmd') := by
  fun_induction t'.parseLoop s' cmd' generalizing s cmd with
  | case1 s' cmd' u' fetched' =>
    have asked := calls _ (List.mem_cons_self ..)
    have fetched := follows.next states asked
    have kept := related.mono fun _ _ => follows.keep states asked
    rw [Tokenizer.parseLoop]
    cases one : t.next s <;> rw [one, fetched'] at fetched <;> cases fetched
    rw [one, fetched'] at kept
    exact .failed kept _ (.cons ⟨rfl, states⟩ .nil)
  | case2 s' cmd' u' fetched' =>
    have asked := calls _ (List.mem_cons_self ..)
    have fetched := follows.next states asked
    have kept := related.mono fun _ _ => follows.keep states asked
    rw [Tokenizer.parseLoop]
    cases one : t.next s <;> rw [one, fetched'] at fetched <;> cases fetched
    rw [one, fetched'] at kept
    exact (follows.finish ‹_› kept fun call member => calls call (List.mem_cons_of_mem _ member)).after _ states
  | case3 s' cmd' y s₁' fetched' room r operator file set =>
    obtain ⟨x, s₁, fetched, _, token, kept⟩ :=
      follows.next_token states (calls _ (List.mem_cons_self ..)) fetched'
    obtain ⟨file, twice⟩ := related.file_some set
    rw [Tokenizer.parseLoop_duplicate fetched (related.length ▸ room) (follows.operator token operator) twice]
    exact .failed (related.mono kept) _ (.cons ⟨rfl, states⟩ .nil)
  | case4 s' cmd' y s₁' fetched' room r operator unset s₂' missing' =>
    obtain ⟨x, s₁, fetched, states₁, token, kept⟩ :=
      follows.next_token states (calls _ (List.mem_cons_self ..)) fetched'
    have asked : ok .file s₁' := calls (.file, s₁') (by simp)
    have file := follows.file states₁ asked (by simp [missing'])
    have stay := (related.mono kept).mono fun _ _ => follows.keep states₁ asked
    rw [← Tokenizer.nextFile_state, ← Tokenizer.nextFile_state, missing'] at stay
    rw [missing'] at file
    cases missing : t.nextFile s₁ with | mk s₂ found
    rw [missing] at file stay
    cases file
    rw [Tokenizer.parseLoop_missing fetched (related.length ▸ room) (follows.operator token operator)
      (related.file_none unset) missing]
    exact .failed stay _ (.cons ⟨rfl, states⟩ (.cons ⟨rfl, states₁⟩ .nil))
  | case5 s' cmd' y s₁' fetched' room r operator unset s₂' y' found' ih =>
    obtain ⟨x, s₁, fetched, states₁, token, kept⟩ :=
      follows.next_token states (calls _ (List.mem_cons_self ..)) fetched'
    have asked : ok .file s₁' := calls (.file, s₁') (by simp [Parsed.after])
    have held : y' ∈ (cmd'.setFile r y').words := Command.mem_words.mpr (.inr ⟨r, by simp [Command.file_setFile]⟩)
    have file := follows.file states₁ asked fun y same => by
      rw [found', Option.some.injEq] at same
      exact same ▸ delivered _ (Tokenizer.parseLoop_words _ _ _ held)
    have stay := (related.mono kept).mono fun _ _ => follows.keep states₁ asked
    rw [← Tokenizer.nextFile_state, ← Tokenizer.nextFile_state, found'] at stay
    rw [found'] at file
    cases found : t.nextFile s₁ with | mk s₂ _
    rw [found] at file stay
    cases file
    rw [Tokenizer.parseLoop_file fetched (related.length ▸ room) (follows.operator token operator)
      (related.file_none unset) found]
    refine ((ih ‹_› (stay.setFile ‹_› r) ?_ delivered).after _ states₁).after _ states
    exact fun call member => calls call (List.mem_cons_of_mem _ (List.mem_cons_of_mem _ member))
  | case6 s' cmd' y s₁' fetched' room plain ih =>
    obtain ⟨x, s₁, fetched, states₁, token, kept⟩ :=
      follows.next_token states (calls _ (List.mem_cons_self ..)) fetched'
    have held : y ∈ (cmd'.addArg y room).words := Command.mem_words.mpr (.inl (by simp [Command.addArg]))
    have good := delivered _ (Tokenizer.parseLoop_words _ _ _ held)
    rw [Tokenizer.parseLoop_arg fetched (related.length ▸ room) (follows.word token good plain)]
    refine (ih states₁ ((related.mono kept).addArg token _ room) ?_ delivered).after _ states
    exact fun call member => calls call (List.mem_cons_of_mem _ member)
  | case7 s' cmd' y s₁' fetched' full =>
    obtain ⟨x, s₁, fetched, states₁, token, kept⟩ :=
      follows.next_token states (calls _ (List.mem_cons_self ..)) fetched'
    rw [Tokenizer.parseLoop_full fetched (related.length ▸ full)]
    exact (follows.finish states₁ (related.mono kept) fun call member => calls call (List.mem_cons_of_mem _ member)).after _ states

theorem Follows.parseLoop (follows : Follows t t' ok good S U T) (states : S s s')
    (related : cmd.Rel (T s s') cmd') (calls : ∀ call ∈ (t'.parseLoop s' cmd').calls, ok call.1 call.2)
    (delivered : ∀ y ∈ (t'.parseLoop s' cmd').command.words, good y) :
    Agree U T (t.parseLoop s cmd) (t'.parseLoop s' cmd') :=
  (follows.alongside states related calls delivered).toAgree

end Run

/-! ### A line in a buffer -/

section InPlace

variable {α : Type} [Glyph α] {front tail line : List α} {size : Nat}

theorem Standing.frame {r : Reader α} {left : Option (List α)} (standing : Standing front tail size r left) :
    ∃ consumed, r.buf = front ++ consumed ++ tail ∧ consumed.length = size := by
  cases standing with
  | inside consumed s buf cursor whole plain => exact ⟨consumed ++ s, by simp [buf], by simp [whole]⟩
  | past consumed blanks buf whole => exact ⟨consumed, buf, whole⟩

/-- If a line is read on past its terminator, the text there does not make a difference. -/
def Stays (following : List α) (asked : Asked) (left : Option (List α)) : Prop :=
  left = none →
    match asked with
    | .file => (alone.nextFile (some (readAt following 0))).2 = none
    | .token | .more => Bare following

theorem nextAlone_append {blanks : List α} (blank : ∀ g ∈ blanks, isBlank (look g)) (s : List α) :
    nextAlone (some (blanks ++ s)) = nextAlone (some s) := by
  simp only [nextAlone, dropBlanks_append blank]

theorem Placed.text {r : Reader α} {n ptr : Nat} {word : List α} (placed : Placed r.buf n ptr word)
    (left : Option (List α)) : inPlace.text r ptr = alone.text left word :=
  congrArg (List.map look) placed.read

theorem nextFile_inside (ends : charAt tail 0 = NUL) {r : Reader α} {s : List α}
    (standing : Standing front tail size r (some s)) :
    FileRel (Standing front tail size) (fun r' left ptr word => Placed r'.buf (reached front size left) ptr word)
      (inPlace.nextFile r) (alone.nextFile (some s)) := by
  refine fileRel_of_next (nextToken_reads ends standing) ?_ ?_ (fun _ _ => trivial)
  · intro r left ptr word redirection placed found
    rw [placed.text]
    exact found
  · intro r left ptr word placed _ found
    rw [placed.text]
    exact found

theorem nextFile_past {r : Reader α} (standing : Standing front tail size r none) :
    (inPlace.nextFile r).2 = none ↔ (alone.nextFile (some (readAt tail.tail 0))).2 = none := by
  obtain ⟨blanks, rest, blank⟩ : ∃ blanks, tail.tail = blanks ++ r.buf.drop r.cursor ∧ ∀ g ∈ blanks, isBlank (look g) := by
    cases standing with
    | past consumed blanks buf whole beyond left blank => exact ⟨blanks, left, blank⟩
  have text : readAt tail.tail 0 = blanks ++ readAt r.buf r.cursor := by
    rw [rest]
    exact List.takeWhile_append_of_pos fun g member => by simpa using isBlank_visible (blank g member)
  have same : alone.nextFile (some (readAt tail.tail 0)) = alone.nextFile (some (readAt r.buf r.cursor)) := by
    have fetched : alone.next (some (blanks ++ readAt r.buf r.cursor)) = alone.next (some (readAt r.buf r.cursor)) :=
      nextAlone_append blank _
    unfold Tokenizer.nextFile
    rw [text, fetched]
  rw [same]
  by_cases inside : r.cursor ≤ r.buf.length
  · obtain ⟨tail', ends, standing⟩ := standing_at inside
    have file := nextFile_inside ends standing
    cases found : inPlace.nextFile r with | mk s file' =>
    cases found' : alone.nextFile (some (readAt r.buf r.cursor)) with | mk s' word
    rw [found, found'] at file
    cases file <;> simp
  · have ended : charAt r.buf r.cursor = NUL := by
      by_contra visible
      exact inside (Nat.le_of_lt (lt_length_of_charAt visible))
    have nothing : readAt r.buf r.cursor = [] := by
      rw [readAt, List.drop_eq_nil_of_le (Nat.le_of_not_le inside)]
      rfl
    rw [nothing]
    simp [Tokenizer.nextFile, inPlace, alone, nextAlone, dropBlanks, nextToken_finished ended]

/-- A line that stands in a buffer is read in place as it is read alone. -/
theorem inPlace_follows (ends : charAt tail 0 = NUL) :
    Follows inPlace alone (Stays tail.tail) (fun _ => True) (Standing front tail size)
      (fun r => ∃ consumed, r.buf = front ++ consumed ++ tail ∧ consumed.length = size)
      (fun r left ptr word => Placed r.buf (reached front size left) ptr word) where
  next {r left} standing stays := by
    cases left with
    | some s => exact nextToken_reads ends standing
    | none =>
      obtain ⟨r', finished, standing⟩ := nextToken_past standing (stays rfl)
      change Fetched.Rel _ _ _ (nextToken r) (.finished none)
      rw [finished]
      exact .finished standing
  file {r left} standing stays _ := by
    cases left with
    | some s => exact nextFile_inside ends standing
    | none =>
      cases found : inPlace.nextFile r with | mk s file =>
      have nothing := (nextFile_past standing).mpr (stays rfl)
      rw [found] at nothing
      cases nothing
      exact .none
  more {r left} standing stays := by
    cases left with
    | some s => exact (nextToken_reads ends standing).imp (fun standing => standing.frame) id fun _ => trivial
    | none =>
      obtain ⟨r', finished, standing⟩ := nextToken_past standing (stays rfl)
      change Fetched.Rel _ _ _ (nextToken r) (.finished none)
      rw [finished]
      exact .finished standing.frame
  keep {r left ptr word asked} standing _ placed := by
    have taken := (nextToken_take r).1
    have more : reached front size left ≤ reached front size (nextAlone left).state :=
      Nat.sub_le_sub_left (nextAlone_length left) _
    cases standing with
    | inside consumed s buf cursor whole plain =>
      have here : reached front size (some s) = r.cursor := by
        simp only [reached, Option.getD_some, cursor, List.length_append]
        omega
      rw [here] at placed more
      refine placed.keep taken (fun ended => ?_) more
      change charAt (nextToken r).state.buf _ = NUL
      rw [nextToken_finished ended]
      exact ended
    | past consumed blanks buf whole beyond =>
      have before : reached front size none < r.cursor := by
        simp only [List.length_append] at beyond
        simp only [reached, Option.getD_none, List.length_nil]
        omega
      refine placed.keep ?_ (fun ended => ?_) more
      · have shorter := congrArg (List.take (reached front size none)) taken
        rwa [List.take_take, List.take_take, Nat.min_eq_left (Nat.le_of_lt before)] at shorter
      · change charAt (nextToken r).state.buf _ = NUL
        rw [← charAt_take before, taken, charAt_take before]
        exact ended
  state standing := standing.frame
  operator placed found := by
    rw [placed.text]
    exact found
  word placed _ found := by
    rw [placed.text]
    exact found

theorem standing_line (front tail : List α) (visible : ∀ g ∈ line, g ≠ nul) :
    Standing front tail line.length ⟨front ++ (line ++ tail), front.length⟩ (some line) :=
  .inside [] line (by simp) (by simp) (by simp) visible

/-- `parse_command` on a line in a buffer does what it does on the line alone. -/
theorem parseCommand_stands (ends : charAt tail 0 = NUL) (visible : ∀ g ∈ line, g ≠ nul)
    (stays : ∀ call ∈ (parseAlone line).calls, Stays tail.tail call.1 call.2) :
    Agree (fun r => ∃ consumed, r.buf = front ++ consumed ++ tail ∧ consumed.length = line.length)
      (fun r left ptr word => Placed r.buf (reached front line.length left) ptr word)
      (parseCommand (front ++ (line ++ tail)) front.length) (parseAlone line) :=
  (inPlace_follows ends).parseLoop (standing_line front tail visible) .empty stays fun _ _ => trivial

theorem stays_of_ended {following : List α} (ended : charAt following 0 = NUL) (asked : Asked) (left : Option (List α)) :
    Stays following asked left := by
  have nothing : readAt following 0 = [] := by
    have text := takeWhile_visible (List.forall_mem_nil _) ended
    simpa [readAt] using text
  have bare : Bare following := by
    cases following with
    | nil => exact charAt_nil 0
    | cons g following =>
      have head : look g = NUL := ended
      simp [Bare, dropBlanks, head, isBlank, NUL]
  intro _
  cases asked with
  | file => rw [nothing]; rfl
  | token | more => exact bare

/-- What stands behind a line: its NUL and one more. `fgets` leaves its own behind the newline, which
`main` overwrites. -/
def Closed (tail : List α) : Prop := charAt tail 0 = NUL ∧ charAt tail 1 = NUL

theorem parseCommand_closed (closed : Closed tail) (visible : ∀ g ∈ line, g ≠ nul) :
    (parseCommand (line ++ tail) 0).read = (parseAlone line).command ∧
      (parseCommand (line ++ tail) 0).stderr = (parseAlone line).stderr := by
  have next : charAt tail.tail 0 = NUL := by
    cases tail with
    | nil => exact charAt_nil 0
    | cons g tail => exact closed.2
  have agree : Agree _ _ (parseCommand ([] ++ (line ++ tail)) ([] : List α).length) (parseAlone line) :=
    parseCommand_stands closed.1 visible fun call _ => stays_of_ended next call.1 call.2
  exact ⟨agree.command.map_eq fun _ _ placed => placed.read, agree.stderr⟩

theorem parseCommand_alone (visible : ∀ g ∈ line, g ≠ nul) :
    (parseCommand line 0).read = (parseAlone line).command := by
  have closed : Closed ([] : List α) := ⟨charAt_nil 0, charAt_nil 1⟩
  have read := (parseCommand_closed closed visible).1
  rwa [List.append_nil] at read

theorem parseCommand_take (b : List α) (input : Nat) :
    (parseCommand b input).state.buf.take input = b.take input := by
  have kept : ∀ r : Reader α, (r.buf.take input = b.take input ∧ input ≤ r.cursor) →
      (nextToken r).state.buf.take input = b.take input ∧ input ≤ (nextToken r).state.cursor := by
    intro r ⟨same, behind⟩
    obtain ⟨taken, onward⟩ := nextToken_take r
    have shorter := congrArg (List.take input) taken
    rw [List.take_take, List.take_take, Nat.min_eq_left behind] at shorter
    exact ⟨shorter.trans same, Nat.le_trans behind onward⟩
  exact (Tokenizer.parseLoop_invariant (t := inPlace) kept ⟨rfl, Nat.le_refl _⟩).1

theorem parseLoop_takes (ends : charAt tail 0 = NUL) (word : (alone.nextFile (some (readAt tail.tail 0))).2 ≠ none)
    {r : Reader α} {left : Option (List α)} {cmd : Command Nat} {cmd' : Command (List α)}
    (standing : Standing front tail size r left)
    (related : cmd.Rel (fun ptr word => Placed r.buf (reached front size left) ptr word) cmd')
    (accepted : cmd'.hasError = false) (past : (.file, none) ∈ (alone.parseLoop left cmd').calls) :
    ∃ (red : Redirection) (r₁ r₂ : Reader α) (taken : Command Nat) (file : Nat),
      ((alone.parseLoop left cmd').command.hasError = true ∧ (alone.parseLoop left cmd').command.errorMsg = red.missing) ∧
      Standing front tail size r₁ none ∧ inPlace.nextFile r₁ = (r₂, some file) ∧ taken.hasError = false ∧
      (inPlace.parseLoop r cmd).command = (inPlace.parseLoop r₂ (taken.setFile red file)).command := by
  have follows : Follows inPlace alone (Stays tail.tail) (fun _ => True) (Standing front tail size) _ _ :=
    inPlace_follows ends
  have inside {asked : Asked} {left : Option (List α)} {token : List α} {left₁ : Option (List α)}
      (fetched : alone.next left = .token token left₁) : Stays tail.tail asked left := by
    rintro rfl
    cases fetched
  fun_induction alone.parseLoop left cmd' generalizing r cmd with
  | case1 => simp at past
  | case2 left cmd' left₁ =>
    rcases List.mem_cons.mp past with same | past
    · simp at same
    · exact absurd (Tokenizer.finish_calls _ past) (by simp)
  | case3 => simp at past
  | case4 left cmd' y left₁ fetched' room red operator unset left₂ missing =>
    obtain rfl : none = left₁ := by simpa using past
    obtain ⟨x, r₁, fetched, standing, token, kept⟩ := follows.next_token standing (inside fetched') fetched'
    cases found : inPlace.nextFile r₁ with | mk r₂ file =>
    cases file with
    | none => exact absurd ((nextFile_past standing).mp (by rw [found])) word
    | some file =>
      refine ⟨red, r₁, r₂, cmd, file, ⟨rfl, rfl⟩, standing, found, related.hasError.trans accepted, ?_⟩
      rw [Tokenizer.parseLoop_file fetched (related.length ▸ room) (follows.operator token operator)
        (related.file_none unset) found]
      rfl
  | case5 left cmd' y left₁ fetched' room red operator unset left₂ y' found' ih =>
    obtain ⟨x, r₁, fetched, standing, token, kept⟩ := follows.next_token standing (inside fetched') fetched'
    have within : left₁ ≠ none := by
      rintro rfl
      cases found'
    have stays : Stays tail.tail .file left₁ := fun beyond => absurd beyond within
    have file := follows.file standing stays fun _ _ => trivial
    have stay := (related.mono kept).mono fun _ _ => follows.keep standing stays
    rw [← Tokenizer.nextFile_state, ← Tokenizer.nextFile_state, found'] at stay
    rw [found'] at file
    cases found : inPlace.nextFile r₁ with | mk r₂ _
    rw [found] at file stay
    cases file
    rw [Tokenizer.parseLoop_file fetched (related.length ▸ room) (follows.operator token operator)
      (related.file_none unset) found]
    refine ih ‹_› (stay.setFile ‹_› red) (by simpa using accepted) ?_
    simpa [Parsed.after, Ne.symm within] using past
  | case6 left cmd' y left₁ fetched' room plain ih =>
    obtain ⟨x, r₁, fetched, standing, token, kept⟩ := follows.next_token standing (inside fetched') fetched'
    rw [Tokenizer.parseLoop_arg fetched (related.length ▸ room) (follows.word token trivial plain)]
    exact ih standing ((related.mono kept).addArg token _ room) accepted (by simpa [Parsed.after] using past)
  | case7 left cmd' y left₁ =>
    rcases List.mem_cons.mp past with same | past
    · simp at same
    · exact absurd (Tokenizer.finish_calls _ past) (by simp)

theorem parseLoop_strays (ends : charAt tail 0 = NUL) (word : (alone.nextFile (some (readAt tail.tail 0))).2 ≠ none)
    {r : Reader α} {left : Option (List α)} {cmd : Command Nat} {cmd' : Command (List α)}
    (standing : Standing front tail size r left)
    (related : cmd.Rel (fun ptr word => Placed r.buf (reached front size left) ptr word) cmd')
    (accepted : cmd'.hasError = false) (past : (.file, none) ∈ (alone.parseLoop left cmd').calls) :
    ∃ red : Redirection, (alone.parseLoop left cmd').command.hasError = true ∧
      (alone.parseLoop left cmd').command.errorMsg = red.missing ∧
      ¬ ((inPlace.parseLoop r cmd).command.hasError = true ∧ (inPlace.parseLoop r cmd).command.errorMsg = red.missing) := by
  obtain ⟨red, _, r₂, taken, file, ⟨wrong, missing⟩, _, _, clean, same⟩ := parseLoop_takes ends word standing related accepted past
  rw [same]
  exact ⟨red, wrong, missing, Tokenizer.parseLoop_not_missing inPlace r₂ (by simpa using clean) (by simp [Command.file_setFile])⟩

theorem parseCommand_strays (front : List α) (ends : charAt tail 0 = NUL) (visible : ∀ g ∈ line, g ≠ nul)
    (word : (alone.nextFile (some (readAt tail.tail 0))).2 ≠ none) (past : (.file, none) ∈ (parseAlone line).calls) :
    ∃ red : Redirection, (parseAlone line).command.hasError = true ∧
      (parseAlone line).command.errorMsg = red.missing ∧
      ¬ ((parseCommand (front ++ (line ++ tail)) front.length).command.hasError = true ∧
        (parseCommand (front ++ (line ++ tail)) front.length).command.errorMsg = red.missing) :=
  parseLoop_strays ends word (standing_line front tail visible) .empty rfl past

theorem parseAlone_explained (line : List α) : (parseAlone line).command.Explained :=
  Tokenizer.parseLoop_explained alone _ rfl

theorem parseCommand_explained (b : List α) (input : Nat) : (parseCommand b input).command.Explained :=
  Tokenizer.parseLoop_explained inPlace _ rfl

end InPlace

end MyShell.Parser
