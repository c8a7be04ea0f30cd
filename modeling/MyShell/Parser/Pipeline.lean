import MyShell.Parser.Command
import Mathlib.Data.List.DropRight

/-! # Pipelines

`parse_pipeline` of `parser.c` splits a line in its buffer at every `'|'` and runs `parse_command`
on each piece where it stands. `splitPipeline` is the pipeline of the pieces taken apart. -/

namespace MyShell.Parser

def MAX_CMDS : Nat := 16

def ERROR_MSG_SIZE : Nat := 256

def MISSING_AFTER_PIPE : CString := "Command missing after pipe.".toList

def EMPTY_BETWEEN_PIPES : CString := "Empty command between pipes.".toList

def TOO_MANY_COMMANDS : CString := "Error: Too many commands in pipeline (max 16).".toList

/-- `Pipeline`. `cmds` are the entries up to `count`; `rejected` is the one after them when
`parse_command` found an error in it. -/
structure Pipeline (τ : Type) where
  cmds : List (Command τ) := []
  rejected : Option (Command τ) := none
  hasError : Bool := false
  errorMsg : CString := []
  fits : cmds.length ≤ MAX_CMDS := by exact Nat.zero_le _

namespace Pipeline

variable {τ τ' : Type}

def count (p : Pipeline τ) : Nat := p.cmds.length

def add (p : Pipeline τ) (cmd : Command τ) (room : p.count < MAX_CMDS) : Pipeline τ :=
  { p with
    cmds := p.cmds ++ [cmd]
    fits := by
      rw [List.length_append, List.length_singleton]
      exact room }

def fail (p : Pipeline τ) (msg : CString) : Pipeline τ := { p with hasError := true, errorMsg := msg }

def reject (p : Pipeline τ) (cmd : Command τ) : Pipeline τ :=
  { p with rejected := some cmd, hasError := true, errorMsg := cmd.errorMsg.take (ERROR_MSG_SIZE - 1) }

def map (f : τ → τ') (p : Pipeline τ) : Pipeline τ' where
  cmds := p.cmds.map (Command.map f)
  rejected := p.rejected.map (Command.map f)
  hasError := p.hasError
  errorMsg := p.errorMsg
  fits := by simpa using p.fits

variable {f : τ → τ'} {p : Pipeline τ} {cmd : Command τ}

@[simp] theorem count_map : (p.map f).count = p.count := List.length_map _

theorem map_fail (msg : CString) : (p.fail msg).map f = (p.map f).fail msg := rfl

theorem map_reject : (p.reject cmd).map f = (p.map f).reject (cmd.map f) := rfl

theorem map_add (room : p.count < MAX_CMDS) (room' : (p.map f).count < MAX_CMDS) :
    (p.add cmd room).map f = (p.map f).add (cmd.map f) room' := by
  simp [add, map]

end Pipeline

variable {α : Type} [Glyph α]

/-! ### In place -/

def findSeparator (b : List α) (cursor : Nat) : Nat :=
  if charAt b cursor = NUL then cursor
  else if charAt b cursor = '|' then cursor
  else findSeparator b (cursor + 1)
termination_by b.length - cursor
decreasing_by
  rename_i visible _
  have := lt_length_of_charAt visible
  omega

/-- The loop that trims the blanks at the end of the `len` characters at `s`. -/
def trimEnd (b : List α) (s : Nat) : Nat → List α
  | 0 => b
  | len + 1 => if isBlank (charAt b (s + len)) then trimEnd (b.set (s + len) nul) s len else b

def trimInplace (b : List α) (s : Nat) : List α × Nat :=
  let s := skipBlanks b s
  (trimEnd b s (readAt b s).length, s)

structure PipelineRun (α : Type) where
  pipeline : Pipeline Nat
  buf : List α
  stderr : List CString

def pipelineLoop (b : List α) (segmentStart : Nat) (p : Pipeline Nat) : PipelineRun α :=
  let cursor := findSeparator b segmentStart
  let saved := charAt b cursor
  let (b, seg) := trimInplace (b.set cursor nul) segmentStart
  if charAt b seg = NUL then
    ⟨p.fail (if saved = NUL then MISSING_AFTER_PIPE else EMPTY_BETWEEN_PIPES), b, []⟩
  else if room : p.count < MAX_CMDS then
    let parsed := parseCommand b seg
    if parsed.command.hasError then ⟨p.reject parsed.command, parsed.state.buf, parsed.stderr⟩
    else if saved = NUL then ⟨p.add parsed.command room, parsed.state.buf, parsed.stderr⟩
    else
      let run := pipelineLoop parsed.state.buf (cursor + 1) (p.add parsed.command room)
      { run with stderr := parsed.stderr ++ run.stderr }
  else ⟨p.fail TOO_MANY_COMMANDS, b, []⟩
termination_by MAX_CMDS - p.count
decreasing_by
  simp only [Pipeline.count, Pipeline.add, List.length_append, List.length_singleton] at room ⊢
  omega

def parsePipeline (b : List α) (input : Nat) : PipelineRun α := pipelineLoop b input {}

def PipelineRun.read (run : PipelineRun α) : Pipeline (List α) := run.pipeline.map (readAt run.buf)

/-! ### The pieces taken apart -/

def trim (s : List α) : List α := (dropBlanks s).rdropWhile (isBlank ∘ look)

def trailing (s : List α) : List α := (dropBlanks s).rtakeWhile (isBlank ∘ look)

/-- Every piece in a buffer of its own, from left to right up to the first that is not a command. -/
def piecesPipeline : List (List α) → Pipeline (List α) → Pipeline (List α)
  | [], p => p
  | piece :: pieces, p =>
    if trim piece = [] then p.fail (if pieces = [] then MISSING_AFTER_PIPE else EMPTY_BETWEEN_PIPES)
    else if room : p.count < MAX_CMDS then
      let cmd := (parseCommand (trim piece) 0).read
      if cmd.hasError then p.reject cmd else piecesPipeline pieces (p.add cmd room)
    else p.fail TOO_MANY_COMMANDS

def splitPipes (line : List α) : List (List α) := line.splitOnP (look · == '|')

def splitPipeline (line : List α) : Pipeline (List α) := piecesPipeline (splitPipes line) {}

def joinPipes (pieces : List (List α)) : List α := [plain '|'].intercalate pieces

/-- What stands in the buffer past the NUL that ends a piece. A blank before a separator ends the
piece as well, so that the next NUL follows at once. -/
def following (piece : List α) (pieces : List (List α)) (tail : List α) : List α :=
  if trailing piece ≠ [] then []
  else if pieces = [] then tail.tail
  else joinPipes pieces ++ tail

/-- No piece that is reached is read on past its end to any effect. -/
def Confined : List (List α) → List α → Nat → Prop
  | [], _, _ => True
  | piece :: pieces, tail, count =>
    trim piece = [] ∨ MAX_CMDS ≤ count ∨
      (∀ call ∈ (parseAlone (trim piece)).calls, Stays (following piece pieces tail) call.1 call.2) ∧
        ((parseAlone (trim piece)).command.hasError = true ∨ Confined pieces tail (count + 1))

instance (following : List α) (asked : Asked) : ∀ left, Decidable (Stays following asked left)
  | none =>
    match asked with
    | .file => decidable_of_iff ((alone.nextFile (some (readAt following 0))).2 = none) ⟨fun h _ => h, fun h => h rfl⟩
    | .token | .more => decidable_of_iff (charAt (dropBlanks following) 0 = NUL) ⟨fun h _ => h, fun h => h rfl⟩
  | some _ => isTrue nofun

instance decidableConfined : ∀ (pieces : List (List α)) (tail : List α) (count : Nat), Decidable (Confined pieces tail count)
  | [], _, _ => isTrue trivial
  | piece :: pieces, tail, count =>
    have := decidableConfined pieces tail (count + 1)
    inferInstanceAs (Decidable (trim piece = [] ∨ MAX_CMDS ≤ count ∨
      (∀ call ∈ (parseAlone (trim piece)).calls, Stays (following piece pieces tail) call.1 call.2) ∧
        ((parseAlone (trim piece)).command.hasError = true ∨ Confined pieces tail (count + 1))))

/-! ### One piece in the buffer -/

variable {front tail s piece : List α} {pieces : List (List α)}

theorem plain_pipe {g : α} : look g = '|' ↔ g = plain '|' := by
  constructor
  · intro pipe
    rw [← plain_look (g := g) (by rw [pipe]; decide), pipe]
  · rintro rfl
    exact look_plain '|'

theorem findSeparator_line (visible : ∀ g ∈ s, g ≠ nul ∧ g ≠ plain '|') (stops : charAt tail 0 = NUL ∨ charAt tail 0 = '|')
    (front : List α) : findSeparator (front ++ (s ++ tail)) front.length = (front ++ s).length := by
  induction s generalizing front with
  | nil =>
    unfold findSeparator
    rw [List.nil_append, charAt_length_append]
    rcases stops with ended | pipe
    · simp [ended]
    · simp [pipe]
  | cons g s ih =>
    obtain ⟨notNul, notPipe⟩ := visible g (List.mem_cons_self ..)
    unfold findSeparator
    rw [List.cons_append, charAt_length_append, charAt_cons_zero, if_neg (mt look_eq_nul.mp notNul),
      if_neg (mt plain_pipe.mp notPipe)]
    have later := ih (fun g member => visible g (List.mem_cons_of_mem _ member)) (front ++ [g])
    simpa [Nat.add_assoc, Nat.add_comm] using later

theorem trimEnd_line (front s tail : List α) :
    trimEnd (front ++ (s ++ tail)) front.length s.length =
      front ++ (s.rdropWhile (isBlank ∘ look) ++ (List.replicate (s.rtakeWhile (isBlank ∘ look)).length nul ++ tail)) := by
  induction s using List.reverseRecOn generalizing tail with
  | nil => simp [trimEnd]
  | append_singleton s g ih =>
    have last : charAt (front ++ (s ++ [g] ++ tail)) (front.length + s.length) = look g := by
      rw [charAt_append, List.append_assoc, List.singleton_append, charAt_length_append, charAt_cons_zero]
    rw [List.length_append, List.length_singleton, trimEnd, last]
    by_cases blank : isBlank (look g) = true
    · have erased : (front ++ (s ++ [g] ++ tail)).set (front.length + s.length) nul = front ++ (s ++ nul :: tail) := by
        simp [List.set_append_right]
      rw [if_pos blank, erased, ih, List.rdropWhile_concat_pos _ _ _ (by simpa using blank),
        List.rtakeWhile_concat_pos _ _ _ (by simpa using blank)]
      simp [List.replicate_succ']
    · rw [if_neg blank, List.rdropWhile_concat_neg _ _ _ (by simpa using blank),
        List.rtakeWhile_concat_neg _ _ _ (by simpa using blank)]
      simp

theorem trimInplace_line (ends : charAt tail 0 = NUL) (visible : ∀ g ∈ s, g ≠ nul) (front : List α) :
    ∃ blanks, blanks.length + (trim s).length + (trailing s).length = s.length ∧
      trimInplace (front ++ (s ++ tail)) front.length =
        (front ++ blanks ++ (trim s ++ (List.replicate (trailing s).length nul ++ tail)), (front ++ blanks).length) := by
  have split : s.takeWhile (isBlank ∘ look) ++ dropBlanks s = s := List.takeWhile_append_dropWhile
  have splitEnd : trim s ++ trailing s = dropBlanks s := List.rdropWhile_append_rtakeWhile ..
  refine ⟨s.takeWhile (isBlank ∘ look), ?_, ?_⟩
  · have lengths := congrArg List.length split
    rw [← splitEnd] at lengths
    simpa [Nat.add_assoc] using lengths
  · have same : front ++ (s ++ tail) = front ++ s.takeWhile (isBlank ∘ look) ++ (dropBlanks s ++ tail) := by
      conv_lhs => rw [← split]
      simp
    have read : readAt (front ++ (s ++ tail)) (front ++ s.takeWhile (isBlank ∘ look)).length = dropBlanks s := by
      rw [same, readAt, List.drop_left']
      · exact takeWhile_visible (fun g member => visible g (List.dropWhile_subset _ member)) ends
      · rfl
    unfold trimInplace
    dsimp only
    rw [skipBlanks_line ends, read, same, trimEnd_line]
    rfl

/-! ### The commands of the pieces before -/

/-- A text that ends, with its NUL, before the place `n`. -/
def Held (b : List α) (n ptr : Nat) (text : List α) : Prop := ∃ m < n, Placed b m ptr text

theorem Held.keep {b b' : List α} {n n' ptr : Nat} {text : List α} (held : Held b n ptr text)
    (kept : b'.take n = b.take n) (more : n ≤ n') : Held b' n' ptr text := by
  obtain ⟨m, before, placed⟩ := held
  refine ⟨m, Nat.lt_of_lt_of_le before more, placed.keep ?_ (fun ended => ?_) (Nat.le_refl m)⟩
  · have shorter := congrArg (List.take m) kept
    rwa [List.take_take, List.take_take, Nat.min_eq_left (Nat.le_of_lt before)] at shorter
  · rw [← charAt_take before, kept, charAt_take before]
    exact ended

theorem Held.read {b : List α} {n ptr : Nat} {text : List α} (held : Held b n ptr text) : readAt b ptr = text := by
  obtain ⟨m, before, placed⟩ := held
  exact placed.read

/-- Two pipelines with related tokens. -/
structure Pipeline.Rel {τ τ' : Type} (T : τ → τ' → Prop) (p : Pipeline τ) (p' : Pipeline τ') : Prop where
  cmds : List.Forall₂ (Command.Rel T) p.cmds p'.cmds
  rejected : Option.Rel (Command.Rel T) p.rejected p'.rejected
  hasError : p.hasError = p'.hasError
  errorMsg : p.errorMsg = p'.errorMsg

namespace Pipeline.Rel

variable {τ τ' : Type} {T T' : τ → τ' → Prop} {p : Pipeline τ} {p' : Pipeline τ'} {cmd : Command τ} {cmd' : Command τ'}

theorem mono (related : Rel T p p') (more : ∀ x y, T x y → T' x y) : Rel T' p p' where
  cmds := related.cmds.imp fun _ _ same => same.mono more
  rejected := Command.Rel.imp related.rejected fun _ _ same => same.mono more
  hasError := related.hasError
  errorMsg := related.errorMsg

theorem count (related : Rel T p p') : p.count = p'.count := related.cmds.length_eq

theorem fail (related : Rel T p p') (msg : CString) : Rel T (p.fail msg) (p'.fail msg) :=
  ⟨related.cmds, related.rejected, rfl, rfl⟩

theorem add (related : Rel T p p') (same : cmd.Rel T cmd') (room : p.count < MAX_CMDS) (room' : p'.count < MAX_CMDS) :
    Rel T (p.add cmd room) (p'.add cmd' room') :=
  ⟨List.rel_append related.cmds (.cons same .nil), related.rejected, related.hasError, related.errorMsg⟩

theorem reject (related : Rel T p p') (same : cmd.Rel T cmd') : Rel T (p.reject cmd) (p'.reject cmd') :=
  ⟨related.cmds, .some same, rfl, by rw [Pipeline.reject, Pipeline.reject, same.errorMsg]⟩

theorem map_eq {f : τ → τ'} (related : Rel T p p') (same : ∀ x y, T x y → f x = y) : p.map f = p' := by
  have cmds : p.cmds.map (Command.map f) = p'.cmds := by
    rw [← List.forall₂_eq_eq_eq, List.forall₂_map_left_iff]
    exact related.cmds.imp fun _ _ pair => pair.map_eq same
  have rejected : p.rejected.map (Command.map f) = p'.rejected :=
    Command.Rel.optionRel_map_eq related.rejected fun _ _ pair => pair.map_eq same
  obtain ⟨cmds', rejected', hasError, errorMsg, fits⟩ := p'
  simp only [map, Pipeline.mk.injEq]
  exact ⟨cmds, rejected, related.hasError, related.errorMsg⟩

end Pipeline.Rel

/-! ### The loop -/

theorem charAt_replicate (ends : charAt tail 0 = NUL) (k : Nat) : charAt (List.replicate k nul ++ tail) 0 = NUL := by
  cases k with
  | zero => exact ends
  | succ k => simp [List.replicate_succ]

theorem trim_subset (s : List α) : trim s ⊆ s :=
  List.Subset.trans (List.rdropWhile_prefix _ _).subset (List.dropWhile_subset _)

/-- The buffer once a piece, which stood behind `front` and its `blanks`, is cut off and trimmed. -/
def cutOff (front blanks piece rest : List α) : List α :=
  front ++ blanks ++ (trim piece ++ (List.replicate (trailing piece).length nul ++ rest.set 0 nul))

theorem cutOff_take (front blanks piece rest : List α) : (cutOff front blanks piece rest).take front.length = front := by
  simp [cutOff]

theorem pipelineLoop_piece {rest : List α} (visible : ∀ g ∈ piece, g ≠ nul ∧ g ≠ plain '|')
    (stops : charAt rest 0 = NUL ∨ charAt rest 0 = '|') (front : List α) (p : Pipeline Nat) :
    ∃ blanks, blanks.length + (trim piece).length + (trailing piece).length = piece.length ∧
      pipelineLoop (front ++ (piece ++ rest)) front.length p =
        let b := cutOff front blanks piece rest
        if trim piece = [] then ⟨p.fail (if charAt rest 0 = NUL then MISSING_AFTER_PIPE else EMPTY_BETWEEN_PIPES), b, []⟩
        else if room : p.count < MAX_CMDS then
          let parsed := parseCommand b (front ++ blanks).length
          if parsed.command.hasError then ⟨p.reject parsed.command, parsed.state.buf, parsed.stderr⟩
          else if charAt rest 0 = NUL then ⟨p.add parsed.command room, parsed.state.buf, parsed.stderr⟩
          else
            let run := pipelineLoop parsed.state.buf ((front ++ piece).length + 1) (p.add parsed.command room)
            { run with stderr := parsed.stderr ++ run.stderr }
        else ⟨p.fail TOO_MANY_COMMANDS, b, []⟩ := by
  have noNul : ∀ g ∈ piece, g ≠ nul := fun g member => (visible g member).1
  have cut : findSeparator (front ++ (piece ++ rest)) front.length = (front ++ piece).length :=
    findSeparator_line visible stops front
  have saved : charAt (front ++ (piece ++ rest)) (front ++ piece).length = charAt rest 0 := by
    rw [← List.append_assoc, charAt_length_append]
  have ends : charAt (rest.set 0 nul) 0 = NUL := by
    cases rest <;> simp
  have written : (front ++ (piece ++ rest)).set (front ++ piece).length nul = front ++ (piece ++ rest.set 0 nul) := by
    rw [← List.append_assoc, List.set_append_right _ _ (Nat.le_refl _), Nat.sub_self, List.append_assoc]
  obtain ⟨blanks, size, trimmed⟩ := trimInplace_line ends noNul front
  change _ = (cutOff front blanks piece rest, _) at trimmed
  refine ⟨blanks, size, ?_⟩
  have empty : charAt (cutOff front blanks piece rest) (front ++ blanks).length = NUL ↔ trim piece = [] := by
    rw [cutOff, charAt_length_append]
    cases same : trim piece with
    | nil => simpa using charAt_replicate ends _
    | cons g line =>
      have member : g ∈ piece := trim_subset piece (same ▸ List.mem_cons_self ..)
      simp [look_eq_nul, noNul g member]
  rw [pipelineLoop]
  dsimp only
  rw [cut, saved, written, trimmed]
  dsimp only
  simp only [empty]

theorem following_eq {rest : List α} (ended : trailing piece = []) (more : pieces ≠ [] → rest.tail = joinPipes pieces ++ tail)
    (alone : pieces = [] → rest = tail) : following piece pieces tail = rest.tail := by
  unfold following
  by_cases single : pieces = []
  · simp [ended, single, alone single]
  · simp [ended, single, more single]

theorem stays_tail {rest : List α} {asked : Asked} {left : Option (List α)}
    (more : pieces ≠ [] → rest.tail = joinPipes pieces ++ tail) (alone : pieces = [] → rest = tail)
    (stays : Stays (following piece pieces tail) asked left) :
    Stays (List.replicate (trailing piece).length nul ++ rest.set 0 nul).tail asked left := by
  cases blanks : trailing piece with
  | nil =>
    rw [following_eq blanks more alone] at stays
    cases rest <;> exact stays
  | cons g blanks =>
    refine stays_of_ended ?_ asked left
    simp only [List.length_cons, List.replicate_succ, List.cons_append, List.tail_cons]
    exact charAt_replicate (by cases rest <;> simp) _

theorem joinPipes_cons (ends : charAt tail 0 = NUL) (piece : List α) (pieces : List (List α)) :
    ∃ rest, joinPipes (piece :: pieces) ++ tail = piece ++ rest ∧
      (charAt rest 0 = NUL ∨ charAt rest 0 = '|') ∧ (charAt rest 0 = NUL ↔ pieces = []) ∧
      (pieces ≠ [] → rest.tail = joinPipes pieces ++ tail) ∧ (pieces = [] → rest = tail) := by
  cases pieces with
  | nil => exact ⟨tail, by simp [joinPipes], .inl ends, by simp [ends], by simp, fun _ => rfl⟩
  | cons next pieces =>
    have pipe : look (plain '|' : α) = '|' := look_plain '|'
    refine ⟨plain '|' :: (joinPipes (next :: pieces) ++ tail), ?_, ?_⟩
    · simp [joinPipes]
    · simp [pipe, NUL]

section Piece

variable {p : Pipeline Nat} {p' : Pipeline (List α)}

theorem parsePiece_agrees (front blanks : List α) {rest : List α} (visible : ∀ g ∈ piece, g ≠ nul ∧ g ≠ plain '|')
    (more : pieces ≠ [] → rest.tail = joinPipes pieces ++ tail) (alone : pieces = [] → rest = tail)
    (stays : ∀ call ∈ (parseAlone (trim piece)).calls, Stays (following piece pieces tail) call.1 call.2) :
    Agree (fun r => ∃ consumed, r.buf = front ++ blanks ++ consumed ++
        (List.replicate (trailing piece).length nul ++ rest.set 0 nul) ∧ consumed.length = (trim piece).length)
      (fun r left ptr word => Placed r.buf (reached (front ++ blanks) (trim piece).length left) ptr word)
      (parseCommand (cutOff front blanks piece rest) (front ++ blanks).length) (parseAlone (trim piece)) :=
  parseCommand_stands (charAt_replicate (by cases rest <;> simp) _)
    (fun g member => (visible g (trim_subset piece member)).1)
    fun call member => stays_tail more alone (stays call member)

theorem heldBy (related : p.Rel (Held (front ++ s) front.length) p') {b : List α} (same : b.take front.length = front) :
    p.Rel (Held b front.length) p' :=
  related.mono fun _ _ held => held.keep (by rw [same, List.take_left']; rfl) (Nat.le_refl _)

theorem pipelineLoop_empty (ends : charAt tail 0 = NUL) (visible : ∀ g ∈ piece, g ≠ nul ∧ g ≠ plain '|')
    (related : p.Rel (Held (front ++ (joinPipes (piece :: pieces) ++ tail)) front.length) p') (empty : trim piece = []) :
    (pipelineLoop (front ++ (joinPipes (piece :: pieces) ++ tail)) front.length p).read =
      p'.fail (if pieces = [] then MISSING_AFTER_PIPE else EMPTY_BETWEEN_PIPES) := by
  obtain ⟨rest, split, stops, last, _⟩ := joinPipes_cons ends piece pieces
  rw [split] at related ⊢
  obtain ⟨blanks, size, pass⟩ := pipelineLoop_piece visible stops front p
  rw [pass, PipelineRun.read]
  dsimp only
  rw [if_pos empty]
  simp only [last]
  exact ((heldBy related (cutOff_take ..)).fail _).map_eq fun _ _ held => held.read

theorem pipelineLoop_full (ends : charAt tail 0 = NUL) (visible : ∀ g ∈ piece, g ≠ nul ∧ g ≠ plain '|')
    (related : p.Rel (Held (front ++ (joinPipes (piece :: pieces) ++ tail)) front.length) p') (some : trim piece ≠ [])
    (full : ¬ p'.count < MAX_CMDS) :
    (pipelineLoop (front ++ (joinPipes (piece :: pieces) ++ tail)) front.length p).read = p'.fail TOO_MANY_COMMANDS := by
  obtain ⟨rest, split, stops, last, _⟩ := joinPipes_cons ends piece pieces
  rw [split] at related ⊢
  obtain ⟨blanks, size, pass⟩ := pipelineLoop_piece visible stops front p
  rw [pass, PipelineRun.read]
  dsimp only
  rw [if_neg some, dif_neg (related.count ▸ full)]
  exact ((heldBy related (cutOff_take ..)).fail _).map_eq fun _ _ held => held.read

theorem pipelineLoop_rejects (ends : charAt tail 0 = NUL) (visible : ∀ g ∈ piece, g ≠ nul ∧ g ≠ plain '|')
    (related : p.Rel (Held (front ++ (joinPipes (piece :: pieces) ++ tail)) front.length) p')
    (some : trim piece ≠ []) (room : p'.count < MAX_CMDS)
    (stays : ∀ call ∈ (parseAlone (trim piece)).calls, Stays (following piece pieces tail) call.1 call.2)
    (wrong : (parseAlone (trim piece)).command.hasError = true) :
    (pipelineLoop (front ++ (joinPipes (piece :: pieces) ++ tail)) front.length p).read =
      p'.reject (parseAlone (trim piece)).command := by
  obtain ⟨rest, split, stops, last, more, alone⟩ := joinPipes_cons ends piece pieces
  rw [split] at related ⊢
  obtain ⟨blanks, size, pass⟩ := pipelineLoop_piece visible stops front p
  have agree := parsePiece_agrees front blanks visible more alone stays
  have unwritten := parseCommand_take (cutOff front blanks piece rest) (front ++ blanks).length
  rw [pass, PipelineRun.read]
  dsimp only
  rw [if_neg some, dif_pos (related.count ▸ room)]
  generalize parseCommand (cutOff front blanks piece rest) (front ++ blanks).length = parsed at agree unwritten ⊢
  have same : parsed.state.buf.take front.length = front := by
    have shorter := congrArg (List.take front.length) unwritten
    rwa [List.take_take, List.take_take, Nat.min_eq_left (by simp), cutOff_take] at shorter
  rw [agree.command.hasError, wrong, if_pos rfl]
  exact (((heldBy related same).mono fun _ _ held => held.read).reject
    (agree.command.mono fun _ _ placed => placed.read)).map_eq fun _ _ read => read

theorem pipelineLoop_accepts (ends : charAt tail 0 = NUL) (visible : ∀ g ∈ piece, g ≠ nul ∧ g ≠ plain '|')
    (related : p.Rel (Held (front ++ (joinPipes (piece :: pieces) ++ tail)) front.length) p')
    (some : trim piece ≠ []) (room : p'.count < MAX_CMDS)
    (stays : ∀ call ∈ (parseAlone (trim piece)).calls, Stays (following piece pieces tail) call.1 call.2)
    (accepted : (parseAlone (trim piece)).command.hasError = false) :
    (pieces = [] → (pipelineLoop (front ++ (joinPipes (piece :: pieces) ++ tail)) front.length p).read =
      p'.add (parseAlone (trim piece)).command room) ∧
    (pieces ≠ [] → ∃ front' p₂, p₂.Rel (Held (front' ++ (joinPipes pieces ++ tail)) front'.length)
        (p'.add (parseAlone (trim piece)).command room) ∧
      (pipelineLoop (front ++ (joinPipes (piece :: pieces) ++ tail)) front.length p).read =
        (pipelineLoop (front' ++ (joinPipes pieces ++ tail)) front'.length p₂).read) := by
  obtain ⟨rest, split, stops, last, more, alone⟩ := joinPipes_cons ends piece pieces
  rw [split] at related ⊢
  obtain ⟨blanks, size, pass⟩ := pipelineLoop_piece visible stops front p
  have room' : p.count < MAX_CMDS := related.count ▸ room
  have agree := parsePiece_agrees front blanks visible more alone stays
  rw [pass]
  dsimp only
  rw [if_neg some, dif_pos room']
  generalize parseCommand (cutOff front blanks piece rest) (front ++ blanks).length = parsed at agree ⊢
  generalize parseAlone (trim piece) = parsed' at agree accepted ⊢
  rw [agree.command.hasError, accepted, if_neg Bool.false_ne_true]
  simp only [last]
  obtain ⟨consumed, buf, size'⟩ := agree.state accepted
  have same : parsed.state.buf.take front.length = front := by
    rw [buf]
    simp
  have related' : (p.add parsed.command room').Rel (Held parsed.state.buf ((front ++ piece).length + 1))
      (p'.add parsed'.command room) := by
    refine Pipeline.Rel.add ((heldBy related same).mono fun _ _ held => held.keep rfl ?_)
      (agree.command.mono fun _ _ placed => ?_) ..
    · rw [List.length_append]
      omega
    · refine ⟨_, ?_, placed⟩
      simp only [reached, List.length_append]
      omega
  refine ⟨fun single => ?_, fun several => ?_⟩
  · rw [if_pos single]
    exact related'.map_eq fun _ _ held => held.read
  · rw [if_neg several]
    have cut : rest.set 0 nul = nul :: (joinPipes pieces ++ tail) := by
      rw [← more several]
      cases rest with
      | nil => exact absurd (last.mp (charAt_nil 0)) several
      | cons g rest => rfl
    have length : (front ++ piece).length + 1 =
        (front ++ blanks ++ consumed ++ List.replicate (trailing piece).length nul ++ [nul]).length := by
      simp only [List.length_append, List.length_replicate, List.length_singleton]
      omega
    have rejoined : parsed.state.buf = front ++ blanks ++ consumed ++ List.replicate (trailing piece).length nul ++
        [nul] ++ (joinPipes pieces ++ tail) := by
      rw [buf, cut]
      simp
    rw [length, rejoined] at related' ⊢
    exact ⟨_, _, related', rfl⟩

end Piece

/-- Where no piece is read on past its end, the pieces are parsed as if they were apart. -/
theorem pipelineLoop_confined (ends : charAt tail 0 = NUL) (some : pieces ≠ [])
    (visible : ∀ piece ∈ pieces, ∀ g ∈ piece, g ≠ nul ∧ g ≠ plain '|') {p : Pipeline Nat} {p' : Pipeline (List α)}
    (related : p.Rel (Held (front ++ (joinPipes pieces ++ tail)) front.length) p')
    (confined : Confined pieces tail p'.count) :
    (pipelineLoop (front ++ (joinPipes pieces ++ tail)) front.length p).read = piecesPipeline pieces p' := by
  induction pieces generalizing front p p' with
  | nil => exact absurd rfl some
  | cons piece pieces ih =>
    obtain ⟨here, later⟩ := List.forall_mem_cons.mp visible
    have noNul : ∀ g ∈ trim piece, g ≠ nul := fun g member => (here g (trim_subset piece member)).1
    rw [piecesPipeline]
    dsimp only
    rw [parseCommand_alone noNul]
    by_cases empty : trim piece = []
    · rw [if_pos empty, pipelineLoop_empty ends here related empty]
    rw [if_neg empty]
    by_cases room : p'.count < MAX_CMDS
    · obtain ⟨stays, later'⟩ := (confined.resolve_left empty).resolve_left (Nat.not_le.mpr room)
      rw [dif_pos room]
      by_cases wrong : (parseAlone (trim piece)).command.hasError = true
      · rw [if_pos wrong]
        exact pipelineLoop_rejects ends here related empty room stays wrong
      · have accepted : (parseAlone (trim piece)).command.hasError = false := by simpa using wrong
        obtain ⟨single, several⟩ := pipelineLoop_accepts ends here related empty room stays accepted
        rw [if_neg wrong]
        by_cases none : pieces = []
        · rw [single none, none, piecesPipeline]
        · obtain ⟨front', p₂, related', same⟩ := several none
          have counted : (p'.add (parseAlone (trim piece)).command room).count = p'.count + 1 := by
            simp [Pipeline.count, Pipeline.add]
          rw [same]
          exact ih none later related' (counted ▸ later'.resolve_left wrong)
    · rw [dif_neg room, pipelineLoop_full ends here related empty room]

/-! ### A piece that is read on past its end -/

/-- Some piece that is reached, with all before it confined, asks for a file past its end and finds one
in the text there. -/
def Overreads : List (List α) → List α → Nat → Prop
  | [], _, _ => False
  | piece :: pieces, tail, count =>
    trim piece ≠ [] ∧ count < MAX_CMDS ∧
      (((.file, none) ∈ (parseAlone (trim piece)).calls ∧
          (alone.nextFile (some (readAt (following piece pieces tail) 0))).2 ≠ none) ∨
        (∀ call ∈ (parseAlone (trim piece)).calls, Stays (following piece pieces tail) call.1 call.2) ∧
          (parseAlone (trim piece)).command.hasError = false ∧ Overreads pieces tail (count + 1))

theorem pipelineLoop_count (b : List α) (segmentStart : Nat) (p : Pipeline Nat) :
    p.count ≤ (pipelineLoop b segmentStart p).pipeline.count := by
  have added (p : Pipeline Nat) (cmd : Command Nat) (room : p.count < MAX_CMDS) : p.count ≤ (p.add cmd room).count := by
    simp [Pipeline.count, Pipeline.add]
  fun_induction pipelineLoop b segmentStart p with
  | case1 => exact Nat.le_refl _
  | case2 => exact Nat.le_refl _
  | case3 => exact added _ _ ‹_›
  | case4 b s p _ _ _ _ _ _ _ _ _ _ _ ih => exact Nat.le_trans (added _ _ ‹_›) ih
  | case5 => exact Nat.le_refl _

theorem short_of_explained {τ : Type} {cmd : Command τ} (explained : cmd.Explained) (wrong : cmd.hasError = true) :
    cmd.errorMsg.take (ERROR_MSG_SIZE - 1) = cmd.errorMsg := by
  apply List.take_of_length_le
  rcases explained wrong with same | ⟨r, same | same⟩ <;> rw [same]
  · decide
  · cases r <;> decide
  · cases r <;> decide

theorem pipelineLoop_overreads (ends : charAt tail 0 = NUL) (visible : ∀ piece ∈ pieces, ∀ g ∈ piece, g ≠ nul ∧ g ≠ plain '|')
    {p : Pipeline Nat} {p' : Pipeline (List α)}
    (related : p.Rel (Held (front ++ (joinPipes pieces ++ tail)) front.length) p')
    (overreads : Overreads pieces tail p'.count) :
    (pipelineLoop (front ++ (joinPipes pieces ++ tail)) front.length p).read ≠ piecesPipeline pieces p' := by
  induction pieces generalizing front p p' with
  | nil => exact overreads.elim
  | cons piece pieces ih =>
    obtain ⟨here, later⟩ := List.forall_mem_cons.mp visible
    have noNul : ∀ g ∈ trim piece, g ≠ nul := fun g member => (here g (trim_subset piece member)).1
    obtain ⟨nonempty, room, ⟨past, word⟩ | ⟨stays, accepted, overreads⟩⟩ := overreads
    · obtain ⟨rest, split, stops, last, more, alone'⟩ := joinPipes_cons ends piece pieces
      rw [split] at related ⊢
      obtain ⟨blanks, size, pass⟩ := pipelineLoop_piece here stops front p
      have ended : trailing piece = [] := by
        by_contra blank
        apply word
        simp only [following, if_pos blank]
        rfl
      have word' : (alone.nextFile (some (readAt
          (List.replicate (trailing piece).length nul ++ rest.set 0 nul).tail 0))).2 ≠ none := by
        rw [following_eq ended more alone'] at word
        rw [ended]
        cases rest <;> exact word
      obtain ⟨red, wrong, missing, found⟩ := parseCommand_strays (front ++ blanks)
        (charAt_replicate (by cases rest <;> simp) _) noNul word' past
      rw [pass, piecesPipeline, PipelineRun.read]
      dsimp only
      rw [parseCommand_alone noNul, if_neg nonempty, dif_pos room, if_pos wrong, if_neg nonempty,
        dif_pos (related.count ▸ room)]
      change ¬ ((parseCommand (cutOff front blanks piece rest) _).command.hasError = true ∧
        (parseCommand (cutOff front blanks piece rest) _).command.errorMsg = _) at found
      have explained := parseCommand_explained (cutOff front blanks piece rest) (front ++ blanks).length
      generalize parseCommand (cutOff front blanks piece rest) (front ++ blanks).length = parsed at found explained ⊢
      intro same
      by_cases wrong' : parsed.command.hasError = true
      · rw [if_pos wrong'] at same
        have errorMsg : parsed.command.errorMsg.take (ERROR_MSG_SIZE - 1) =
            (parseAlone (trim piece)).command.errorMsg.take (ERROR_MSG_SIZE - 1) := congrArg Pipeline.errorMsg same
        rw [short_of_explained explained wrong', short_of_explained (parseAlone_explained _) wrong,
          missing] at errorMsg
        exact found ⟨wrong', errorMsg⟩
      · rw [if_neg wrong'] at same
        have count := congrArg Pipeline.count same
        have before := related.count
        split at count
        · simp only [Pipeline.count, Pipeline.map, Pipeline.add, Pipeline.reject, List.length_map, List.length_append,
            List.length_singleton] at count before
          omega
        · have grown := pipelineLoop_count parsed.state.buf ((front ++ piece).length + 1)
            (p.add parsed.command (related.count ▸ room))
          simp only [Pipeline.count, Pipeline.map, Pipeline.add, Pipeline.reject, List.length_map, List.length_append,
            List.length_singleton] at count before grown
          omega
    · obtain ⟨_, several⟩ := pipelineLoop_accepts ends here related nonempty room stays accepted
      have none : pieces ≠ [] := by
        rintro rfl
        exact overreads
      obtain ⟨front', p₂, related', same⟩ := several none
      have counted : (p'.add (parseAlone (trim piece)).command room).count = p'.count + 1 := by
        simp [Pipeline.count, Pipeline.add]
      rw [piecesPipeline]
      dsimp only
      rw [parseCommand_alone noNul, if_neg nonempty, dif_pos room, accepted, if_neg Bool.false_ne_true, same]
      exact ih later related' (counted ▸ overreads)

/-! ### A line -/

theorem splitPipes_visible {line : List α} (visible : ∀ g ∈ line, g ≠ nul) :
    ∀ piece ∈ splitPipes line, ∀ g ∈ piece, g ≠ nul ∧ g ≠ plain '|' := by
  induction line with
  | nil => simp [splitPipes]
  | cons g line ih =>
    obtain ⟨here, later⟩ := List.forall_mem_cons.mp visible
    have rest := ih later
    unfold splitPipes at rest ⊢
    rw [List.splitOnP_cons_eq_if_modifyHead]
    split
    · exact List.forall_mem_cons.mpr ⟨by simp, rest⟩
    · rename_i other
      have notPipe : g ≠ plain '|' := fun same => other (by simp [plain_pipe, same])
      cases split : line.splitOnP (look · == '|') with
      | nil => exact absurd split (List.splitOnP_ne_nil _ _)
      | cons piece pieces =>
        rw [split] at rest
        obtain ⟨first, others⟩ := List.forall_mem_cons.mp rest
        exact List.forall_mem_cons.mpr ⟨List.forall_mem_cons.mpr ⟨⟨here, notPipe⟩, first⟩, others⟩

theorem joinPipes_splitPipes (line : List α) : joinPipes (splitPipes line) = line := by
  induction line with
  | nil => rfl
  | cons g line ih =>
    unfold splitPipes joinPipes at ih ⊢
    rw [List.splitOnP_cons_eq_if_modifyHead]
    cases split : line.splitOnP (look · == '|') with
    | nil => exact absurd split (List.splitOnP_ne_nil _ _)
    | cons piece pieces =>
      rw [split] at ih
      by_cases pipe : look g = '|'
      · obtain rfl : g = plain '|' := plain_pipe.mp pipe
        simp [look_plain, ih]
      · cases pieces <;> simp_all

theorem splitPipes_ne_nil (line : List α) : splitPipes line ≠ [] := List.splitOnP_ne_nil _ _

/-- A pipeline is parsed as its pieces are on their own when none of them is read on past its end. It
is not when one of them finds the file of its last operator there. -/
theorem parsePipeline_split {line tail : List α} (visible : ∀ g ∈ line, g ≠ nul) (ends : charAt tail 0 = NUL) :
    (Confined (splitPipes line) tail 0 → (parsePipeline (line ++ tail) 0).read = splitPipeline line) ∧
      (Overreads (splitPipes line) tail 0 → (parsePipeline (line ++ tail) 0).read ≠ splitPipeline line) := by
  have start : Pipeline.Rel (Held ([] ++ (joinPipes (splitPipes line) ++ tail)) ([] : List α).length) {} {} :=
    ⟨.nil, .none, rfl, rfl⟩
  constructor
  · intro confined
    have same := pipelineLoop_confined ends (splitPipes_ne_nil line) (splitPipes_visible visible) start confined
    rw [List.nil_append, joinPipes_splitPipes] at same
    exact same
  · intro overreads
    have other := pipelineLoop_overreads ends (splitPipes_visible visible) start overreads
    rw [List.nil_append, joinPipes_splitPipes] at other
    exact other

/-- A NUL-terminated line in a buffer, whatever stands behind it: it is parsed as its pieces are on
their own when none of them is read on past its end. It is not when one of them finds the file of its
last operator there. -/
theorem parsePipeline_pieces {line : List Char} (stale : List Char) (noNul : NUL ∉ line) :
    (Confined (splitPipes line) (NUL :: stale) 0 →
        (parsePipeline (line ++ NUL :: stale) 0).read = splitPipeline line) ∧
      (Overreads (splitPipes line) (NUL :: stale) 0 →
        (parsePipeline (line ++ NUL :: stale) 0).read ≠ splitPipeline line) :=
  parsePipeline_split (fun _ member same => noNul (Eq.subst (motive := (· ∈ line)) same member)) rfl

theorem parsePipeline_ls_wc : (parsePipeline ("ls -l | wc > 'a b'".toList ++ [NUL]) 0).read =
      splitPipeline "ls -l | wc > 'a b'".toList ∧
    (parsePipeline ("cat < | wc <|sort".toList ++ [NUL]) 0).read = splitPipeline "cat < | wc <|sort".toList :=
  ⟨(parsePipeline_pieces [] (by decide)).1 (by decide +kernel),
    (parsePipeline_pieces [] (by decide)).1 (by decide +kernel)⟩

/-- An operator right before `'|'` takes its file from the next piece. -/
theorem parsePipeline_takes_neighbour : ¬ ∀ line stale : List Char, NUL ∉ line →
    (parsePipeline (line ++ NUL :: stale) 0).read = splitPipeline line := by
  intro apart
  have same := congrArg Pipeline.hasError (apart "cat <|wc".toList [] (by decide))
  exact absurd same (by decide +kernel)

end MyShell.Parser
