import MyShell.Stream
import MyShell.Server.Ownership
import Mathlib.Data.List.TakeWhile

/-! # Command lines in a stream of chunks

`handle_client_session` takes the text that one `recv` returns, up to its first newline, for one
command, and keeps nothing of it for the next. Lines that arrive in one piece each are all handled. -/

namespace MyShell

/-- A command that a client may send, without its newline. `exit` ends the session and is left out. -/
structure CommandLine where
  text : CString
  noNewline : '\n' ∉ text
  noNul : NUL ∉ text
  short : text.length ≤ 4094
  goesOn : text ≠ "exit".toList

/-- The commands that `handle_client_session` handles, from what its calls of `recv` return. -/
def handleClientSession : List CString → List CString
  | [] => []
  | chunk :: chunks =>
    let command := commandOf chunk
    if command = "exit".toList then [command] else command :: handleClientSession chunks

/-- The bytes of some command lines on the wire. -/
def wire (lines : List CString) : CString := (lines.map (· ++ ['\n'])).flatten

/-- Every line comes in a chunk of its own, with its newline. Only before an empty line may the
newline come late, at the start of the chunk after it (`late`). -/
def CutAtLines : (late : Bool) → (lines chunks : List CString) → Prop
  | false, [], [] => True
  | false, line :: lines, chunk :: chunks =>
    chunk = line ++ ['\n'] ∧ CutAtLines false lines chunks ∨ chunk = line ∧ CutAtLines true lines chunks
  | true, [] :: lines, chunk :: chunks =>
    chunk = ['\n'] ∧ CutAtLines true lines chunks ∨ chunk = ['\n', '\n'] ∧ CutAtLines false lines chunks
  | _, _, _ => False

/-! ### One chunk -/

@[simp] theorem wire_nil : wire [] = [] := rfl

@[simp] theorem wire_cons (line : CString) (lines : List CString) :
    wire (line :: lines) = line ++ '\n' :: wire lines := by
  simp [wire]

theorem commandOf_line {line : CString} (noNewline : '\n' ∉ line) (noNul : NUL ∉ line) (rest : CString) :
    commandOf (line ++ '\n' :: rest) = line := by
  unfold commandOf
  rw [List.takeWhile_append_of_pos]
  · simp
  · intro c member
    have newline : c ≠ '\n' := fun same => noNewline (same ▸ member)
    have nul : c ≠ NUL := fun same => noNul (same ▸ member)
    simp [newline, nul]

theorem commandOf_plain {line : CString} (noNewline : '\n' ∉ line) (noNul : NUL ∉ line) :
    commandOf line = line := by
  unfold commandOf
  rw [List.takeWhile_eq_self_iff]
  intro c member
  have newline : c ≠ '\n' := fun same => noNewline (same ▸ member)
  have nul : c ≠ NUL := fun same => noNul (same ▸ member)
  simp [newline, nul]

theorem commandOf_append (chunk : CString) : ∃ rest, chunk = commandOf chunk ++ rest :=
  ⟨_, List.takeWhile_append_dropWhile.symm⟩

/-! ### The chunks of a session -/

theorem commands_of_ahead {lines chunks : List CString} {extra : CString}
    (noNewline : ∀ line ∈ lines, '\n' ∉ line) (nonempty : ∀ chunk ∈ chunks, chunk ≠ [])
    (ahead : extra ≠ []) (cut : extra ++ chunks.flatten = wire lines) : chunks.map commandOf ≠ lines := by
  induction lines generalizing chunks extra with
  | nil => simp [ahead] at cut
  | cons line lines ih =>
    intro same
    cases chunks with
    | nil => simp at same
    | cons chunk chunks =>
      simp only [List.map_cons, List.cons.injEq] at same
      obtain ⟨command, same⟩ := same
      obtain ⟨rest, split⟩ := commandOf_append chunk
      rw [command] at split
      have positive : 0 < extra.length := List.length_pos_of_ne_nil ahead
      have length : chunk.length = line.length + rest.length := by rw [split, List.length_append]
      have joined : (extra ++ chunk) ++ chunks.flatten = (line ++ ['\n']) ++ wire lines := by
        simpa using cut
      by_cases more : line.length + 1 < (extra ++ chunk).length
      · have behind : (extra ++ chunk).drop (line.length + 1) ++ chunks.flatten = wire lines := by
          rw [← List.drop_append_of_le_length (Nat.le_of_lt more), joined]
          exact List.drop_left' (by simp)
        refine ih (fun l member => noNewline l (List.mem_cons_of_mem _ member))
          (fun c member => nonempty c (List.mem_cons_of_mem _ member)) ?_ behind same
        intro nothing
        have := List.drop_eq_nil_iff.mp nothing
        omega
      · simp only [List.length_append] at more
        have whole : rest = [] := List.length_eq_zero_iff.mp (by omega)
        have ends := (List.append_inj joined (by simp; omega)).1
        have last := congrArg List.getLast? ends
        rw [List.getLast?_append, List.getLast?_append] at last
        have member : '\n' ∈ chunk := by
          apply List.mem_of_getLast? (l := chunk)
          have some := nonempty chunk (List.mem_cons_self ..)
          cases found : chunk.getLast? with
          | none => exact absurd (List.getLast?_eq_none_iff.mp found) some
          | some c => simpa [found] using last
        rw [split, whole, List.append_nil] at member
        exact noNewline line (List.mem_cons_self ..) member

theorem commands_eq_iff (late : Bool) {lines chunks : List CString}
    (plain : ∀ line ∈ lines, '\n' ∉ line ∧ NUL ∉ line) (nonempty : ∀ chunk ∈ chunks, chunk ≠ [])
    (cut : chunks.flatten = (if late then ['\n'] else []) ++ wire lines) :
    chunks.map commandOf = lines ↔ CutAtLines late lines chunks := by
  induction lines generalizing late chunks with
  | nil =>
    cases chunks with
    | nil => cases late <;> simp [CutAtLines] at cut ⊢
    | cons chunk chunks => cases late <;> simp [CutAtLines]
  | cons line lines ih =>
    obtain ⟨⟨noNewline, noNul⟩, plain⟩ := List.forall_mem_cons.mp plain
    have noNewlines : ∀ line ∈ lines, '\n' ∉ line := fun line member => (plain line member).1
    cases chunks with
    | nil => cases late <;> cases line <;> simp [CutAtLines]
    | cons chunk chunks =>
      obtain ⟨some, nonempty⟩ := List.forall_mem_cons.mp nonempty
      have after (rest : CString) (left : rest ++ chunks.flatten = '\n' :: wire lines) :
          chunks.map commandOf = lines ↔
            rest = [] ∧ CutAtLines true lines chunks ∨ rest = ['\n'] ∧ CutAtLines false lines chunks := by
        cases rest with
        | nil => simpa using ih true plain nonempty left
        | cons c extra =>
          obtain ⟨rfl, behind⟩ : c = '\n' ∧ extra ++ chunks.flatten = wire lines := by simpa using left
          by_cases exact : extra = []
          · subst exact
            simpa using ih false plain nonempty behind
          · simpa [exact] using commands_of_ahead noNewlines nonempty exact behind
      cases late with
      | false =>
        simp only [List.map_cons, List.cons.injEq, CutAtLines]
        constructor
        · rintro ⟨command, same⟩
          obtain ⟨rest, split⟩ := commandOf_append chunk
          rw [command] at split
          have left : rest ++ chunks.flatten = '\n' :: wire lines := by simpa [split] using cut
          obtain ⟨rfl, cut⟩ | ⟨rfl, cut⟩ := (after rest left).mp same
          · exact .inr ⟨by simpa using split, cut⟩
          · exact .inl ⟨split, cut⟩
        · rintro (⟨rfl, cutThere⟩ | ⟨rfl, cutThere⟩)
          · refine ⟨commandOf_line noNewline noNul [], (after ['\n'] ?_).mpr (.inr ⟨rfl, cutThere⟩)⟩
            simpa using cut
          · refine ⟨commandOf_plain noNewline noNul, (after [] ?_).mpr (.inl ⟨rfl, cutThere⟩)⟩
            simpa using cut
      | true =>
        cases chunk with
        | nil => exact absurd rfl some
        | cons c rest =>
          obtain ⟨rfl, left⟩ : c = '\n' ∧ rest ++ chunks.flatten = line ++ '\n' :: wire lines := by
            simpa using cut
          have command : commandOf ('\n' :: rest) = [] := by simp [commandOf]
          cases line with
          | nil => simpa [CutAtLines, command] using after rest left
          | cons => simp [CutAtLines, command]

theorem session_eq_iff {lines chunks : List CString} (goesOn : "exit".toList ∉ lines) :
    handleClientSession chunks = lines ↔ chunks.map commandOf = lines := by
  induction chunks generalizing lines with
  | nil => rfl
  | cons chunk chunks ih =>
    unfold handleClientSession
    dsimp only
    split
    · rename_i isExit
      have absent {rest : List CString} : commandOf chunk :: rest ≠ lines := fun same =>
        goesOn (same ▸ isExit ▸ List.mem_cons_self ..)
      simp [absent]
    · cases lines with
      | nil => simp
      | cons line lines => simp [ih fun member => goesOn (List.mem_cons_of_mem _ member)]

/-- A session handles one command for each line, with its text, exactly when the stream is cut at
the lines. -/
theorem session_handles_lines (lines : List CommandLine) (chunks : List Chunk)
    (cut : arrived chunks = wire (lines.map (·.text))) :
    handleClientSession (chunks.map (·.bytes)) = lines.map (·.text) ↔
      CutAtLines false (lines.map (·.text)) (chunks.map (·.bytes)) := by
  rw [session_eq_iff]
  · apply commands_eq_iff false _ _ (by simpa [arrived] using cut)
    · intro text member
      obtain ⟨line, _, rfl⟩ := List.mem_map.mp member
      exact ⟨line.noNewline, line.noNul⟩
    · intro bytes member
      obtain ⟨chunk, _, rfl⟩ := List.mem_map.mp member
      exact chunk.nonempty
  · intro member
    obtain ⟨line, _, same⟩ := List.mem_map.mp member
    exact line.goesOn same

def lsLine : CommandLine := ⟨"ls".toList, by decide, by decide, by decide, by decide⟩
def pwdLine : CommandLine := ⟨"pwd".toList, by decide, by decide, by decide, by decide⟩

theorem session_handles_ls_pwd :
    (["ls\n".toList, "pwd\n".toList] : List CString).flatten = wire ["ls".toList, "pwd".toList] ∧
      handleClientSession ["ls\n".toList, "pwd\n".toList] = ["ls".toList, "pwd".toList] :=
  ⟨by decide, (session_handles_lines [lsLine, pwdLine]
    [⟨"ls\n".toList, by decide, by decide⟩, ⟨"pwd\n".toList, by decide, by decide⟩] (by decide)).mpr (by
      simp [CutAtLines, lsLine, pwdLine])⟩

/-- Of two lines in one chunk the second is lost. -/
theorem session_loses_second_line : ¬ ∀ (lines : List CommandLine) (chunks : List Chunk),
    arrived chunks = wire (lines.map (·.text)) →
      handleClientSession (chunks.map (·.bytes)) = lines.map (·.text) := by
  intro handled
  have both := handled [lsLine, pwdLine] [⟨"ls\npwd\n".toList, by decide, by decide⟩] (by decide)
  exact absurd both (by decide)

/-! ### The session of a worker in a run -/

def received (c : ClientId) (s : State) : Event → List CString
  | .worker c' a => if c' = c ∧ s.worker c = .recv then a.read.toList.filter (· ≠ []) else []
  | _ => []

def receivedIn (c : ClientId) : State → List Event → List CString
  | _, [] => []
  | s, e :: events =>
    match step s e with
    | none => []
    | some t => received c s e ++ receivedIn c t events

def LogLine.commandOf (c : ClientId) : LogLine → Option CString
  | .command c' text => if c' = c then some text else none
  | _ => none

def WorkerPc.pending : WorkerPc → List CString
  | .logCommand command => [command]
  | _ => []

/-- The worker does not come back to `recv`. -/
def WorkerPc.closing : WorkerPc → Prop
  | .logCommand command => command = "exit".toList
  | .remove | .close | .logDisconnected | .done => True
  | _ => False

def State.handled (s : State) (c : ClientId) : List CString :=
  s.log.filterMap (LogLine.commandOf c) ++ (s.worker c).pending

variable {s t : State} {c : ClientId} {e : Event} {a : Answer}

theorem SchedStep.handled (taken : SchedStep s a t) : t.handled c = s.handled c := by
  cases taken <;> simp [State.handled, LogLine.commandOf]
  all_goals split <;> simp [LogLine.commandOf]

theorem MainStep.handled (taken : MainStep s a t) (ok : ClientsOk s) : t.handled c = s.handled c := by
  have starting : ∀ c', s.main = .spawn c' → s.worker c' = .absent := fun c' here => (ok.spawning c' here).2
  cases taken with
  | @spawn c' here =>
    by_cases same : c = c'
    · subst same; simp [State.handled, starting _ here, WorkerPc.pending]
    · simp [State.handled, same]
  | _ => simp [State.handled, LogLine.commandOf]

theorem step_handled (taken : Step s e t) (ok : ClientsOk s) :
    t.handled c = s.handled c ++ (received c s e).map commandOf := by
  cases taken with
  | sched taken => simp [taken.handled, received]
  | main taken => simp [taken.handled ok, received]
  | @worker c' a t taken =>
    by_cases same : c' = c
    · subst same
      cases taken with
      | recvEnd here answer =>
        rcases answer with answer | answer <;> simp [State.handled, received, WorkerPc.pending, here, answer]
      | _ => simp_all [State.handled, received, LogLine.commandOf, WorkerPc.pending]
    · have other := taken.frame.worker c (Ne.symm same)
      cases taken <;> simp_all [State.handled, received, LogLine.commandOf]

theorem step_closing (taken : Step s e t) (ok : ClientsOk s) (closing : (s.worker c).closing) :
    (t.worker c).closing ∧ received c s e = [] := by
  have notRecv : s.worker c ≠ .recv := fun here => by simp [here, WorkerPc.closing] at closing
  cases taken with
  | sched taken => exact ⟨taken.frame.worker ▸ closing, rfl⟩
  | main taken =>
    refine ⟨?_, rfl⟩
    rw [taken.worker]
    · exact closing
    · intro here
      rw [(ok.spawning c here).2] at closing
      exact closing
  | @worker c' a t taken =>
    refine ⟨?_, by simp [received, notRecv]⟩
    by_cases same : c' = c
    · subst same
      cases taken <;> simp_all [WorkerPc.closing]
    · rw [taken.frame.worker c (Ne.symm same)]
      exact closing

theorem step_exit {chunk : CString} (taken : Step s e t) (arrived : received c s e = [chunk])
    (isExit : commandOf chunk = "exit".toList) : (t.worker c).closing := by
  cases taken with
  | sched | main => simp [received] at arrived
  | @worker c' a t taken =>
    by_cases here : c' = c ∧ s.worker c = .recv
    · obtain ⟨rfl, here⟩ := here
      cases taken <;> simp_all [received, WorkerPc.closing]
    · simp [received, here] at arrived

theorem received_cases (c : ClientId) (s : State) (e : Event) :
    received c s e = [] ∨ ∃ chunk, received c s e = [chunk] := by
  unfold received
  split
  · rename_i a
    split
    · cases a.read with
      | none => exact .inl rfl
      | some chunk =>
        by_cases nothing : chunk = []
        · exact .inl (by simp [nothing])
        · exact .inr ⟨chunk, by simp [nothing]⟩
    · exact .inl rfl
  · exact .inl rfl

theorem receivedIn_closing {events : List Event} (inv : Inv s) (closing : (s.worker c).closing) :
    receivedIn c s events = [] := by
  induction events generalizing s with
  | nil => rfl
  | cons e events ih =>
    unfold receivedIn
    split
    · rfl
    · rename_i t taken
      have move := step_cases taken
      obtain ⟨closing, nothing⟩ := step_closing move inv.clients closing
      rw [nothing, ih (step_inv inv move) closing]
      rfl

theorem follow_handled {events : List Event} (inv : Inv s)
    (executed : Machine.follow step Machine.always s events = some t) :
    t.handled c = s.handled c ++ handleClientSession (receivedIn c s events) := by
  induction events generalizing s with
  | nil =>
    cases executed
    simp [receivedIn, handleClientSession]
  | cons e events ih =>
    simp only [Machine.follow, if_true] at executed
    obtain ⟨mid, taken, executed⟩ := Option.bind_eq_some_iff.mp executed
    have move := step_cases taken
    have rest := ih (step_inv inv move) executed
    rw [step_handled move inv.clients] at rest
    simp only [receivedIn, taken]
    rcases received_cases c s e with nothing | ⟨chunk, arrived⟩
    · simpa [nothing] using rest
    · rw [rest, arrived]
      by_cases isExit : commandOf chunk = "exit".toList
      · have closing := step_exit move arrived isExit
        rw [receivedIn_closing (step_inv inv move) closing]
        have last : handleClientSession ([chunk] ++ []) = [commandOf chunk] := if_pos isExit
        rw [last]
        simp [handleClientSession]
      · have first : handleClientSession ([chunk] ++ receivedIn c mid events) =
            commandOf chunk :: handleClientSession (receivedIn c mid events) := if_neg isExit
        rw [first]
        simp

/-- However the threads interleave, what a client's worker has handled is the session of the chunks
that it received. -/
theorem run_session {events : List Event} (executed : Machine.follow step Machine.always .initial events = some t)
    (c : ClientId) : t.handled c = handleClientSession (receivedIn c .initial events) := by
  simpa [State.handled, State.initial, WorkerPc.pending] using follow_handled (c := c) initial_inv executed

/-- Two lines of client 1 come in one chunk, and it leaves. -/
def Event.twoSessions : List Event := connect 5 ++ connect 6 ++ submit 1 "ls\npwd\n" ++ submit 2 "date\n" ++
  [.worker 1 { read := some "exit\n".toList }, .worker 1 {}]

theorem run_session_two : ∃ t, Machine.follow step Machine.always .initial Event.twoSessions = some t ∧
    t.handled 1 = ["ls".toList, "exit".toList] := by
  have possible : (Machine.follow step Machine.always .initial Event.twoSessions).isSome = true := by decide +kernel
  obtain ⟨t, executed⟩ := Option.isSome_iff_exists.mp possible
  exact ⟨t, executed, (run_session executed 1).trans (by decide +kernel)⟩

end MyShell
