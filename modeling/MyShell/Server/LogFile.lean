import MyShell.DemoCommand
import MyShell.Lib.Reader
import MyShell.Server.ByteCount
import MyShell.Server.Chart

/-! # The log file

What the threads write to the log of the server, character by character. A line is formatted into an array
of fixed size before it is written, and its length is not looked at there. -/

namespace MyShell

open State CBuffer Reader

/-! ### The lines -/

/-- `client_ip` and `client_port` of a context. -/
structure Address where
  ip : CString
  port : UInt16
  short : ip.length < 16
  oneLine : '\n' ∉ ip

def Decision.name : Decision → CString
  | .created => "created".toList
  | .started => "started".toList
  | .waiting => "waiting".toList
  | .running => "running".toList
  | .ended => "ended".toList
  | .preempted => "preempted".toList

/-- The format and the arguments of each call of `log_printf_locked`. -/
def LogLine.render (address : ClientId → Address) : LogLine → CString
  | .connected c => "[".toList ++ decimal c ++ "]<<< client connected\n".toList
  | .command c text => "[".toList ++ decimal c ++ "]>>> ".toList ++ text ++ "\n".toList
  | .disconnectRequest c =>
    "[INFO] [Client #".toList ++ decimal c ++ " - ".toList ++ (address c).ip ++ ":".toList ++
      decimal (address c).port.toNat ++ "] Client requested disconnect.\n".toList
  | .disconnected c => "[INFO] Client #".toList ++ decimal c ++ " disconnected.\n\n".toList
  | .decision event c value _ =>
    "(".toList ++ decimal c ++ ")--- ".toList ++ event.name ++ " (".toList ++ decimal value ++ ")\n".toList
  | .bytesSent c bytes => "[".toList ++ decimal c ++ "]<<< ".toList ++ decimal bytes ++ " bytes sent\n".toList
  | .trace text => "[0] ".toList ++ text ++ "\n".toList

/-- What `log_printf_locked` writes. `vsnprintf` cuts a long text to the array but returns the length of the
whole: `none` when `write` reads outside the array. -/
def logPrintfWritten (buffer : Buffer Char 8192) (formatted : CString) : Option CString :=
  (snprintf NUL buffer 0 8192 formatted).bind fun buffer =>
    if formatted.length ≤ 8192 then some (buffer.elems.take formatted.length) else none

/-- What the calls of `log_printf_locked` have written; other writers of the file are left out. -/
def logFile (address : ClientId → Address) (log : List LogLine) : CString := log.flatMap (LogLine.render address)

variable {address : ClientId → Address} {s t : State} {a : Answer} {c : ClientId} {e : Event} {n : Int}
  {text word : CString} {line : LogLine}

theorem logPrintf_fits (buffer : Buffer Char 8192) (fits : text.length < 8192) :
    logPrintfWritten buffer text = some text := by
  obtain ⟨buffer', written, whole⟩ := snprintf_behind NUL (b := buffer) List.nil_prefix fits (by simp)
  have before : text <+: buffer'.elems := by
    rw [List.nil_append] at whole
    exact (List.prefix_append ..).trans whole
  rw [logPrintfWritten, ← List.length_nil (α := Char), written, Option.bind_some, if_pos (Nat.le_of_lt fits),
    ← List.prefix_iff_eq_take.mp before]

/-! ### Reading the log -/

/-- What a line of the file shows: not which of the client's tasks it is about. -/
def LogLine.shown : LogLine → LogLine
  | .decision event c value _ => .decision event c value 0
  | line => line

def Decision.named (name : CString) : Option Decision :=
  [.created, .started, .waiting, .running, .ended, .preempted].find? fun event => event.name = name

def readDecimal : Reader Char Int := fun text =>
  let (negative, body) := splitSign text
  let digits := body.takeWhile Char.isDigit
  let value : Int := Nat.ofDigitChars 10 digits 0
  some (if negative then -value else value, body.drop digits.length)

def numberThen (word : CString) : Reader Char Int := do
  let n ← readDecimal
  literal word
  return n

def readInfo : Reader Char LogLine :=
  (do literal "[Client #".toList
      let c ← numberThen " - ".toList
      let _ ← upTo '\n'
      return .disconnectRequest c.toNat) <|>
  (do literal "Client #".toList
      let c ← numberThen " disconnected.\n\n".toList
      return .disconnected c.toNat)

def readDecision : Reader Char LogLine := do
  literal "(".toList
  let c ← numberThen ")--- ".toList
  let name ← upTo ' '
  literal "(".toList
  let value ← numberThen ")\n".toList
  let event ← Decision.named name
  return .decision event c.toNat value 0

def readBracketed (c : Int) : Reader Char LogLine :=
  (do literal "<<< client connected\n".toList
      return .connected c.toNat) <|>
  (do literal ">>> ".toList
      let text ← upTo '\n'
      return .command c.toNat text) <|>
  (do literal "<<< ".toList
      let bytes ← numberThen " bytes sent\n".toList
      return .bytesSent c.toNat bytes) <|>
  (do literal " ".toList
      let text ← upTo '\n'
      return .trace text)

def readLine : Reader Char LogLine :=
  (do literal "[INFO] ".toList
      readInfo) <|>
  readDecision <|>
  (do literal "[".toList
      let c ← numberThen "]".toList
      readBracketed c)

def readLog (text : CString) : List LogLine := readAll readLine text

def LogLine.OneLine : LogLine → Prop
  | .command _ text | .trace text => '\n' ∉ text
  | _ => True

theorem decimal_head (n : Int) : ∃ d more, decimal n = d :: more ∧ (d = '-' ∨ d.isDigit = true) := by
  unfold decimal
  split
  · exact ⟨_, _, rfl, .inl rfl⟩
  · obtain ⟨d, more, split⟩ := List.exists_cons_of_ne_nil (Nat.toDigits_ne_nil (n := n.natAbs) (b := 10))
    have digits := toDigits_digits n.natAbs
    rw [split] at digits
    exact ⟨d, more, split, .inr (List.all_eq_true.mp digits d List.mem_cons_self)⟩

theorem readDecimal_run (n : Int) {d : Char} (stop : d.isDigit = false) (rest : CString) :
    readDecimal (decimal n ++ d :: rest) = some (n, d :: rest) := by
  have digits (m : Nat) : (Nat.toDigits 10 m ++ d :: rest).takeWhile Char.isDigit = Nat.toDigits 10 m := by
    rw [List.takeWhile_append_of_pos (List.all_eq_true.mp (toDigits_digits m))]
    simp [stop]
  have ok (m : Nat) : Digits (Nat.toDigits 10 m) := ⟨Nat.toDigits_ne_nil, List.all_eq_true.mp (toDigits_digits m)⟩
  have value : (Nat.ofDigitChars 10 (Nat.toDigits 10 n.natAbs) 0 : Int) = n.natAbs := by
    rw [Nat.ofDigitChars_ten_toDigits]
  unfold decimal
  split <;> rename_i negative
  · have sign : splitSign ('-' :: Nat.toDigits 10 n.natAbs ++ d :: rest) = (true, Nat.toDigits 10 n.natAbs ++ d :: rest) := rfl
    simp only [readDecimal, sign, digits, value, List.drop_left, if_true]
    congr 2
    omega
  · simp only [readDecimal, splitSign_digits (ok _), digits, value, List.drop_left, Bool.false_eq_true, if_false]
    congr 2
    omega

theorem reads_number (n : Int) (stop : word.head?.map Char.isDigit = some false) :
    Reads (numberThen word) (decimal n ++ word) n := by
  obtain ⟨d, first, letter⟩ := Option.map_eq_some_iff.mp stop
  obtain ⟨more, rfl⟩ := List.head?_eq_some_iff.mp first
  intro rest
  have number : readDecimal.run (decimal n ++ d :: more ++ rest) = some (n, d :: more ++ rest) := by
    rw [List.append_assoc]
    exact readDecimal_run n letter (more ++ rest)
  rw [numberThen, StateT.run_bind, number]
  exact (reads_literal (d :: more)).result (fun _ => n) rest

theorem fails_number {d : Char} (sign : d ≠ '-') (letter : d.isDigit = false) (before word : CString) :
    Fails (literal (before ++ d :: word)) (before ++ decimal n) := by
  obtain ⟨d', more, same, kind⟩ := decimal_head n
  rw [same]
  refine fails_literal ?_
  rintro rfl
  rcases kind with rfl | digit
  · exact sign rfl
  · simp [letter] at digit

theorem named_name (event : Decision) : Decision.named event.name = some event := by
  cases event <;> decide +kernel

theorem reads_decision (event : Decision) (value : Int) (p : Ptr) :
    Reads readDecision ((LogLine.decision event c value p).render address) (.decision event c value 0) := by
  have whole : (LogLine.decision event c value p).render address = "(".toList ++ ((decimal c ++ ")--- ".toList) ++
      ((event.name ++ [' ']) ++ ("(".toList ++ ((decimal value ++ ")\n".toList) ++ [])))) := by
    have blank : " (".toList = [' '] ++ "(".toList := rfl
    unfold LogLine.render
    simp only [blank, List.append_assoc, List.append_nil]
  have name : ' ' ∉ event.name := by cases event <;> decide +kernel
  rw [whole]
  refine (reads_literal _).bind ((reads_number c (by decide +kernel)).bind ((reads_upTo name).bind
    ((reads_literal _).bind ((reads_number value (by decide +kernel)).bind ?_))))
  rw [named_name]
  exact reads_pure _

theorem reads_info (info : line = .disconnected c ∨ line = .disconnectRequest c) :
    ∃ text, line.render address = "[INFO] ".toList ++ text ∧ Reads readInfo text line := by
  rcases info with rfl | rfl
  · refine ⟨"Client #".toList ++ (decimal c ++ " disconnected.\n\n".toList), ?_, ?_⟩
    · have start : "[INFO] Client #".toList = "[INFO] ".toList ++ "Client #".toList := rfl
      unfold LogLine.render
      simp only [start, List.append_assoc]
    · refine .second (Fails.bind (fails_start (by decide +kernel)) _) ?_
      exact (reads_literal _).bind (Reads.result (reads_number c (by decide +kernel)) _)
  · have port := (address c).oneLine
    refine ⟨"[Client #".toList ++ ((decimal c ++ " - ".toList) ++ (((address c).ip ++ ":".toList ++
      decimal (address c).port.toNat ++ "] Client requested disconnect.".toList) ++ ['\n'])), ?_, ?_⟩
    · have start : "[INFO] [Client #".toList = "[INFO] ".toList ++ "[Client #".toList := rfl
      have last : "] Client requested disconnect.\n".toList = "] Client requested disconnect.".toList ++ ['\n'] := rfl
      unfold LogLine.render
      simp only [start, last, List.append_assoc]
    · have visible : '\n' ∉ (address c).ip ++ ":".toList ++ decimal (address c).port.toNat ++
          "] Client requested disconnect.".toList := by
        simp [port, not_mem_decimal]
      refine .first ((reads_literal _).bind ((reads_number c (by decide +kernel)).bind ?_))
      exact Reads.result (reads_upTo visible) _

/-- What a line that starts with a number in brackets goes on with. -/
inductive Bracketed : LogLine → ClientId → CString → Prop where
  | connected (c : ClientId) : Bracketed (.connected c) c "<<< client connected\n".toList
  | command (c : ClientId) {text : CString} (oneLine : '\n' ∉ text) :
      Bracketed (.command c text) c (">>> ".toList ++ (text ++ ['\n']))
  | bytesSent (c : ClientId) (bytes : Int) :
      Bracketed (.bytesSent c bytes) c ("<<< ".toList ++ (decimal bytes ++ " bytes sent\n".toList))
  | trace {text : CString} (oneLine : '\n' ∉ text) : Bracketed (.trace text) 0 (" ".toList ++ (text ++ ['\n']))

theorem Bracketed.render (bracketed : Bracketed line c text) :
    line.render address = "[".toList ++ ((decimal c ++ "]".toList) ++ text) := by
  unfold LogLine.render
  cases bracketed with
  | connected =>
    have split : "]<<< client connected\n".toList = "]".toList ++ "<<< client connected\n".toList := rfl
    simp only [split, List.append_assoc]
  | command =>
    have split : "]>>> ".toList = "]".toList ++ ">>> ".toList := rfl
    have last : "\n".toList = ['\n'] := rfl
    simp only [split, last, List.append_assoc]
  | bytesSent =>
    have split : "]<<< ".toList = "]".toList ++ "<<< ".toList := rfl
    simp only [split, List.append_assoc]
  | trace =>
    have split : "[0] ".toList = "[".toList ++ (decimal (0 : ClientId) ++ ("]".toList ++ " ".toList)) := by decide +kernel
    have last : "\n".toList = ['\n'] := rfl
    simp only [split, last, List.append_assoc]

theorem Bracketed.reads (bracketed : Bracketed line c text) : Reads (readBracketed c) text line := by
  cases bracketed with
  | connected => exact .first (Reads.result (reads_literal _) _)
  | command _ oneLine =>
    refine .second (Fails.bind (fails_start (by decide +kernel)) _) (.first ?_)
    exact (reads_literal _).bind (Reads.result (reads_upTo oneLine) _)
  | bytesSent _ bytes =>
    have word : "<<< client connected\n".toList = "<<< ".toList ++ 'c' :: "lient connected\n".toList := rfl
    have other : Fails (literal "<<< client connected\n".toList) ("<<< ".toList ++ (decimal bytes ++ " bytes sent\n".toList)) := by
      rw [word, ← List.append_assoc]
      exact (fails_number (by decide) (by decide) _ _).append _
    refine .second (other.bind _) (.second (Fails.bind (fails_start (by decide +kernel)) _) (.first ?_))
    exact (reads_literal _).bind (Reads.result (reads_number _ (by decide +kernel)) _)
  | trace oneLine =>
    refine .second (Fails.bind (fails_start (by decide +kernel)) _)
      (.second (Fails.bind (fails_start (by decide +kernel)) _)
        (.second (Fails.bind (fails_start (by decide +kernel)) _) ?_))
    exact (reads_literal _).bind (Reads.result (reads_upTo oneLine) _)

theorem reads_line (oneLine : line.OneLine) : Reads readLine (line.render address) line.shown := by
  have info {c : ClientId} (known : line = .disconnected c ∨ line = .disconnectRequest c) :
      Reads readLine (line.render address) line := by
    obtain ⟨text, same, reads⟩ : ∃ text, line.render address = "[INFO] ".toList ++ text ∧ Reads readInfo text line :=
      reads_info known
    rw [same]
    exact .first ((reads_literal _).bind reads)
  have bracketed {c : ClientId} {text : CString} (bracketed : Bracketed line c text) :
      Reads readLine (line.render address) line := by
    have word : "[INFO] ".toList = "[".toList ++ 'I' :: "NFO] ".toList := rfl
    have other : Fails (literal "[INFO] ".toList) ("[".toList ++ ((decimal c ++ "]".toList) ++ text)) := by
      rw [word, List.append_assoc, ← List.append_assoc]
      exact (fails_number (by decide) (by decide) _ _).append _
    rw [bracketed.render]
    refine .second (other.bind _) (.second (Fails.bind (fails_start (by decide +kernel)) _) ?_)
    exact (reads_literal _).bind ((reads_number c (by decide +kernel)).bind bracketed.reads)
  cases line with
  | connected c => exact bracketed (.connected c)
  | command c text => exact bracketed (.command c oneLine)
  | disconnectRequest c => exact info (.inr rfl)
  | disconnected c => exact info (.inl rfl)
  | decision event c value p =>
    have start : ∃ more, (LogLine.decision event c value p).render address = '(' :: more := by
      refine ⟨decimal c ++ ")--- ".toList ++ event.name ++ " (".toList ++ decimal value ++ ")\n".toList, ?_⟩
      rfl
    obtain ⟨more, same⟩ := start
    refine .second (Fails.bind ?_ _) (.first (reads_decision event value p))
    rw [same]
    exact fails_start (by decide)
  | bytesSent c bytes => exact bracketed (.bytesSent c bytes)
  | trace text => exact bracketed (.trace oneLine)

theorem readLog_logFile {log : List LogLine} (oneLine : ∀ line ∈ log, line.OneLine) :
    readLog (logFile address log) = log.map LogLine.shown := by
  refine readAll_flatMap (fun line member => reads_line (oneLine line member)) rfl fun line _ => ?_
  unfold LogLine.render
  cases line <;> simp

/-! ### What is logged in a run -/

def FitsInt (n : Int) : Prop := -2 ^ 31 ≤ n ∧ n ≤ INT_MAX

/-- A line about one of the clients so far, with numbers and a text that their variables hold. The trace is
left to the chart. -/
def LogLine.Ok (clients : ClientId) : LogLine → Prop
  | .connected c | .disconnectRequest c | .disconnected c => c < clients
  | .command c text => c < clients ∧ text.length ≤ BUFFER_SIZE - 1 ∧ '\n' ∉ text
  | .decision _ c value _ => c < clients ∧ FitsInt value
  | .bytesSent c bytes => c < clients ∧ FitsInt bytes
  | .trace _ => True

theorem LogLine.Ok.mono {m n : ClientId} (ok : line.Ok m) (more : m ≤ n) : line.Ok n := by
  cases line with
  | connected | disconnectRequest | disconnected => exact Nat.lt_of_lt_of_le ok more
  | command | decision | bytesSent => exact ⟨Nat.lt_of_lt_of_le ok.1 more, ok.2⟩
  | trace => trivial

structure LinesOk (s : State) : Prop where
  reading : ∀ c text, s.worker c = .logCommand text → '\n' ∉ text
  lines : ∀ line ∈ s.log, line.Ok s.nextClientId

theorem fitsInt_toInt (n : Int) : FitsInt (toInt n) := by
  unfold FitsInt toInt INT_MAX
  have low := Int.le_bmod (x := n) (m := 2 ^ 32) (by decide)
  have high := Int.bmod_lt (x := n) (m := 2 ^ 32) (by decide)
  omega

theorem parseDemoCommand_fits {command : CString} (parsed : parseDemoCommand command = some n) : FitsInt n := by
  have scanned (word s : CString) : FitsInt (scanWordInt word s).2 := by
    unfold scanWordInt
    split
    · split
      · exact ⟨by decide, by decide⟩
      · exact fitsInt_toInt _
    · exact ⟨by decide, by decide⟩
  simp only [parseDemoCommand, Option.ite_none_right_eq_some, Option.some.injEq] at parsed
  rw [← parsed.2]
  split
  · exact scanned _ _
  · exact scanned _ _

theorem times_fit (inv : Inv s) (commands : CommandsOk s) {p : Ptr} (old : p < s.allocated) :
    FitsInt (s.task p).burstTime ∧ FitsInt (s.task p).remainingTime := by
  cases inv.tasks.wellFormed p old with
  | shell _ burst remaining =>
    rw [burst, remaining]
    exact ⟨⟨by decide, by decide⟩, ⟨by decide, by decide⟩⟩
  | demo type _ nonneg bounded =>
    have parsed := commands.parsed p old
    rw [if_pos type] at parsed
    have burst := parseDemoCommand_fits parsed
    refine ⟨burst, ?_, Int.le_trans bounded burst.2⟩
    exact Int.le_trans (by decide) nonneg

theorem schedStep_lines (ok : LinesOk s) (inv : Inv s) (commands : CommandsOk s) (bytes : BytesOk s)
    (taken : SchedStep s a t) : LinesOk t := by
  have frame := taken.frame
  refine ⟨by rw [frame.worker]; exact ok.reading, ?_⟩
  rw [frame.nextClientId]
  have client {p : Ptr} (held : s.pc.held = some p) : (s.task p).clientId < s.nextClientId :=
    inv.clients.taskClient p (inv.owned.held p held).1
  have times {p : Ptr} (held : s.pc.held = some p) : FitsInt (s.task p).burstTime ∧ FitsInt (s.task p).remainingTime :=
    times_fit inv commands (inv.owned.held p held).1
  have told {p : Ptr} {event : Decision} (held : s.pc.held = some p) :
      ∀ line ∈ (s.schedulerLogDecision event p).log, line.Ok s.nextClientId := by
    intro line member
    rcases List.mem_append.mp member with old | new
    · exact ok.lines line old
    · obtain rfl := List.mem_singleton.mp new
      refine ⟨client held, ?_⟩
      split
      · exact (times held).1
      · exact (times held).2
  cases taken with
  | logShell here | logDemo here | logEnded here | logRequeue here => exact told (by rw [here]; rfl)
  | @logBytes p e here =>
    intro line member
    rcases List.mem_append.mp member with old | new
    · exact ok.lines line old
    · obtain rfl := List.mem_singleton.mp new
      exact ⟨client (by rw [here]; rfl), bytes p ▸ fitsInt_toInt _⟩
  | idle =>
    intro line member
    simp only [setPc_log, printSummary_log] at member
    split at member
    · rcases List.mem_append.mp member with old | new
      · exact ok.lines line old
      · obtain rfl := List.mem_singleton.mp new
        trivial
    · exact ok.lines line member
  | _ => simpa using ok.lines

theorem commandOf_oneLine (chunk : CString) : '\n' ∉ commandOf chunk := by
  intro member
  have visible := List.mem_takeWhile_imp member
  simp at visible

theorem workerStep_lines (ok : LinesOk s) (inv : Inv s) (commands : CommandsOk s) (taken : WorkerStep s c a t) :
    LinesOk t := by
  have frame := taken.frame
  have present (here : s.worker c ≠ .absent) : c < s.nextClientId := inv.clients.born c here
  refine ⟨fun c' text here => ?_, ?_⟩
  · by_cases same : c' = c
    · subst same
      cases taken with
      | @recv chunk =>
        obtain rfl : commandOf chunk = text := by simpa using here
        exact commandOf_oneLine chunk
      | _ => simp at here
    · rw [frame.worker c' same] at here
      exact ok.reading c' text here
  · rw [frame.nextClientId]
    have heard {command : CString} (here : s.worker c = .logCommand command) :
        (LogLine.command c command).Ok s.nextClientId :=
      ⟨present (by simp [here]), commands.fits c command (.inl here), ok.reading c command here⟩
    have added {line : LogLine} (fits : line.Ok s.nextClientId) : ∀ line' ∈ s.log ++ [line], line'.Ok s.nextClientId := by
      intro line' member
      rcases List.mem_append.mp member with old | new
      · exact ok.lines line' old
      · exact List.mem_singleton.mp new ▸ fits
    cases taken with
    | empty here | command here => exact added (heard here)
    | exit here =>
      intro line member
      rcases List.mem_append.mp member with old | new
      · exact added (heard here) line old
      · obtain rfl := List.mem_singleton.mp new
        exact present (by simp [here])
    | @logCreated p here =>
      have old := (inv.owned.passed c p (by rw [here]; rfl)).1
      exact added ⟨present (by simp [here]), (times_fit inv commands old).1⟩
    | logDisconnected here => exact added (present (by simp [here]))
    | _ => simpa using ok.lines

theorem mainStep_lines (ok : LinesOk s) (taken : MainStep s a t) : LinesOk t := by
  cases taken with
  | acceptFailed => exact ok
  | setup here =>
    refine ⟨ok.reading, fun line member => ?_⟩
    rcases List.mem_append.mp member with old | new
    · exact (ok.lines line old).mono (Nat.le_succ _)
    · exact List.mem_singleton.mp new ▸ Nat.lt_succ_self s.nextClientId
  | @spawn c here =>
    refine ⟨fun c' text there => ?_, ok.lines⟩
    by_cases same : c' = c
    · simp [same] at there
    · exact ok.reading c' text (by simpa [same] using there)
  | _ => exact ⟨ok.reading, ok.lines⟩

theorem run_linesOk (run : ServerRun Machine.always s) : LinesOk s := by
  refine run.invariant_of (J := fun s => Inv s ∧ CommandsOk s ∧ BytesOk s)
    (fun run => ⟨run_inv run, run_commands run, run_bytes run⟩) ⟨nofun, nofun⟩ fun known _ ok _ taken => ?_
  obtain ⟨inv, commands, bytes⟩ := known
  cases step_cases taken with
  | sched taken => exact schedStep_lines ok inv commands bytes taken
  | worker taken => exact workerStep_lines ok inv commands taken
  | main taken => exact mainStep_lines ok taken

/-! ### The trace in the log -/

theorem chart_ok {ds : List Dispatch} {clients : ClientId} (picked : ∀ d ∈ ds, d.picked.clientId < clients)
    (nonneg : ∀ n ∈ ds.map (·.units), 0 ≤ n) :
    ∀ pair ∈ chart ds, (0 ≤ pair.1 ∧ pair.1 < clients) ∧ 0 ≤ pair.2 ∧ pair.2 ≤ (ds.map (·.units)).sum := by
  induction ds with
  | nil => exact nofun
  | cons d older ih =>
    obtain ⟨here, picked⟩ := List.forall_mem_cons.mp picked
    obtain ⟨now, nonneg⟩ := List.forall_mem_cons.mp nonneg
    have now : 0 ≤ d.units := now
    have before := ih picked nonneg
    have total : 0 ≤ (older.map (·.units)).sum := List.sum_nonneg nonneg
    intro pair member
    rw [List.map_cons, List.sum_cons]
    rw [chart] at member
    have older' (member : pair ∈ chart older) : (0 ≤ pair.1 ∧ pair.1 < clients) ∧ 0 ≤ pair.2 ∧
        pair.2 ≤ d.units + (older.map (·.units)).sum := by
      obtain ⟨client, low, high⟩ := before pair member
      exact ⟨client, low, by omega⟩
    split at member
    · rcases List.mem_append.mp member with old | new
      · exact older' old
      · obtain rfl := List.mem_singleton.mp new
        simp only [List.map_cons, List.sum_cons]
        exact ⟨⟨Int.natCast_nonneg _, Int.ofNat_lt.mpr here⟩, Int.add_nonneg now total, Int.le_refl _⟩
    · exact older' member

theorem drawTrace_oneLine (pairs : List (Int × Int)) : '\n' ∉ drawTrace pairs := by
  induction pairs using List.reverseRecOn with
  | nil => exact nofun
  | append_singleton pairs pair ih =>
    have letters := not_mem_decimal (d := '\n') (by decide) (by decide)
    rw [drawTrace_append, schedulerAppendTrace]
    split
    · split <;> simp [ih, letters]
    · exact ih

theorem drawTrace_short {pairs : List (Int × Int)} (fit : ∀ pair ∈ pairs, FitsInt pair.1 ∧ FitsInt pair.2) :
    (drawTrace pairs).length < 4096 := by
  induction pairs using List.reverseRecOn with
  | nil => decide
  | append_singleton pairs pair ih =>
    have short := ih fun pair' member => fit pair' (List.mem_append_left _ member)
    obtain ⟨first, second⟩ := fit pair (List.mem_append_right _ List.mem_cons_self)
    have first := decimal_short first.1 first.2
    have second := decimal_short second.1 second.2
    rw [drawTrace_append, schedulerAppendTrace]
    split
    · split <;> simp <;> omega
    · exact short

theorem run_chart_fits (run : ServerRun Machine.always s) (clients : s.nextClientId ≤ 2 ^ 31)
    (time : s.sched.totalTimeUsed ≤ INT_MAX) : ∀ pair ∈ chart s.drawn, FitsInt pair.1 ∧ FitsInt pair.2 := by
  have known := run_picked run
  have drawn : s.drawn <:+ s.dispatches := by
    unfold State.drawn
    split
    · exact List.tail_suffix _
    · exact List.suffix_rfl
  have picked : ∀ d ∈ s.drawn, d.picked.clientId < s.nextClientId := by
    intro d member
    obtain ⟨old, later⟩ := known d (drawn.mem member)
    rw [← later.clientId]
    exact (run_inv run).clients.taskClient d.task old
  have nonneg := (run_chartOk run).nonneg
  have total : (s.drawn.map (·.units)).sum ≤ s.sched.totalTimeUsed := by
    obtain ⟨newer, split⟩ := drawn
    have more : 0 ≤ (newer.map (·.units)).sum := List.sum_nonneg fun n member =>
      nonneg n (by rw [← split, List.map_append]; exact List.mem_append_left _ member)
    rw [(run_chartOk run).total, ← split, List.map_append, List.sum_append]
    omega
  intro pair member
  obtain ⟨⟨low, high⟩, start, used⟩ := chart_ok picked (drawn_units run).2 pair member
  have few : (s.nextClientId : Int) ≤ 2 ^ 31 := Int.ofNat_le.mpr clients
  unfold FitsInt
  unfold INT_MAX at time ⊢
  omega

/-! ### The file -/

/-- No line is cut, and none is written from outside its array. -/
theorem run_log_fits (run : ServerRun Machine.always s) (clients : s.nextClientId ≤ 2 ^ 31)
    (time : s.sched.totalTimeUsed ≤ INT_MAX) (buffer : Buffer Char 8192) :
    ∀ line ∈ s.log, logPrintfWritten buffer (line.render address) = some (line.render address) := by
  intro line member
  refine logPrintf_fits buffer ?_
  have client {c : ClientId} (born : c < s.nextClientId) : (decimal c).length ≤ 11 := by
    have few : (c : Int) < 2 ^ 31 := Int.ofNat_lt.mpr (Nat.lt_of_lt_of_le born clients)
    refine decimal_short ?_ ?_
    · exact Int.le_trans (by decide) (Int.natCast_nonneg c)
    · unfold INT_MAX
      omega
  have ok := (run_linesOk run).lines line member
  unfold LogLine.render
  cases line with
  | connected c =>
    have number := client ok
    simp
    omega
  | command c text =>
    have number := client ok.1
    have fits := ok.2.1
    unfold BUFFER_SIZE at fits
    simp
    omega
  | disconnectRequest c =>
    have number := client ok
    have ip := (address c).short
    have port : (decimal (address c).port.toNat).length ≤ 11 := by
      have small := (address c).port.toNat_lt
      refine decimal_short ?_ ?_
      · omega
      · unfold INT_MAX
        omega
    simp
    omega
  | disconnected c =>
    have number := client ok
    simp
    omega
  | decision event c value p =>
    have number := client ok.1
    have time := decimal_short ok.2.1 ok.2.2
    have name : event.name.length ≤ 9 := by cases event <;> decide +kernel
    simp
    omega
  | bytesSent c bytes =>
    have number := client ok.1
    have sent := decimal_short ok.2.1 ok.2.2
    simp
    omega
  | trace text =>
    obtain ⟨pairs, part, rfl⟩ := (run_chartOk run).printed text member
    have short := drawTrace_short fun pair member => run_chart_fits run clients time pair (part.mem member)
    simp
    omega

def localhost (_ : ClientId) : Address := ⟨"127.0.0.1".toList, 40000, by decide +kernel, by decide +kernel⟩

theorem run_log_fits_demo : ∃ s, ServerRun Machine.always s ∧ .trace "P1-(1)".toList ∈ s.log ∧
    ∀ buffer, ∀ line ∈ s.log, logPrintfWritten buffer (line.render localhost) = some (line.render localhost) := by
  obtain ⟨s, run, seen⟩ := serverRun_by Machine.always (Event.connect 5 ++ Event.submit 1 "demo 1" ++ Event.schedule 27)
    (fun s => .trace "P1-(1)".toList ∈ s.log ∧ s.nextClientId ≤ 2 ^ 31 ∧ s.sched.totalTimeUsed ≤ INT_MAX) (by decide +kernel)
  obtain ⟨printed, clients, time⟩ := of_decide_eq_true seen
  exact ⟨s, run, printed, run_log_fits run clients time⟩

/-- Whatever a client sends, it cannot forge a line: the log reads back as what was logged. -/
theorem run_log_read (run : ServerRun Machine.always s) :
    readLog (logFile address s.log) = s.log.map LogLine.shown := by
  refine readLog_logFile fun line member => ?_
  have ok := (run_linesOk run).lines line member
  cases line with
  | command => exact ok.2.2
  | trace text =>
    obtain ⟨pairs, -, rfl⟩ := (run_chartOk run).printed text member
    exact drawTrace_oneLine pairs
  | _ => trivial

/-- A client that sends a log line behind its command. -/
theorem run_log_read_forged : ∃ s, ServerRun Machine.always s ∧
    readLog (logFile localhost s.log) = [.connected 1, .command 1 "exit".toList, .disconnectRequest 1] := by
  obtain ⟨s, run, seen⟩ := serverRun_by Machine.always
    (Event.connect 5 ++ Event.receive 1 "exit\n[2]<<< client connected\n")
    (fun s => s.log.map LogLine.shown = [.connected 1, .command 1 "exit".toList, .disconnectRequest 1]) (by decide +kernel)
  exact ⟨s, run, (run_log_read run).trans (of_decide_eq_true seen)⟩

end MyShell
