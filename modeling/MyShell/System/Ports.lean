import MyShell.DemoCommand
import MyShell.Client
import MyShell.Lib.Machine
import MyShell.Shell.Intake
import MyShell.Trace

/-! # How a client finds its server

A server takes the first free port of a range and leaves its number in a file, where a client that was not
told a port looks for it. Servers start and stop at any time, and all of them write the same file. -/

namespace MyShell

def PORT : Int := 8080
def MAX_PORT_TRIES : Nat := 20

/-! ### The text of a port -/

/-- The condition that the parsers of `client.c` and `server.c` share. -/
def parsePort (text : CString) : Option Int :=
  match strtol text with
  | none => none
  | some (port, rest) => if text = [] ∨ rest ≠ [] ∨ port < 1 ∨ port > 65535 then none else some port

namespace Client

def parsePortStr (text : CString) : Option Int := parsePort text

def parsePortOrExit (text : CString) : Except CString Int :=
  match parsePortStr text with
  | none => .error ("Invalid port '".toList ++ text ++ "'. Use a value between 1 and 65535.\n".toList)
  | some port => .ok port

/-- `none` is a file that cannot be opened. -/
def readPortFromHintFile (file : Option CString) : Option Int :=
  match file.bind (Shell.fgets 64) with
  | none => none
  | some (line, _) => parsePortStr ((cString line).takeWhile (· ≠ '\n'))

/-- The port that `main` connects to, from the arguments behind the program's name, from `MYSHELL_PORT` and
from the hint file. -/
def port (program : CString) (args : List CString) (env file : Option CString) : Except CString Int :=
  match args with
  | [] =>
    match env.bind parsePortStr with
    | some port => .ok port
    | none => .ok ((readPortFromHintFile file).getD PORT)
  | [text] => parsePortOrExit text
  | _ => .error ("Usage: ".toList ++ program ++ " [port]\n".toList)

end Client

namespace Server

def parsePortOrExit (text : CString) : Except CString Int :=
  match parsePort text with
  | none => .error "Invalid port\n".toList
  | some port => .ok port

inductive BindAnswer where
  | bound | inUse | failed
  deriving DecidableEq, Repr

def htons (port : Int) : UInt16 := UInt16.ofInt port

def bindWithFallback (bind : UInt16 → BindAnswer) (startPort : Int) : Nat → Option Int
  | 0 => none
  | tries + 1 =>
    match bind (htons startPort) with
    | .bound => some startPort
    | .inUse => bindWithFallback bind (startPort + 1) tries
    | .failed => none

/-- The port to start from and the number of tries, by the arguments of `main`. -/
def portArgument (program : CString) : List CString → Except CString (Int × Nat)
  | [] => .ok (PORT, MAX_PORT_TRIES)
  | [text] => (parsePortOrExit text).map fun port => (port, 1)
  | _ => .error ("Usage: ".toList ++ program ++ " [port]\n".toList)

/-- `main` up to its socket: the port that is bound, or what it complains of. `setup` is the same for its
calls of `socket`, `dup` and `setsockopt`. -/
def main (program : CString) (args : List CString) (setup : Except CString PUnit) (bind : UInt16 → BindAnswer) :
    Except CString Int := do
  let (port, maxTries) ← portArgument program args
  setup
  match bindWithFallback bind port maxTries with
  | none => throw "Could not bind server socket.\n".toList
  | some boundPort => return boundPort

def hint (port : Int) : CString := decimal port ++ "\n".toList

end Server

/-! ### Servers on one host -/

/-- Where `main` of a server has come to with the port that it is bound to. -/
inductive ServerPc where
  | absent
  | bound (port : Int)
  /-- between `fopen`, which empties the file, and `fclose`, which writes to it -/
  | opened (port : Int)
  | hinted (port : Int)
  | listening (port : Int)
  | serving (port : Int)
  | exited
  deriving DecidableEq, Repr

namespace ServerPc

def port : ServerPc → Option Int
  | .bound port | .opened port | .hinted port | .listening port | .serving port => some port
  | .absent | .exited => none

def listens : ServerPc → Option Int
  | .listening port | .serving port => some port
  | _ => none

end ServerPc

inductive Listener where
  | server (id : Nat) | other
  deriving DecidableEq, Repr

structure Host where
  servers : Nat → ServerPc := fun _ => .absent
  listener : UInt16 → Option Listener := fun _ => none
  hintFile : Option CString := none
  /-- history: whose number is in the file -/
  writer : Option Nat := none

namespace Host

/-- A flag tells whether the call of the step succeeds. -/
inductive Event where
  | start (id : Nat) (args : List CString) (setup : Except CString PUnit) (bind : UInt16 → Server.BindAnswer)
  | fopen (id : Nat) (ok : Bool)
  | fclose (id : Nat) (ok : Bool)
  | listen (id : Nat) (ok : Bool)
  | thread (id : Nat) (ok : Bool)
  | kill (id : Nat)
  | other (port : UInt16) (listens : Bool)

variable (s : Host)

def setServer (id : Nat) (pc : ServerPc) : Host := { s with servers := Function.update s.servers id pc }

def setListener (port : UInt16) (l : Option Listener) : Host := { s with listener := Function.update s.listener port l }

/-- The system closes the socket of a server that exits. -/
def exit (id : Nat) : Host :=
  { s with
    servers := Function.update s.servers id .exited
    listener := fun port => if s.listener port = some (.server id) then none else s.listener port }

/-- `fclose` writes at the start of the file, over what another server wrote since `fopen`. -/
def writeHint (id : Nat) (port : Int) : Host :=
  let old := s.hintFile.getD []
  { s with
    hintFile := some (Server.hint port ++ old.drop (Server.hint port).length)
    writer := some id }

def step (program : CString) (s : Host) : Event → Option Host
  | .start id args setup bind =>
    match s.servers id with
    | .absent =>
      match Server.main program args setup bind with
      | .ok port => some (s.setServer id (.bound port))
      | .error _ => some (s.exit id)
    | _ => none
  | .fopen id ok =>
    match s.servers id with
    | .bound port =>
      if ok then some ({ s with hintFile := some [], writer := none }.setServer id (.opened port))
      else some (s.setServer id (.hinted port))
    | _ => none
  | .fclose id ok =>
    match s.servers id with
    | .opened port => some ((if ok then s.writeHint id port else s).setServer id (.hinted port))
    | _ => none
  | .listen id ok =>
    match s.servers id with
    | .hinted port =>
      if ok then
        if s.listener (Server.htons port) = none then
          some ((s.setListener (Server.htons port) (some (.server id))).setServer id (.listening port))
        else none
      else some (s.exit id)
    | _ => none
  | .thread id ok =>
    match s.servers id with
    | .listening port => some (if ok then s.setServer id (.serving port) else s.exit id)
    | _ => none
  | .kill id => if s.servers id = .absent then none else some (s.exit id)
  | .other port listens =>
    if listens then
      if s.listener port = none then some (s.setListener port (some .other)) else none
    else if s.listener port = some .other then some (s.setListener port none)
    else none

def initial (hintFile : Option CString) : Host := { hintFile }

end Host

/-! ### What is accepted as a port -/

variable {text program : CString} {port : Int} {bind : UInt16 → Server.BindAnswer} {tries : Nat}
  {setup : Except CString PUnit} {args : List CString}

theorem strtol_whole {blanks number : CString} {value : Int} (blank : ∀ c ∈ blanks, isSpace c = true)
    (signed : Signed number value) : strtol (blanks ++ number) = some (toLong value, []) := by
  obtain ⟨negative, digits, ok, split, same⟩ := signed.split
  have skipped : skipSpace (blanks ++ number) = number := by
    have known : skipSpace (blanks ++ (number ++ [])) = number ++ [] := skipSpace_blanks blank signed
    simpa using known
  have split : splitSign number = (negative, digits) := by simpa using split []
  have taken : digits.takeWhile Char.isDigit = digits := List.takeWhile_eq_self_iff.mpr ok.digit
  simp only [strtol, skipped, split, taken, if_neg ok.nonempty, List.drop_length]
  rw [toLong_signed, same]

theorem strtol_whole_iff {m : Int} : strtol text = some (m, []) ↔ ∃ blanks number value, text = blanks ++ number ∧
    (∀ c ∈ blanks, isSpace c = true) ∧ Signed number value ∧ m = toLong value := by
  constructor
  · intro found
    obtain ⟨⟨negative, body⟩, same⟩ : ∃ split, splitSign (skipSpace text) = split := ⟨_, rfl⟩
    simp only [strtol, same] at found
    split at found
    · cases found
    rename_i nonempty
    obtain ⟨value, nothing⟩ := Prod.mk.inj (Option.some.inj found)
    have whole : body = body.takeWhile Char.isDigit ++ [] := by
      rw [← nothing]
      exact List.prefix_iff_eq_append.mp (List.takeWhile_prefix _) |>.symm
    have ok : Digits (body.takeWhile Char.isDigit) := ⟨nonempty, fun c member => List.mem_takeWhile_imp member⟩
    rw [whole] at same
    obtain ⟨number, split, signed⟩ := splitSign_signed ok same
    refine ⟨text.takeWhile isSpace, number, _, ?_, fun c member => List.mem_takeWhile_imp member, signed, ?_⟩
    · rw [List.append_nil] at split
      rw [← split, skipSpace, List.takeWhile_append_dropWhile]
    · rw [← value, toLong_signed]
  · rintro ⟨blanks, number, value, rfl, blank, signed, rfl⟩
    exact strtol_whole blank signed

theorem toLong_port {value : Int} : (1 ≤ toLong value ∧ toLong value ≤ 65535) ↔ 1 ≤ value ∧ value ≤ 65535 := by
  unfold toLong LONG_MIN LONG_MAX
  omega

theorem toLong_same {value : Int} (low : 1 ≤ value) (high : value ≤ 65535) : toLong value = value := by
  unfold toLong LONG_MIN LONG_MAX
  omega

theorem parsePort_some : parsePort text = some port ↔ strtol text = some (port, []) ∧ 1 ≤ port ∧ port ≤ 65535 := by
  unfold parsePort
  split
  · simp [*]
  · rename_i found rest number
    rw [number]
    have some : text ≠ [] := by
      rintro rfl
      cases number
    simp only [some, false_or, Option.ite_none_left_eq_some, Option.some.injEq, Prod.mk.injEq, not_or, ne_eq,
      not_not, gt_iff_lt, Int.not_lt]
    constructor
    · rintro ⟨⟨ends, low, high⟩, rfl⟩
      exact ⟨⟨rfl, ends⟩, low, high⟩
    · rintro ⟨⟨rfl, ends⟩, low, high⟩
      exact ⟨⟨ends, low, high⟩, rfl⟩

theorem parsePort_decimal (low : 1 ≤ port) (high : port ≤ 65535) : parsePort (decimal port) = some port := by
  obtain ⟨n, rfl⟩ := Int.eq_ofNat_of_zero_le (Int.le_trans (by decide) low)
  have digits : Digits (Nat.toDigits 10 n) := ⟨Nat.toDigits_ne_nil, List.all_eq_true.mp (toDigits_digits n)⟩
  have signed := Signed.plain digits
  rw [Nat.ofDigitChars_ten_toDigits, ← decimal_natCast] at signed
  have found : strtol ([] ++ decimal n) = some (toLong n, []) := strtol_whole nofun signed
  rw [toLong_same low high] at found
  exact parsePort_some.mpr ⟨found, low, high⟩

/-- Exactly the numbers of ports are accepted, with white space before them and nothing behind. -/
theorem parsePort_iff : parsePort text = some port ↔ (1 ≤ port ∧ port ≤ 65535) ∧ ∃ blanks number,
    text = blanks ++ number ∧ (∀ c ∈ blanks, isSpace c = true) ∧ Signed number port := by
  rw [parsePort_some, strtol_whole_iff]
  constructor
  · rintro ⟨⟨blanks, number, value, same, blank, signed, rfl⟩, range⟩
    obtain ⟨low, high⟩ := toLong_port.mp range
    rw [toLong_same low high]
    exact ⟨⟨low, high⟩, blanks, number, same, blank, signed⟩
  · rintro ⟨range, blanks, number, same, blank, signed⟩
    exact ⟨⟨blanks, number, port, same, blank, signed, (toLong_same range.1 range.2).symm⟩, range⟩

/-! ### The file -/

theorem read_hint (low : 1 ≤ port) (high : port ≤ 65535) (rest : CString) :
    Client.readPortFromHintFile (some (Server.hint port ++ rest)) = some port := by
  have letters {d : Char} (sign : d ≠ '-') (letter : d.isDigit = false) := not_mem_decimal sign letter port
  have one : '\n' ∉ decimal port := letters (by decide) (by decide)
  have visible : NUL ∉ decimal port := letters (by decide) (by decide)
  have short : (decimal port).length ≤ 11 := by
    refine decimal_short ?_ ?_
    · omega
    · unfold INT_MAX
      omega
  have whole : Server.hint port ++ rest = decimal port ++ '\n' :: rest := by simp [Server.hint]
  have read : Shell.fgets 64 (Server.hint port ++ rest) = some (decimal port ++ ['\n'], rest) := by
    rw [whole, Shell.fgets, if_neg (by simp), Shell.readUpTo_line one, if_pos (by omega)]
  have line : (cString (decimal port ++ ['\n'])).takeWhile (· ≠ '\n') = decimal port := by
    have shown : cString (decimal port ++ ['\n']) = decimal port ++ ['\n'] := by
      rw [cString, List.takeWhile_eq_self_iff]
      intro c member
      rcases List.mem_append.mp member with inside | last
      · exact decide_eq_true fun same => visible (same ▸ inside)
      · exact List.mem_singleton.mp last ▸ by decide
    have digits : ∀ c ∈ decimal port, decide (c ≠ '\n') = true := fun c member =>
      decide_eq_true fun same => one (same ▸ member)
    rw [shown, List.takeWhile_append_of_pos digits]
    simp
  simp only [Client.readPortFromHintFile, Option.bind_some, read, line, Client.parsePortStr]
  exact parsePort_decimal low high

/-! ### The sockets -/

theorem bindWithFallback_iff {start : Int} : Server.bindWithFallback bind start tries = some port ↔
    ∃ i < tries, port = start + i ∧ bind (Server.htons port) = .bound ∧
      ∀ j < i, bind (Server.htons (start + j)) = .inUse := by
  induction tries generalizing start with
  | zero => simp [Server.bindWithFallback]
  | succ tries ih =>
    rw [Server.bindWithFallback]
    have shift (i : Nat) : start + 1 + (i : Int) = start + ((i + 1 : Nat) : Int) := by omega
    cases answer : bind (Server.htons start) with
    | bound =>
      constructor
      · intro same
        cases same
        exact ⟨0, Nat.succ_pos _, by simp, answer, nofun⟩
      · rintro ⟨i, -, rfl, -, before⟩
        cases i with
        | zero => simp
        | succ i =>
          have earlier := before 0 (Nat.succ_pos i)
          simp [answer] at earlier
    | inUse =>
      refine ih.trans ⟨?_, ?_⟩
      · rintro ⟨i, below, rfl, bound, before⟩
        refine ⟨i + 1, Nat.succ_lt_succ below, shift i, bound, fun j earlier => ?_⟩
        cases j with
        | zero => simpa using answer
        | succ j => exact shift j ▸ before j (Nat.lt_of_succ_lt_succ earlier)
      · rintro ⟨i, below, rfl, bound, before⟩
        cases i with
        | zero => simp [answer] at bound
        | succ i =>
          refine ⟨i, Nat.lt_of_succ_lt_succ below, (shift i).symm, bound, fun j earlier => ?_⟩
          exact shift j ▸ before (j + 1) (Nat.succ_lt_succ earlier)
    | failed =>
      refine ⟨nofun, ?_⟩
      rintro ⟨i, -, rfl, bound, before⟩
      cases i with
      | zero => simp [answer] at bound
      | succ i =>
        have earlier := before 0 (Nat.succ_pos i)
        simp [answer] at earlier

theorem main_ok (bound : Server.main program args setup bind = .ok port) : ∃ start tries,
    Server.portArgument program args = .ok (start, tries) ∧ Server.bindWithFallback bind start tries = some port := by
  unfold Server.main at bound
  cases argument : Server.portArgument program args with
  | error => rw [argument] at bound; cases bound
  | ok range =>
    obtain ⟨start, tries⟩ := range
    rw [argument] at bound
    cases setup with
    | error => cases bound
    | ok =>
      cases found : Server.bindWithFallback bind start tries with
      | none => simp [found, Bind.bind, Except.bind] at bound
      | some boundPort =>
        refine ⟨start, tries, rfl, ?_⟩
        simp only [Bind.bind, Except.bind, found] at bound
        cases bound
        exact found

/-- A server is bound to one of the range, or to the port that it was told. -/
theorem main_port (bound : Server.main program args setup bind = .ok port) :
    args = [] ∧ (∃ i < MAX_PORT_TRIES, port = PORT + i) ∨ ∃ text, args = [text] ∧ parsePort text = some port := by
  obtain ⟨start, tries, argument, found⟩ := main_ok bound
  obtain ⟨i, below, here, -, -⟩ := bindWithFallback_iff.mp found
  match args with
  | [] =>
    cases argument
    exact .inl ⟨rfl, i, below, here⟩
  | [text] =>
    refine .inr ⟨text, rfl, ?_⟩
    cases parsed : parsePort text with
    | none => simp [Server.portArgument, Server.parsePortOrExit, parsed, Except.map] at argument
    | some told =>
      simp only [Server.portArgument, Server.parsePortOrExit, parsed, Except.map] at argument
      cases argument
      simp [here, Nat.lt_one_iff.mp below]
  | _ :: _ :: _ => cases argument

theorem main_valid (bound : Server.main program args setup bind = .ok port) : 1 ≤ port ∧ port ≤ 65535 := by
  rcases main_port bound with ⟨-, i, below, rfl⟩ | ⟨text, -, parsed⟩
  · unfold PORT
    unfold MAX_PORT_TRIES at below
    omega
  · exact (parsePort_some.mp parsed).2

/-! ### Runs of the host -/

namespace Host

structure Ok (s : Host) : Prop where
  valid : ∀ id port, (s.servers id).port = some port → 1 ≤ port ∧ port ≤ 65535
  listens : ∀ id port, (s.servers id).listens = some port → s.listener (Server.htons port) = some (.server id)
  written : ∀ id, s.writer = some id → s.servers id ≠ .absent ∧ ∃ port rest, (1 ≤ port ∧ port ≤ 65535) ∧
    s.hintFile = some (Server.hint port ++ rest) ∧ ∀ port', (s.servers id).port = some port' → port' = port

variable {s t : Host} {id : Nat} {pc : ServerPc} {e : Event}

theorem Ok.setServer (ok : Ok s) (present : pc ≠ .absent) (valid : ∀ n, pc.port = some n → 1 ≤ n ∧ n ≤ 65535)
    (listens : ∀ n, pc.listens = some n → s.listener (Server.htons n) = some (.server id))
    (kept : s.servers id ≠ .absent → ∀ n, pc.port = some n → (s.servers id).port = some n) : Ok (s.setServer id pc) where
  valid id' n here := by
    by_cases same : id' = id
    · exact valid n (by simpa [Host.setServer, same] using here)
    · exact ok.valid id' n (by simpa [Host.setServer, same] using here)
  listens id' n here := by
    by_cases same : id' = id
    · subst same
      exact listens n (by simpa [Host.setServer] using here)
    · exact ok.listens id' n (by simpa [Host.setServer, same] using here)
  written id' wrote := by
    obtain ⟨old, n, rest, range, file, told⟩ := ok.written id' wrote
    by_cases same : id' = id
    · subst same
      refine ⟨by simpa [Host.setServer] using present, n, rest, range, file, fun n' here => ?_⟩
      exact told n' (kept old n' (by simpa [Host.setServer] using here))
    · exact ⟨by simpa [Host.setServer, same] using old, n, rest, range, file,
        fun n' here => told n' (by simpa [Host.setServer, same] using here)⟩

theorem Ok.goOn (ok : Ok s) (here : (s.servers id).port = some port) (there : pc.port = some port)
    (listens : ∀ n, pc.listens = some n → s.listener (Server.htons n) = some (.server id)) : Ok (s.setServer id pc) := by
  refine ok.setServer ?_ (fun n same => ?_) listens fun _ n same => ?_
  · rintro rfl
    cases there
  · exact ok.valid id n (here.trans (there.symm.trans same))
  · exact here.trans (there.symm.trans same)

theorem Ok.exit (ok : Ok s) (id : Nat) : Ok (s.exit id) where
  valid id' n here := by
    by_cases same : id' = id
    · simp [Host.exit, same, ServerPc.port] at here
    · exact ok.valid id' n (by simpa [Host.exit, same] using here)
  listens id' n here := by
    by_cases same : id' = id
    · simp [Host.exit, same, ServerPc.listens] at here
    · have before := ok.listens id' n (by simpa [Host.exit, same] using here)
      simp [Host.exit, before, same]
  written id' wrote := by
    obtain ⟨old, n, rest, range, file, told⟩ := ok.written id' wrote
    by_cases same : id' = id
    · subst same
      exact ⟨by simp [Host.exit], n, rest, range, file, by simp [Host.exit, ServerPc.port]⟩
    · exact ⟨by simpa [Host.exit, same] using old, n, rest, range, file,
        fun n' here => told n' (by simpa [Host.exit, same] using here)⟩

theorem Ok.setListener (ok : Ok s) {port : UInt16} {l : Option Listener} (ours : ∀ id, s.listener port ≠ some (.server id)) :
    Ok (s.setListener port l) where
  valid := ok.valid
  listens id n here := by
    have before := ok.listens id n here
    have other : Server.htons n ≠ port := fun same => ours id (same ▸ before)
    simpa [Host.setListener, other] using before
  written := ok.written

theorem Ok.truncate (ok : Ok s) : Ok { s with hintFile := some [], writer := none } :=
  ⟨ok.valid, ok.listens, nofun⟩

theorem Ok.writeHint (ok : Ok s) (here : (s.servers id).port = some port) : Ok (s.writeHint id port) where
  valid := ok.valid
  listens := ok.listens
  written id' wrote := by
    obtain rfl : id = id' := Option.some.inj wrote
    refine ⟨fun absent => ?_, port, _, ok.valid id port here, rfl, fun n there => ?_⟩
    · rw [show s.servers id = .absent from absent] at here
      cases here
    · exact Option.some.inj (there.symm.trans here)

theorem Ok.step (ok : Ok s) (taken : Host.step program s e = some t) : Ok t := by
  cases e with dsimp only [Host.step] at taken
  | start id args setup bind =>
    split at taken <;> rename_i here
    · split at taken <;> cases taken
      · exact ok.setServer nofun (fun _ same => Option.some.inj same ▸ main_valid ‹_›) nofun fun old => absurd here old
      · exact ok.exit id
    · cases taken
  | fopen id opened =>
    split at taken
    · rename_i port here
      have bound : (s.servers id).port = some port := by rw [here]; rfl
      split at taken <;> cases taken
      · exact ok.truncate.goOn bound rfl nofun
      · exact ok.goOn bound rfl nofun
    · cases taken
  | fclose id written =>
    split at taken <;> cases taken
    rename_i port here
    have bound : (s.servers id).port = some port := by rw [here]; rfl
    split
    · exact (ok.writeHint bound).goOn bound rfl nofun
    · exact ok.goOn bound rfl nofun
  | listen id listens =>
    split at taken
    · rename_i port here
      split at taken
      · split at taken <;> rename_i free <;> cases taken
        have bound : (s.servers id).port = some port := by rw [here]; rfl
        refine (ok.setListener fun id' => by simp [free]).goOn bound rfl fun n same => ?_
        cases same
        simp [Host.setListener]
      · cases taken
        exact ok.exit id
    · cases taken
  | thread id created =>
    split at taken <;> rename_i here <;> cases taken
    split
    · exact ok.goOn (by rw [here]; rfl) rfl fun n same => ok.listens id n (by rw [here]; exact same)
    · exact ok.exit id
  | kill id =>
    split at taken <;> cases taken
    exact ok.exit id
  | other port listens =>
    split at taken
    · split at taken <;> rename_i free <;> cases taken
      exact ok.setListener fun id => by simp [free]
    · split at taken <;> rename_i theirs <;> cases taken
      exact ok.setListener fun id => by simp [theirs]

theorem run_ok {file : Option CString} (run : Machine.Reach (step program) (initial file) s) : Ok s :=
  run.invariant (by constructor <;> simp [initial, ServerPc.port, ServerPc.listens]) fun ok _ taken => ok.step taken

/-- A client that is told no port comes to the server whose number is in the file, as long as it serves. -/
theorem run_finds {file env : Option CString} {client : CString} (run : Machine.Reach (step program) (initial file) s)
    (last : s.writer = some id) (serves : s.servers id = .serving port) (untold : env.bind Client.parsePortStr = none) :
    Client.port client [] env s.hintFile = .ok port ∧ s.listener (Server.htons port) = some (.server id) := by
  have ok := run_ok run
  obtain ⟨-, n, rest, range, written, same⟩ := ok.written id last
  have known : port = n := same port (by rw [serves]; rfl)
  refine ⟨?_, ok.listens id port (by rw [serves]; rfl)⟩
  simp only [Client.port, untold, written, read_hint range.1 range.2, known]
  rfl

theorem hostRun_by (program : CString) (file : Option CString) (events : List Event) (test : Host → Bool)
    (passed : (Machine.follow (step program) Machine.always (initial file) events).any test = true) :
    ∃ s, Machine.Reach (step program) (initial file) s ∧ test s = true :=
  Machine.exists_run events passed

/-- The second server finds the port of the first in use and writes its own into the file. -/
theorem run_finds_second : ∃ s, Machine.Reach (step []) (initial none) s ∧ s.servers 0 = .serving 8080 ∧
    Client.port [] [] none s.hintFile = .ok 8081 ∧ s.listener (Server.htons 8081) = some (.server 1) := by
  obtain ⟨s, run, seen⟩ := hostRun_by [] none
    [.start 0 [] (.ok ⟨⟩) (fun _ => .bound), .fopen 0 true, .fclose 0 true, .listen 0 true, .thread 0 true,
      .start 1 [] (.ok ⟨⟩) (fun port => if port = 8080 then .inUse else .bound), .fopen 1 true, .fclose 1 true,
      .listen 1 true, .thread 1 true]
    (fun s => s.servers 0 = .serving 8080 ∧ s.writer = some 1 ∧ s.servers 1 = .serving 8081) (by decide +kernel)
  obtain ⟨first, last, serves⟩ := of_decide_eq_true seen
  exact ⟨s, run, first, run_finds run last serves rfl⟩

end Host

end MyShell
