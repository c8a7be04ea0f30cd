import MyShell.Lib.Fields
import MyShell.Shell.Echo
import MyShell.Shell.Executor

/-! # Validation

`validate_command` and `validate_pipeline` of `executor.c`, with `command_exists`. An input file is opened
and closed again, so that a full table fails the line as well as a missing file does. -/

namespace MyShell.Shell

open Descriptors MyShell.Parser

/-- The answers to `open` for reading, with its error, to `access` with `X_OK` and to `getenv("PATH")`. -/
structure Lookup where
  readable : CString → Option CString := fun _ => none
  executable : CString → Bool := fun _ => true
  path : Option CString := none

def PATH_SIZE : Nat := 4096

/-- The loop over the copy of `PATH`, with the `snprintf` of each candidate. -/
def searchPath (look : Lookup) (cmd path : CString) : Bool :=
  Fields.any (· == ':') (fun dir => look.executable ((dir ++ "/".toList ++ cmd).take (PATH_SIZE - 1)))
    (path.take (PATH_SIZE - 1))

def commandExists (look : Lookup) : Option CString → Bool
  | none => false
  | some cmd =>
    if cmd = [] then false
    else if '/' ∈ cmd then look.executable cmd
    else look.path.elim false (searchPath look cmd)

def EMFILE : CString := "Too many open files".toList

def NO_COMMAND : CString := "No command specified.".toList

def complaint (msg : CString) : CString := "Error: ".toList ++ msg ++ "\n".toList

section Validate

variable {δ : Type} (look : Lookup)

def checkInput (cmd : Command CString) (t : Table (Description δ)) : Except CString (Table (Description δ)) :=
  match cmd.inputFile with
  | none => .ok t
  | some path =>
    match t.allocate (.file .input path) with
    | none => .error (perror path EMFILE)
    | some (fd, t') =>
      match look.readable path with
      | some error => .error (perror path error)
      | none => .ok (t'.close fd)

def validateCommand (cmd : Command CString) (t : Table (Description δ)) : Except CString (Table (Description δ)) :=
  if cmd.hasError then .error (complaint cmd.errorMsg)
  else if cmd.command = none then .error (complaint NO_COMMAND)
  else checkInput look cmd t

def validateCommands (count : Nat) : List (Command CString) → Table (Description δ) → Except CString (Table (Description δ))
  | [], t => .ok t
  | c :: cmds, t => do
    let t ← validateCommand look c t
    if !isBuiltin c.command && !commandExists look c.command then
      .error (if count = 1 then "Command not found.\n".toList else "Command not found in pipe sequence.\n".toList)
    else validateCommands count cmds t

def validatePipeline (p : Pipeline CString) (t : Table (Description δ)) : Except CString (Table (Description δ)) :=
  if p.hasError then .error (complaint p.errorMsg)
  else if p.count = 0 then .error (complaint NO_COMMAND)
  else validateCommands look p.count p.cmds t

end Validate

/-- A command that is run: it was parsed, it has a name, and its input file was there. -/
structure Ready (look : Lookup) (free : Nat) (cmd : Command CString) : Prop where
  parsed : cmd.hasError = false
  named : cmd.command ≠ none
  input : ∀ path, cmd.inputFile = some path → 0 < free ∧ look.readable path = none

variable {δ : Type} {look : Lookup} {cmd : Command CString} {cmds : List (Command CString)} {p : Pipeline CString}
  {t t' : Table (Description δ)}

/-- A command without a slash is looked for in the fields of `PATH`, as far as they lie in the first 4095
characters, and not in the empty ones. -/
theorem searchPath_iff {name path : CString} : searchPath look name path = true ↔
    ∃ dir ∈ (path.take (PATH_SIZE - 1)).splitOn ':', dir ≠ [] ∧
      look.executable ((dir ++ "/".toList ++ name).take (PATH_SIZE - 1)) = true := by
  rw [searchPath, Fields.any_fields, Fields.fields, List.any_eq_true, List.splitOn_eq_splitOnP]
  constructor
  · rintro ⟨dir, member, found⟩
    obtain ⟨inside, nonempty⟩ := List.mem_filter.mp member
    exact ⟨dir, inside, by simpa using nonempty, found⟩
  · rintro ⟨dir, inside, nonempty, found⟩
    exact ⟨dir, List.mem_filter.mpr ⟨inside, by simpa using nonempty⟩, found⟩

theorem checkInput_ok : checkInput look cmd t = .ok t' ↔
    t' = t ∧ ∀ path, cmd.inputFile = some path → 0 < t.free ∧ look.readable path = none := by
  unfold checkInput
  cases named : cmd.inputFile with
  | none => exact ⟨fun same => ⟨(Except.ok.inj same).symm, by simp⟩, fun same => congrArg _ same.1.symm⟩
  | some path =>
    dsimp only
    cases opened : t.allocate (.file .input path) with
    | none =>
      have full := Table.allocate_eq_none.mp opened
      refine iff_of_false (by simp) fun both => ?_
      have room := (both.2 path rfl).1
      omega
    | some pair =>
      obtain ⟨fd, opened'⟩ := pair
      have free := Table.allocate_free opened
      obtain ⟨unused, rfl⟩ := Table.allocate_some opened
      have closed : (t.set fd (some (.file .input path))).close fd = t := by
        refine Table.ext rfl (funext fun n => ?_)
        simp only [Table.close, Table.set_file]
        split
        · rename_i same
          rw [same, unused]
        · rfl
      dsimp only
      cases found : look.readable path with
      | some error =>
        refine iff_of_false (by simp) fun both => ?_
        have readable := (both.2 path rfl).2
        rw [found] at readable
        cases readable
      | none =>
        rw [closed]
        refine ⟨fun same => ⟨(Except.ok.inj same).symm, fun _ named => ?_⟩, fun same => congrArg _ same.1.symm⟩
        obtain rfl := Option.some.inj named
        exact ⟨by omega, found⟩

theorem validateCommand_ok : validateCommand look cmd t = .ok t' ↔ t' = t ∧ Ready look t.free cmd := by
  unfold validateCommand
  by_cases wrong : cmd.hasError = true
  · rw [if_pos wrong]
    exact ⟨nofun, fun ⟨_, ready⟩ => absurd wrong (by simp [ready.parsed])⟩
  rw [if_neg wrong]
  by_cases unnamed : cmd.command = none
  · rw [if_pos unnamed]
    exact ⟨nofun, fun ⟨_, ready⟩ => absurd unnamed ready.named⟩
  rw [if_neg unnamed, checkInput_ok]
  exact and_congr_right fun _ => ⟨fun input => ⟨Bool.of_not_eq_true wrong, unnamed, input⟩, Ready.input⟩

theorem validateCommands_ok (count : Nat) : validateCommands look count cmds t = .ok t' ↔ t' = t ∧ ∀ c ∈ cmds,
    Ready look t.free c ∧ (isBuiltin c.command = true ∨ commandExists look c.command = true) := by
  induction cmds generalizing t with
  | nil => exact ⟨fun same => ⟨(Except.ok.inj same).symm, nofun⟩, fun same => congrArg _ same.1.symm⟩
  | cons c cmds ih =>
    rw [validateCommands, List.forall_mem_cons]
    constructor
    · intro done
      obtain ⟨t₁, first, rest⟩ := bind_ok done
      obtain ⟨rfl, ready⟩ := validateCommand_ok.mp first
      split at rest
      · exact nomatch rest
      · rename_i known
        obtain ⟨same, later⟩ := ih.mp rest
        exact ⟨same, ⟨ready, by simpa [or_iff_not_imp_left] using known⟩, later⟩
    · rintro ⟨rfl, ⟨ready, known⟩, later⟩
      have first : validateCommand look c t' = .ok t' := validateCommand_ok.mpr ⟨rfl, ready⟩
      rw [first]
      have found : (!isBuiltin c.command && !commandExists look c.command) = false := by
        rcases known with known | known <;> simp [known]
      show (if _ then _ else _) = _
      rw [found, if_neg Bool.false_ne_true]
      exact ih.mpr ⟨rfl, later⟩

/-- Validation leaves the table alone, and accepts the pipelines of which every command can be run. -/
theorem validatePipeline_ok : validatePipeline look p t = .ok t' ↔ t' = t ∧ p.hasError = false ∧ 0 < p.count ∧
    ∀ c ∈ p.cmds, Ready look t.free c ∧ (isBuiltin c.command = true ∨ commandExists look c.command = true) := by
  unfold validatePipeline
  by_cases wrong : p.hasError = true
  · rw [if_pos wrong]
    exact ⟨nofun, fun ⟨_, right, _⟩ => absurd wrong (by simp [right])⟩
  rw [if_neg wrong]
  by_cases empty : p.count = 0
  · rw [if_pos empty]
    exact ⟨nofun, fun ⟨_, _, more, _⟩ => absurd empty (Nat.ne_of_gt more)⟩
  rw [if_neg empty, validateCommands_ok]
  simp [wrong, Nat.pos_of_ne_zero empty]

end MyShell.Shell
