import MyShell.Lib.Descriptors
import MyShell.Parser.Command

/-! # Builtins with redirections

The branch of `main` in `myshell.c` for a builtin. It runs in the shell's own process, so that the
standard streams are saved, replaced and restored there. `execute_builtin` opens and closes no
descriptor itself. -/

namespace MyShell.Shell

open Descriptors MyShell.Parser

variable {δ : Type}

def isBuiltin : Option CString → Bool
  | none => false
  | some command => command = "cd".toList || command = "pwd".toList || command = "echo".toList

def stream : Redirection → Nat
  | .input => 0
  | .error => 2
  | .output => 1

/-- The variables of the branch, -1 as `none`, and the paths that `perror` is called with. -/
structure Redirecting (δ : Type) where
  table : Table δ
  saved : Redirection → Option Nat := fun _ => none
  redirectSuccess : Bool := true
  errors : List CString := []

section Branch

-- what `open` finds under a path, unless it fails there
variable (opens : Redirection → CString → Option δ) (cmd : Command CString)

def redirect (r : Redirection) (s : Redirecting δ) : Redirecting δ :=
  match cmd.file r with
  | none => s
  | some path =>
    let dup := s.table.dup (stream r)
    let table := (dup.map Prod.snd).getD s.table
    let s := { s with saved := Function.update s.saved r (dup.map Prod.fst) }
    match (opens r path).bind table.allocate with
    | none => { s with table, redirectSuccess := false, errors := s.errors ++ [path] }
    | some (fd, opened) => { s with table := ((opened.dup2 fd (stream r)).getD opened).close fd }

def redirectInput (s : Redirecting δ) : Redirecting δ := redirect opens cmd .input s

def redirectOutput (s : Redirecting δ) : Redirecting δ :=
  if s.redirectSuccess then redirect opens cmd .output s else s

def redirectError (s : Redirecting δ) : Redirecting δ :=
  if s.redirectSuccess then redirect opens cmd .error s else s

def restore (r : Redirection) (saved : Option Nat) (table : Table δ) : Table δ :=
  match saved with
  | none => table
  | some fd => ((table.dup2 fd (stream r)).getD table).close fd

/-- How the branch ends. `ran` is the table with which `execute_builtin` was called. -/
structure BuiltinRun (δ : Type) where
  table : Table δ
  ran : Option (Table δ)
  errors : List CString

def runBuiltin (table : Table δ) : BuiltinRun δ :=
  let s := redirectError opens cmd (redirectOutput opens cmd (redirectInput opens cmd { table }))
  { table := restore .error (s.saved .error) (restore .output (s.saved .output) (restore .input (s.saved .input) s.table))
    ran := if s.redirectSuccess then some s.table else none
    errors := s.errors }

end Branch

theorem stream_injective : Function.Injective stream := by
  intro r r' same
  revert same
  cases r <;> cases r' <;> decide

variable {opens : Redirection → CString → Option δ} {cmd : Command CString} {t t' t'' : Table δ}
  {saved : Redirection → Option Nat} {s : Redirecting δ} {r r' : Redirection} {fd : Nat} {d : δ}

structure Saves (t t' : Table δ) (saved : Redirection → Option Nat) : Prop where
  limit : t'.limit = t.limit
  source : ∀ r, (t.file (stream r)).isSome = true
  stream : ∀ r, (t'.file (stream r)).isSome = true
  free : ∀ r fd, saved r = some fd → t.file fd = none
  copy : ∀ r fd, saved r = some fd → t'.file fd = t.file (Shell.stream r)
  distinct : ∀ r r' fd, saved r = some fd → saved r' = some fd → r = r'
  kept : ∀ r, saved r = none → t'.file (Shell.stream r) = t.file (Shell.stream r)
  other : ∀ n, (∀ r, n ≠ Shell.stream r) → (∀ r, saved r ≠ some n) → t'.file n = t.file n

namespace Saves

theorem start (opened : ∀ r, (t.file (Shell.stream r)).isSome = true) : Saves t t fun _ => none where
  limit := rfl
  source := opened
  stream := opened
  free _ _ none := nomatch none
  copy _ _ none := nomatch none
  distinct _ _ _ none := nomatch none
  kept _ _ := rfl
  other _ _ _ := rfl

theorem same (saves : Saves t t' fun _ => none) : t' = t := by
  refine Table.ext saves.limit (funext fun n => ?_)
  by_cases standard : ∃ r, n = Shell.stream r
  · obtain ⟨r, rfl⟩ := standard
    exact saves.kept r rfl
  · exact saves.other n (fun r same => standard ⟨r, same⟩) fun r => nofun

theorem ne_stream (saves : Saves t t' saved) (held : saved r = some fd) (r' : Redirection) :
    Shell.stream r' ≠ fd := Table.ne_of_free (saves.free r fd held) (saves.source r')

theorem ne_saved (saves : Saves t t' saved) (free : t'.file fd = none) (r : Redirection) : saved r ≠ some fd := by
  intro held
  have copied := saves.copy r fd held
  rw [free] at copied
  simpa [← copied] using saves.source r

theorem free_start (saves : Saves t t' saved) (free : t'.file fd = none) : t.file fd = none := by
  have standard : ∀ r, fd ≠ Shell.stream r := fun r same => by
    have taken := saves.stream r
    rw [← same, free] at taken
    exact nomatch taken
  rw [← saves.other fd standard (saves.ne_saved free), free]

theorem save (saves : Saves t t' saved) (fresh : saved r = none)
    (copied : t'.dup (Shell.stream r) = some (fd, t'')) : Saves t t'' (Function.update saved r (some fd)) := by
  obtain ⟨d, held, taken⟩ := Option.bind_eq_some_iff.mp copied
  obtain ⟨free, rfl⟩ := Table.allocate_some taken
  have standard : ∀ r', Shell.stream r' ≠ fd := fun r' => Table.ne_of_free free (saves.stream r')
  have unsaved := saves.ne_saved free
  have cases : ∀ {r' n}, Function.update saved r (some fd) r' = some n → r' = r ∧ n = fd ∨ r' ≠ r ∧ saved r' = some n := by
    intro r' n set
    by_cases this : r' = r
    · subst this
      rw [Function.update_self] at set
      exact .inl ⟨rfl, (Option.some.inj set).symm⟩
    · rw [Function.update_of_ne this] at set
      exact .inr ⟨this, set⟩
  refine ⟨saves.limit, saves.source, fun r' => ?_, fun r' n set => ?_, fun r' n set => ?_, fun r₁ r₂ n set set' => ?_,
    fun r' unset => ?_, fun n none unset => ?_⟩
  · rw [Table.set_other _ (standard r')]
    exact saves.stream r'
  · rcases cases set with ⟨rfl, rfl⟩ | ⟨_, set⟩
    · exact saves.free_start free
    · exact saves.free r' n set
  · rcases cases set with ⟨rfl, rfl⟩ | ⟨_, set⟩
    · rw [Table.set_self, ← saves.kept r' fresh, held]
    · have ne : n ≠ fd := fun same => unsaved r' (same ▸ set)
      rw [Table.set_other _ ne]
      exact saves.copy r' n set
  · rcases cases set with ⟨here, rfl⟩ | ⟨_, held⟩ <;> rcases cases set' with ⟨there, same⟩ | ⟨_, held'⟩
    · rw [here, there]
    · exact absurd held' (unsaved r₂)
    · exact absurd (same ▸ held) (unsaved r₁)
    · exact saves.distinct r₁ r₂ n held held'
  · rw [Table.set_other _ (standard r')]
    by_cases this : r' = r
    · exact saves.kept r' (this ▸ fresh)
    · rw [Function.update_of_ne this] at unset
      exact saves.kept r' unset
  · have ne : n ≠ fd := fun same => unset r (by rw [same, Function.update_self])
    rw [Table.set_other _ ne]
    refine saves.other n none fun r' held => ?_
    by_cases this : r' = r
    · rw [this, fresh] at held
      exact nomatch held
    · exact unset r' (by rw [Function.update_of_ne this, held])

theorem replace (saves : Saves t t' saved) (held : saved r = some fd) (d : δ) :
    Saves t (t'.set (Shell.stream r) (some d)) saved := by
  refine ⟨saves.limit, saves.source, fun r' => ?_, saves.free, fun r' n set => ?_, saves.distinct,
    fun r' unset => ?_, fun n none unset => ?_⟩
  · rw [Table.set_file]
    split
    · rfl
    · exact saves.stream r'
  · rw [Table.set_other _ (saves.ne_stream set r).symm]
    exact saves.copy r' n set
  · have ne : Shell.stream r' ≠ Shell.stream r := fun same => by
      rw [stream_injective same, held] at unset
      exact nomatch unset
    rw [Table.set_other _ ne]
    exact saves.kept r' unset
  · rw [Table.set_other _ (none r)]
    exact saves.other n none unset

theorem restored (saves : Saves t t' saved) (r : Redirection) :
    Saves t (restore r (saved r) t') (Function.update saved r none) := by
  cases held : saved r with
  | none =>
    rw [← held, Function.update_eq_self]
    simpa [restore, held] using saves
  | some fd =>
    have copied := saves.copy r fd held
    obtain ⟨d, at_start⟩ := Option.isSome_iff_exists.mp (saves.source r)
    have table : restore r (some fd) t' = (t'.set (Shell.stream r) (some d)).close fd := by
      simp [restore, Table.dup2, copied, at_start]
    have entry : ∀ n, (restore r (some fd) t').file n
        = if n = fd then none else if n = Shell.stream r then some d else t'.file n := fun n => by
      rw [table, Table.close, Table.set_file, Table.set_file]
    have cases : ∀ {r' n}, Function.update saved r none r' = some n → r' ≠ r ∧ saved r' = some n := by
      intro r' n set
      by_cases this : r' = r
      · rw [this, Function.update_self] at set
        cases set
      · rw [Function.update_of_ne this] at set
        exact ⟨this, set⟩
    refine ⟨by rw [table]; exact saves.limit, saves.source, fun r' => ?_, fun r' n set => ?_, fun r' n set => ?_,
      fun r₁ r₂ n set set' => ?_, fun r' unset => ?_, fun n none unset => ?_⟩
    · rw [entry, if_neg (saves.ne_stream held r')]
      split
      · rfl
      · exact saves.stream r'
    · exact saves.free r' n (cases set).2
    · obtain ⟨other, set⟩ := cases set
      have ne : n ≠ fd := fun same => other (saves.distinct r' r n set (same ▸ held))
      rw [entry, if_neg ne, if_neg (saves.ne_stream set r).symm]
      exact saves.copy r' n set
    · exact saves.distinct r₁ r₂ n (cases set).2 (cases set').2
    · rw [entry, if_neg (saves.ne_stream held r')]
      by_cases this : r' = r
      · rw [this, if_pos rfl, at_start]
      · rw [if_neg (stream_injective.ne this)]
        rw [Function.update_of_ne this] at unset
        exact saves.kept r' unset
    · rw [entry]
      by_cases copy : n = fd
      · rw [copy, if_pos rfl, saves.free r fd held]
      · rw [if_neg copy, if_neg (none r)]
        refine saves.other n none fun r' set => ?_
        by_cases this : r' = r
        · rw [this, held] at set
          exact copy (Option.some.inj set).symm
        · exact unset r' (by rw [Function.update_of_ne this, set])

end Saves

theorem redirect_saves (saves : Saves t s.table s.saved) (fresh : s.saved r = none) :
    Saves t (redirect opens cmd r s).table (redirect opens cmd r s).saved := by
  unfold redirect
  cases cmd.file r with
  | none => exact saves
  | some path =>
    obtain ⟨d, held⟩ := Option.isSome_iff_exists.mp (saves.stream r)
    cases copied : s.table.dup (stream r) with
    | none =>
      have full : (opens r path).bind s.table.allocate = none := by
        rw [Table.dup, held, Option.bind_some] at copied
        exact Option.bind_eq_none_iff.mpr fun d' _ => Table.allocate_none copied d'
      have unsaved : Function.update s.saved r none = s.saved := by
        rw [← fresh, Function.update_eq_self]
      simpa [full, unsaved] using saves
    | some copy =>
      obtain ⟨fd, table⟩ := copy
      have saves := saves.save fresh copied
      dsimp only [Option.map_some, Option.getD_some]
      cases opened : (opens r path).bind table.allocate with
      | none => exact saves
      | some file =>
        obtain ⟨fd', table'⟩ := file
        obtain ⟨d', _, opened⟩ := Option.bind_eq_some_iff.mp opened
        obtain ⟨replaced, there, same⟩ := Table.redirect opened (saves.stream r)
        have saves := saves.replace (Function.update_self ..) d'
        dsimp only
        rwa [there, Option.getD_some, same]

theorem redirect_saved_other (other : r' ≠ r) : (redirect opens cmd r s).saved r' = s.saved r' := by
  unfold redirect
  cases cmd.file r with
  | none => rfl
  | some path =>
    dsimp only
    split <;> exact Function.update_of_ne other ..

def streamOf (opens : Redirection → CString → Option δ) (cmd : Command CString) (t : Table δ) (r : Redirection) : Option δ :=
  match cmd.file r with
  | none => t.file (stream r)
  | some path => opens r path

theorem redirect_stream (held : ∀ r, (s.table.file (stream r)).isSome = true)
    (done : (redirect opens cmd r s).redirectSuccess = true) (r' : Redirection) :
    (redirect opens cmd r s).table.file (stream r')
      = if r' = r then streamOf opens cmd s.table r else s.table.file (stream r') := by
  unfold redirect at done ⊢
  cases named : cmd.file r with
  | none =>
    rw [streamOf, named]
    by_cases this : r' = r
    · rw [if_pos this, this]
    · rw [if_neg this]
  | some path =>
    rw [named] at done
    rw [streamOf, named]
    dsimp only at done ⊢
    have copied : ∀ r', (((s.table.dup (stream r)).map Prod.snd).getD s.table).file (stream r') = s.table.file (stream r') :=
      fun r' => Table.dup_kept (held r')
    generalize ((s.table.dup (stream r)).map Prod.snd).getD s.table = table at done copied ⊢
    cases opened : (opens r path).bind table.allocate with
    | none =>
      rw [opened] at done
      exact nomatch done
    | some file =>
      obtain ⟨fd, table'⟩ := file
      obtain ⟨d, found, opened⟩ := Option.bind_eq_some_iff.mp opened
      obtain ⟨replaced, there, same⟩ := Table.redirect opened (by rw [copied]; exact held r)
      dsimp only
      rw [there, Option.getD_some, same, Table.set_file, found, copied]
      by_cases this : r' = r
      · rw [if_pos this, if_pos (congrArg stream this)]
      · rw [if_neg this, if_neg (stream_injective.ne this)]

theorem redirect_done (done : (redirect opens cmd r s).redirectSuccess = true) : s.redirectSuccess = true := by
  unfold redirect at done
  cases named : cmd.file r with
  | none => rwa [named] at done
  | some path =>
    rw [named] at done
    dsimp only at done
    split at done
    · exact nomatch done
    · exact done

/-- The streams in `done` have been dealt with: the others are as at the start, and so are all when it failed. -/
structure Steps (opens : Redirection → CString → Option δ) (cmd : Command CString) (t : Table δ)
    (done : List Redirection) (s : Redirecting δ) : Prop where
  saves : Saves t s.table s.saved
  fresh : ∀ r, r ∉ done → s.saved r = none
  streams : s.redirectSuccess = true →
    ∀ r, s.table.file (stream r) = if r ∈ done then streamOf opens cmd t r else t.file (stream r)

namespace Steps

variable {done : List Redirection}

theorem step (steps : Steps opens cmd t done s) (next : r ∉ done) :
    Steps opens cmd t (r :: done) (redirect opens cmd r s) := by
  refine ⟨redirect_saves steps.saves (steps.fresh r next), fun r' undone => ?_, fun success r' => ?_⟩
  · obtain ⟨other, undone⟩ := not_or.mp (mt List.mem_cons.mpr undone)
    rw [redirect_saved_other other, steps.fresh r' undone]
  · have streams := steps.streams (redirect_done success)
    rw [redirect_stream steps.saves.stream success]
    by_cases this : r' = r
    · subst this
      rw [if_pos rfl, if_pos List.mem_cons_self, streamOf, streamOf, streams, if_neg next]
    · rw [if_neg this, streams]
      simp [this]

theorem skip (steps : Steps opens cmd t done s) (failed : ¬s.redirectSuccess = true) : Steps opens cmd t (r :: done) s :=
  ⟨steps.saves, fun r' undone => steps.fresh r' (fun done => undone (List.mem_cons_of_mem _ done)), fun success => absurd success failed⟩

theorem run (opens : Redirection → CString → Option δ) (cmd : Command CString)
    (opened : ∀ fd < 3, (t.file fd).isSome = true) :
    Steps opens cmd t [.error, .output, .input]
      (redirectError opens cmd (redirectOutput opens cmd (redirectInput opens cmd { table := t }))) := by
  have start : Steps opens cmd t [] { table := t } :=
    ⟨Saves.start fun r => opened _ (by cases r <;> decide), fun _ _ => rfl, fun _ _ => rfl⟩
  have input : Steps opens cmd t [.input] (redirectInput opens cmd { table := t }) := start.step List.not_mem_nil
  generalize redirectInput opens cmd { table := t } = s at input ⊢
  have output : Steps opens cmd t [.output, .input] (redirectOutput opens cmd s) := by
    unfold redirectOutput
    split
    · exact input.step (by decide)
    · exact input.skip ‹_›
  generalize redirectOutput opens cmd s = s at output ⊢
  unfold redirectError
  split
  · exact output.step (by decide)
  · exact output.skip ‹_›

end Steps

theorem builtin_keeps_descriptors (opened : ∀ fd < 3, (t.file fd).isSome = true) :
    (runBuiltin opens cmd t).table = t := by
  have saves := (Steps.run opens cmd opened).saves
  dsimp only [runBuiltin]
  generalize redirectError opens cmd (redirectOutput opens cmd (redirectInput opens cmd { table := t })) = s at saves ⊢
  have input := saves.restored .input
  have output := input.restored .output
  have error := output.restored .error
  have none : Function.update (Function.update (Function.update s.saved .input none) .output none) .error none
      = fun _ => none := by
    funext r
    cases r <;> rfl
  rw [none] at error
  exact error.same

/-- With one number left for `pwd > out`, which is saved there, the file cannot be opened. -/
theorem builtin_keeps_descriptors_full :
    (runBuiltin (fun _ path => some path) { command := some "pwd".toList, outputFile := some "out".toList }
      ⟨4, fun fd => if fd < 3 then some "tty".toList else none⟩).table
    = ⟨4, fun fd => if fd < 3 then some "tty".toList else none⟩ :=
  builtin_keeps_descriptors (by decide)

/-- A builtin that is run finds its files on its streams, and the shell's streams otherwise. -/
theorem builtin_streams (opened : ∀ fd < 3, (t.file fd).isSome = true)
    (ran : (runBuiltin opens cmd t).ran = some t') (r : Redirection) : t'.file (stream r) = streamOf opens cmd t r := by
  obtain ⟨success, same⟩ := Option.ite_none_right_eq_some.mp ran
  cases same
  have streams := (Steps.run opens cmd opened).streams success r
  rwa [if_pos (by cases r <;> decide)] at streams

end MyShell.Shell
