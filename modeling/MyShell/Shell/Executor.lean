import MyShell.Shell.Builtin
import MyShell.Parser.Pipeline

/-! # Running a pipeline

`execute_pipeline` of `executor.c`: the descriptors of the shell and of the children it forks, when
any of the `pipe`, `fork` and `open` calls may fail. -/

namespace MyShell.Shell

open Descriptors MyShell.Parser

/-- What a descriptor refers to: what the shell was started with, the ends of the pipes by their index in
`pipes`, and the files that redirections open. -/
inductive Description (δ : Type) where
  | shell (d : δ)
  | readEnd (k : Nat)
  | writeEnd (k : Nat)
  | file (r : Redirection) (path : CString)
deriving DecidableEq

variable {δ : Type}

/-- How the calls go that the kernel may refuse for reasons of its own. `fork` is the pid or -1. -/
structure System where
  pipe : Nat → Bool := fun _ => true
  fork : Nat → Option Nat := some
  opens : Nat → Redirection → CString → Bool := fun _ _ _ => true

/-- The array `pipes` with the entries that were made, and whether `pipe` returned -1. -/
structure Pipes (δ : Type) where
  pipes : List (Nat × Nat)
  table : Table (Description δ)
  failed : Bool

structure Child (δ : Type) where
  pid : Nat
  command : Command CString
  builtin : Bool
  setup : Except CString (Table (Description δ))

/-- `waiting` is the shell's table when it starts to wait. -/
structure Execution (δ : Type) where
  table : Table (Description δ)
  waiting : Option (Table (Description δ))
  children : List (Child δ)
  waited : List Nat
  errors : List CString

section Execute

variable (sys : System)

def createPipes (i : Nat) : Nat → Table (Description δ) → Pipes δ
  | 0, t => ⟨[], t, false⟩
  | left + 1, t =>
    match if sys.pipe i then t.pipe (.readEnd i) (.writeEnd i) else none with
    | none => ⟨[], t, true⟩
    | some (rd, wr, t') =>
      let rest := createPipes (i + 1) left t'
      { rest with pipes := (rd, wr) :: rest.pipes }

def ends (pipes : List (Nat × Nat)) : List Nat := pipes.flatMap fun (rd, wr) => [rd, wr]

def dup2OrFail (t : Table (Description δ)) (fd target : Nat) (msg : CString) : Except CString (Table (Description δ)) :=
  (t.dup2 fd target).elim (.error msg) .ok

def childRedirect (i : Nat) (cmd : Command CString) (r : Redirection) (msg : CString) (t : Table (Description δ)) :
    Except CString (Table (Description δ)) :=
  match cmd.file r with
  | none => .ok t
  | some path =>
    match if sys.opens i r path then t.allocate (.file r path) else none with
    | none => .error path
    | some (fd, t') => do
      let t'' ← dup2OrFail t' fd (stream r) msg
      .ok (t''.close fd)

def connectStdin (pipes : List (Nat × Nat)) (i : Nat) (t : Table (Description δ)) : Except CString (Table (Description δ)) :=
  if 0 < i then dup2OrFail t (pipes.getD (i - 1) (0, 0)).1 0 "dup2 pipe stdin".toList else .ok t

def connectStdout (n : Nat) (pipes : List (Nat × Nat)) (i : Nat) (t : Table (Description δ)) :
    Except CString (Table (Description δ)) :=
  if i < n - 1 then dup2OrFail t (pipes.getD i (0, 0)).2 1 "dup2 pipe stdout".toList else .ok t

def childSetup (n : Nat) (pipes : List (Nat × Nat)) (i : Nat) (cmd : Command CString) (t : Table (Description δ)) :
    Except CString (Table (Description δ)) := do
  let t ← connectStdin pipes i t
  let t ← connectStdout n pipes i t
  let t ← childRedirect sys i cmd .input "dup2 input".toList (t.closeAll (ends pipes))
  let t ← childRedirect sys i cmd .output "dup2 output".toList t
  childRedirect sys i cmd .error "dup2 error".toList t

/-- The children forked from the `i`th on, and whether no `fork` returned -1. -/
def forkChildren (n : Nat) (pipes : List (Nat × Nat)) (t : Table (Description δ)) :
    Nat → List (Command CString) → List (Child δ) × Bool
  | _, [] => ([], true)
  | i, cmd :: cmds =>
    match sys.fork i with
    | none => ([], false)
    | some pid =>
      let rest := forkChildren n pipes t (i + 1) cmds
      (⟨pid, cmd, isBuiltin cmd.command, childSetup sys n pipes i cmd t⟩ :: rest.1, rest.2)

def executePipeline (p : Pipeline CString) (t : Table (Description δ)) : Execution δ :=
  let n := p.count
  let made := createPipes sys 0 (n - 1) t
  if made.failed then { table := made.table, waiting := none, children := [], waited := [], errors := ["pipe".toList] }
  else
    let forked := forkChildren sys n made.pipes made.table 0 p.cmds
    let closed := made.table.closeAll (ends made.pipes)
    if forked.2 then
      { table := closed, waiting := some closed, children := forked.1, waited := forked.1.map Child.pid, errors := [] }
    else { table := closed, waiting := none, children := forked.1, waited := [], errors := ["fork failed".toList] }

end Execute

variable {sys : System} {t t' : Table (Description δ)} {i left : Nat} {cmd : Command CString} {cmds : List (Command CString)}

structure Made (i : Nat) (t : Table (Description δ)) (made : Pipes δ) : Prop where
  limit : made.table.limit = t.limit
  free : ∀ fd ∈ ends made.pipes, t.file fd = none
  other : ∀ fd, fd ∉ ends made.pipes → made.table.file fd = t.file fd
  entries : ∀ k pair, made.pipes[k]? = some pair →
    made.table.file pair.1 = some (.readEnd (i + k)) ∧ made.table.file pair.2 = some (.writeEnd (i + k))

theorem mem_ends {pipes : List (Nat × Nat)} {fd : Nat} :
    fd ∈ ends pipes ↔ ∃ (k : Nat) (pair : Nat × Nat), pipes[k]? = some pair ∧ (fd = pair.1 ∨ fd = pair.2) := by
  simp only [ends, List.mem_flatMap, List.mem_cons, List.not_mem_nil, or_false]
  constructor
  · rintro ⟨pair, member, either⟩
    obtain ⟨k, found⟩ := List.mem_iff_getElem?.mp member
    exact ⟨k, pair, found, either⟩
  · rintro ⟨k, pair, found, either⟩
    exact ⟨pair, List.mem_of_getElem? found, either⟩

theorem Made.cons {made : Pipes δ} {rd wr : Nat} (opened : t.pipe (.readEnd i) (.writeEnd i) = some (rd, wr, t'))
    (rest : Made (i + 1) t' made) : Made i t { made with pipes := (rd, wr) :: made.pipes } := by
  obtain ⟨freeR, freeW, distinct, rfl⟩ := Table.pipe_some opened
  have here (fd : Nat) : ((t.set rd (some (.readEnd i))).set wr (some (.writeEnd i))).file fd
      = if fd = wr then some (.writeEnd i) else if fd = rd then some (.readEnd i) else t.file fd := by
    rw [Table.set_file, Table.set_file]
  have split {fd : Nat} : fd ∈ ends ((rd, wr) :: made.pipes) ↔ fd = rd ∨ fd = wr ∨ fd ∈ ends made.pipes := by
    simp [ends]
  have apart {fd : Nat} (member : fd ∈ ends made.pipes) : fd ≠ wr ∧ fd ≠ rd ∧ t.file fd = none := by
    have free := rest.free fd member
    rw [here] at free
    split_ifs at free
    exact ⟨‹_›, ‹_›, free⟩
  refine ⟨rest.limit, fun fd member => ?_, fun fd none => ?_, fun k pair found => ?_⟩
  · rcases split.mp member with rfl | rfl | later
    · exact freeR
    · exact freeW
    · exact (apart later).2.2
  · have ⟨notR, notW, later⟩ : fd ≠ rd ∧ fd ≠ wr ∧ fd ∉ ends made.pipes := by simpa [split] using none
    rw [rest.other fd later, here, if_neg notW, if_neg notR]
  · cases k with
    | zero =>
      cases found
      have read : rd ∉ ends made.pipes := fun member => (apart member).2.1 rfl
      have write : wr ∉ ends made.pipes := fun member => (apart member).1 rfl
      dsimp only
      rw [rest.other rd read, rest.other wr write, here, here, if_neg distinct, if_pos rfl, if_pos rfl]
      exact ⟨rfl, rfl⟩
    | succ k =>
      have later := rest.entries k pair found
      rwa [Nat.add_assoc, Nat.add_comm 1] at later

theorem createPipes_made (sys : System) (i left : Nat) (t : Table (Description δ)) : Made i t (createPipes sys i left t) := by
  induction left generalizing i t with
  | zero => exact ⟨rfl, nofun, fun _ _ => rfl, nofun⟩
  | succ left ih =>
    rw [createPipes]
    split
    · exact ⟨rfl, nofun, fun _ _ => rfl, nofun⟩
    · rename_i called
      exact (ih (i + 1) _).cons (Option.ite_none_right_eq_some.mp called).2

theorem Made.closed {made : Pipes δ} (all : Made i t made) : made.table.closeAll (ends made.pipes) = t := by
  refine Table.ext (by rw [Table.closeAll_limit, all.limit]) (funext fun fd => ?_)
  rw [Table.closeAll_file]
  split
  · exact (all.free fd ‹_›).symm
  · exact all.other fd ‹_›

/-- When none of the calls before it fails, the `k`th call of `pipe` does. -/
def pipeFails (sys : System) (t : Table (Description δ)) (k : Nat) : Prop := sys.pipe k = false ∨ t.free < 2 * (k + 1)

theorem createPipes_all (made : ∀ k < left, sys.pipe (i + k) = true ∧ 2 * (k + 1) ≤ t.free) :
    (createPipes sys i left t).failed = false ∧ (createPipes sys i left t).pipes.length = left := by
  induction left generalizing i t with
  | zero => exact ⟨rfl, rfl⟩
  | succ left ih =>
    obtain ⟨may, two⟩ := made 0 (Nat.succ_pos left)
    obtain ⟨⟨rd, wr, t'⟩, opened⟩ := Option.ne_none_iff_exists'.mp (mt Table.pipe_none.mp (Nat.not_lt.mpr two)
      : t.pipe (.readEnd i) (.writeEnd i) ≠ none)
    have fewer := Table.pipe_free opened
    rw [Nat.add_zero] at may
    have rest := ih (i := i + 1) (t := t') fun k below => by
      obtain ⟨may, room⟩ := made (k + 1) (Nat.succ_lt_succ below)
      exact ⟨by rwa [Nat.add_assoc, Nat.add_comm 1], by omega⟩
    rw [createPipes, if_pos may, opened]
    exact ⟨rest.1, congrArg (· + 1) rest.2⟩

theorem createPipes_failed {k : Nat} (below : k < left) (fails : sys.pipe (i + k) = false ∨ t.free < 2 * (k + 1)) :
    (createPipes sys i left t).failed = true := by
  induction left generalizing i t k with
  | zero => exact absurd below (Nat.not_lt_zero k)
  | succ left ih =>
    rw [createPipes]
    split
    · rfl
    · rename_i rd wr t' called
      obtain ⟨may, opened⟩ := Option.ite_none_right_eq_some.mp called
      have fewer := Table.pipe_free opened
      cases k with
      | zero =>
        rcases fails with refused | full
        · rw [Nat.add_zero, may] at refused
          exact nomatch refused
        · omega
      | succ k =>
        refine ih (Nat.lt_of_succ_lt_succ below) (fails.imp (fun refused => ?_) fun full => by omega)
        rwa [Nat.add_assoc, Nat.add_comm 1]

theorem createPipes_failed_iff : (createPipes sys 0 left t).failed = true ↔ ∃ k < left, pipeFails sys t k := by
  constructor
  · intro failed
    by_contra none
    have made : ∀ k < left, sys.pipe (0 + k) = true ∧ 2 * (k + 1) ≤ t.free := fun k below => by
      obtain ⟨may, room⟩ := not_or.mp fun fails => none ⟨k, below, fails⟩
      rw [Nat.zero_add]
      exact ⟨Bool.of_not_eq_false may, Nat.not_lt.mp room⟩
    rw [(createPipes_all made).1] at failed
    exact nomatch failed
  · rintro ⟨k, below, fails⟩
    exact createPipes_failed below (by rwa [Nat.zero_add])

theorem createPipes_none (some : 0 < left) : (createPipes sys 0 left t).pipes = [] ↔ pipeFails sys t 0 := by
  cases left with
  | zero => exact absurd some (Nat.lt_irrefl 0)
  | succ left =>
    rw [createPipes]
    split
    · rename_i called
      refine iff_of_true rfl ?_
      by_cases may : sys.pipe 0 = true
      · rw [if_pos may, Table.pipe_none] at called
        exact .inr called
      · exact .inl (Bool.of_not_eq_true may)
    · rename_i called
      obtain ⟨may, opened⟩ := Option.ite_none_right_eq_some.mp called
      refine iff_of_false (List.cons_ne_nil _ _) ?_
      rintro (refused | full)
      · rw [may] at refused
        exact nomatch refused
      · rw [Table.pipe_none.mpr full] at opened
        exact nomatch opened

variable {n : Nat} {pipes : List (Nat × Nat)}

theorem forkChildren_all : (forkChildren sys n pipes t i cmds).2 = true ↔ ∀ k < cmds.length, sys.fork (i + k) ≠ none := by
  induction cmds generalizing i with
  | nil => simp [forkChildren]
  | cons cmd cmds ih =>
    rw [forkChildren, List.length_cons, Nat.forall_lt_succ_left]
    cases forked : sys.fork i with
    | none => simp
    | some pid => simp [ih, Nat.add_assoc, Nat.add_comm 1]

theorem forkChildren_none : (forkChildren sys n pipes t i cmds).1 = [] ↔ cmds = [] ∨ sys.fork i = none := by
  cases cmds with
  | nil => simp [forkChildren]
  | cons cmd cmds => cases forked : sys.fork i <;> simp [forkChildren, forked]

/-- Whatever call fails, nothing was acquired before it. -/
def FailsFirst (sys : System) (n : Nat) (t : Table (Description δ)) : Prop :=
  ((∃ k < n - 1, pipeFails sys t k) → pipeFails sys t 0) ∧
  ((∀ k < n - 1, ¬pipeFails sys t k) → (∀ i < n, sys.fork i ≠ none) ∨ sys.fork 0 = none)

theorem Made.used {made : Pipes δ} (all : Made i t made) : made.table.used = t.used ↔ made.pipes = [] := by
  constructor
  · intro same
    by_contra nonempty
    obtain ⟨pair, rest, cons⟩ := List.exists_cons_of_ne_nil nonempty
    have first : made.pipes[0]? = some pair := by rw [cons, List.getElem?_cons_zero]
    have member : pair.1 ∈ made.table.used := by
      rw [Table.mem_used, (all.entries 0 pair first).1, Option.isSome_some]
    rw [same, Table.mem_used, all.free pair.1 (mem_ends.mpr ⟨0, pair, first, .inl rfl⟩)] at member
    exact nomatch member
  · intro none
    have same : made.table = t := by
      refine Table.ext all.limit (funext fun fd => all.other fd ?_)
      rw [none]
      exact List.not_mem_nil
    rw [same]

theorem executePipeline_restores (sys : System) (p : Pipeline CString) (t : Table (Description δ)) :
    ((executePipeline sys p t).table.used = t.used ∧
      ∀ child ∈ (executePipeline sys p t).children, child.pid ∈ (executePipeline sys p t).waited) ↔
    FailsFirst sys p.count t := by
  have made := createPipes_made sys 0 (p.count - 1) t
  unfold executePipeline
  dsimp only
  by_cases failed : (createPipes sys 0 (p.count - 1) t).failed = true
  · obtain ⟨k, below, fails⟩ := createPipes_failed_iff.mp failed
    rw [if_pos failed, made.used, createPipes_none (Nat.zero_lt_of_lt below)]
    refine ⟨fun restored => ⟨fun _ => restored.1, fun never => (never k below fails).elim⟩, fun first => ⟨?_, nofun⟩⟩
    exact first.1 ⟨k, below, fails⟩
  · have never : ∀ k < p.count - 1, ¬pipeFails sys t k := fun k below fails =>
      failed (createPipes_failed_iff.mpr ⟨k, below, fails⟩)
    have pipes : (∃ k < p.count - 1, pipeFails sys t k) → pipeFails sys t 0 := fun ⟨k, below, fails⟩ =>
      (never k below fails).elim
    rw [if_neg failed, made.closed]
    -- with the pipes closed again, what is left is whether a child was forked before the call that failed
    split
    · rename_i forked
      have all := forkChildren_all.mp forked
      simp only [Nat.zero_add] at all
      exact iff_of_true ⟨rfl, fun child member => List.mem_map_of_mem member⟩ ⟨pipes, fun _ => .inl all⟩
    · rename_i forked
      have notAll : ¬∀ i < p.count, sys.fork i ≠ none := fun all =>
        forked (forkChildren_all.mpr fun i below => by rw [Nat.zero_add]; exact all i below)
      have commands : p.cmds ≠ [] := fun none => notAll fun i below => by
        rw [Pipeline.count, none] at below
        exact absurd below (Nat.not_lt_zero i)
      have unwaited {children : List (Child δ)} : (∀ child ∈ children, child.pid ∈ ([] : List Nat)) ↔ children = [] := by
        simp [List.eq_nil_iff_forall_not_mem]
      simp only [true_and, unwaited, forkChildren_none, commands, false_or]
      exact ⟨fun first => ⟨pipes, fun _ => .inr first⟩, fun first => (first.2 never).resolve_left notAll⟩

/-- The second `pipe` of `ls | sort | wc` fails. -/
theorem pipe_failure_leaks : ¬∀ (sys : System) (p : Pipeline CString) (t : Table (Description Nat)),
    (executePipeline sys p t).table.used = t.used ∧
      ∀ child ∈ (executePipeline sys p t).children, child.pid ∈ (executePipeline sys p t).waited := by
  intro restores
  have restored := (restores { pipe := fun k => k = 0 }
    { cmds := [{ command := some "ls".toList }, { command := some "sort".toList }, { command := some "wc".toList }]
      fits := by decide }
    ⟨8, fun fd => if fd < 3 then some (.shell fd) else none⟩).1
  have left : 3 ∉ (⟨8, fun fd => if fd < 3 then some (.shell fd) else none⟩ : Table (Description Nat)).used := by
    simp
  rw [← restored] at left
  exact left (Table.mem_used.mpr (by decide))

theorem forkChildren_get {k : Nat} (forked : (forkChildren sys n pipes t i cmds).2 = true) :
    (forkChildren sys n pipes t i cmds).1[k]?.map (fun child => (child.command, child.builtin, child.setup))
      = cmds[k]?.map fun cmd => (cmd, isBuiltin cmd.command, childSetup sys n pipes (i + k) cmd t) := by
  induction cmds generalizing i k with
  | nil => simp [forkChildren]
  | cons cmd cmds ih =>
    rw [forkChildren] at forked ⊢
    cases called : sys.fork i with
    | none =>
      rw [called] at forked
      exact nomatch forked
    | some pid =>
      rw [called] at forked
      cases k with
      | zero => rfl
      | succ k =>
        have rest := ih (k := k) forked
        rwa [Nat.add_assoc, Nat.add_comm 1] at rest

/-- What the pipes give the `i`th of `n` children on a stream, where `inherited` is what the shell has there. -/
def piped (n i : Nat) (inherited : Option δ) : Redirection → Option (Description δ)
  | .input => if 0 < i then some (.readEnd (i - 1)) else inherited.map .shell
  | .output => if i < n - 1 then some (.writeEnd i) else inherited.map .shell
  | .error => inherited.map .shell

theorem piped_isSome {n i : Nat} {inherited : Option δ} {r : Redirection} (held : inherited.isSome = true) :
    (piped n i inherited r).isSome = true := by
  cases r <;> simp only [piped]
  · split
    · rfl
    · rwa [Option.isSome_map]
  · rwa [Option.isSome_map]
  · split
    · rfl
    · rwa [Option.isSome_map]

/-- A redirection overrides the pipe. -/
def wired (n i : Nat) (cmd : Command CString) (inherited : Option δ) (r : Redirection) : Option (Description δ) :=
  match cmd.file r with
  | none => piped n i inherited r
  | some path => some (.file r path)

/-- The streams of a child are wired, and its other descriptors are those of the shell. -/
structure Wired (n i : Nat) (cmd : Command CString) (t : Table δ) (t' : Table (Description δ)) : Prop where
  streams : ∀ r, t'.file (stream r) = wired n i cmd (t.file (stream r)) r
  others : ∀ fd, (∀ r, fd ≠ stream r) → t'.file fd = (t.file fd).map .shell

theorem bind_ok {ε α β : Type} {m : Except ε α} {f : α → Except ε β} {b : β} (done : m >>= f = .ok b) :
    ∃ a, m = .ok a ∧ f a = .ok b := by
  cases m with
  | error e => exact nomatch done
  | ok a => exact ⟨a, rfl, done⟩

theorem ok_of_isOk {ε α : Type} {m : Except ε α} (done : m.isOk = true) : ∃ a, m = .ok a := by
  cases m with
  | error e => exact nomatch done
  | ok a => exact ⟨a, rfl⟩

theorem dup2OrFail_ok {fd target : Nat} {msg : CString} (done : dup2OrFail t fd target msg = .ok t') :
    t' = t.set target (t.file fd) := by
  unfold dup2OrFail Table.dup2 at done
  cases held : t.file fd with
  | none =>
    rw [held] at done
    exact nomatch done
  | some d =>
    rw [held] at done
    exact (Except.ok.inj done).symm

def redirected (cmd : Command CString) (r : Redirection) (d : Option (Description δ)) : Option (Description δ) :=
  match cmd.file r with
  | none => d
  | some path => some (.file r path)

theorem childRedirect_ok {r : Redirection} {msg : CString} (held : (t.file (stream r)).isSome = true)
    (done : childRedirect sys i cmd r msg t = .ok t') :
    t' = t.set (stream r) (redirected cmd r (t.file (stream r))) := by
  unfold childRedirect at done
  unfold redirected
  split at done
  · rw [← Except.ok.inj done]
    exact Table.ext rfl (Function.update_eq_self ..).symm
  · split at done
    · exact nomatch done
    · rename_i fd opened called
      obtain ⟨replaced, there, same⟩ := Table.redirect (Option.ite_none_right_eq_some.mp called).2 held
      rw [dup2OrFail, there] at done
      exact (Except.ok.inj done).symm.trans same

theorem connected {base : Table δ} {made : Pipes δ} {t₁ t₂ : Table (Description δ)} (all : Made 0 (base.map .shell) made)
    (length : made.pipes.length = n - 1) (opened : ∀ r, (base.file (stream r)).isSome = true) (inside : i < n)
    (input : connectStdin made.pipes i made.table = .ok t₁) (output : connectStdout n made.pipes i t₁ = .ok t₂) :
    (∀ r, (t₂.closeAll (ends made.pipes)).file (stream r) = piped n i (base.file (stream r)) r) ∧
    ∀ fd, (∀ r, fd ≠ stream r) → (t₂.closeAll (ends made.pipes)).file fd = (base.file fd).map .shell := by
  have apart (r : Redirection) : stream r ∉ ends made.pipes := fun member => by
    have free := all.free _ member
    rw [Table.map_file, Option.map_eq_none_iff] at free
    have open_now := opened r
    rw [free] at open_now
    exact nomatch open_now
  have entry {k : Nat} (below : k < n - 1) : made.pipes[k]? = some (made.pipes.getD k (0, 0)) := by
    rw [← length] at below
    rw [List.getD_eq_getElem?_getD, List.getElem?_eq_getElem below, Option.getD_some]
  have first : ∀ fd, t₁.file fd = if 0 < i ∧ fd = 0 then some (.readEnd (i - 1)) else made.table.file fd := by
    unfold connectStdin at input
    split at input
    · rename_i later
      have held := (all.entries (i - 1) _ (entry (by omega))).1
      intro fd
      rw [dup2OrFail_ok input, Table.set_file, held, Nat.zero_add]
      simp [later]
    · rename_i first
      intro fd
      rw [← Except.ok.inj input, if_neg fun both => first both.1]
  have second : ∀ fd, t₂.file fd = if i < n - 1 ∧ fd = 1 then some (.writeEnd i) else t₁.file fd := by
    unfold connectStdout at output
    split at output
    · rename_i before
      have held := (all.entries i _ (entry before)).2
      have other : (made.pipes.getD i (0, 0)).2 ≠ 0 := fun same =>
        apart .input (mem_ends.mpr ⟨i, _, entry before, .inr same.symm⟩)
      have moved : t₁.file (made.pipes.getD i (0, 0)).2 = some (.writeEnd i) := by
        rw [first, if_neg fun both => other both.2, held, Nat.zero_add]
      intro fd
      rw [dup2OrFail_ok output, Table.set_file, moved]
      simp [before]
    · rename_i last
      intro fd
      rw [← Except.ok.inj output, if_neg fun both => last both.1]
  have shell (r : Redirection) : made.table.file (stream r) = (base.file (stream r)).map .shell := by
    rw [all.other _ (apart r), Table.map_file]
  refine ⟨fun r => ?_, fun fd other => ?_⟩
  · rw [Table.closeAll_file, if_neg (apart r), second, first, shell]
    cases r <;> simp [stream, piped]
  · have input := other .input
    have output := other .output
    rw [Table.closeAll_file]
    split
    · rw [← Table.map_file, all.free fd ‹_›]
    · rw [second, first, if_neg fun both => output both.2, if_neg fun both => input both.2, all.other fd ‹_›, Table.map_file]

structure Redirected (cmd : Command CString) (t : Table (Description δ)) (done : List Redirection)
    (t' : Table (Description δ)) : Prop where
  streams : ∀ r, t'.file (stream r) = if r ∈ done then redirected cmd r (t.file (stream r)) else t.file (stream r)
  others : ∀ fd, (∀ r, fd ≠ stream r) → t'.file fd = t.file fd

theorem Redirected.step {made : List Redirection} {r : Redirection} {msg : CString} {t'' : Table (Description δ)}
    (held : ∀ r, (t.file (stream r)).isSome = true) (before : Redirected cmd t made t') (next : r ∉ made)
    (done : childRedirect sys i cmd r msg t' = .ok t'') : Redirected cmd t (r :: made) t'' := by
  have here : t'.file (stream r) = t.file (stream r) := by rw [before.streams, if_neg next]
  rw [childRedirect_ok (by rw [here]; exact held r) done, here]
  refine ⟨fun r' => ?_, fun fd other => ?_⟩
  · by_cases this : r' = r
    · subst this
      rw [Table.set_self, if_pos List.mem_cons_self]
    · rw [Table.set_other _ (stream_injective.ne this), before.streams]
      simp [this]
  · rw [Table.set_other _ (other r), before.others fd other]

theorem childSetup_wired {base : Table δ} {made : Pipes δ} (all : Made 0 (base.map .shell) made)
    (length : made.pipes.length = n - 1) (opened : ∀ r, (base.file (stream r)).isSome = true) (inside : i < n)
    (done : childSetup sys n made.pipes i cmd made.table = .ok t') : Wired n i cmd base t' := by
  obtain ⟨t₁, input, done⟩ := bind_ok done
  obtain ⟨t₂, output, done⟩ := bind_ok done
  obtain ⟨streams, others⟩ := connected all length opened inside input output
  generalize t₂.closeAll (ends made.pipes) = t at streams others done
  have held (r : Redirection) : (t.file (stream r)).isSome = true := by
    rw [streams]
    exact piped_isSome (opened r)
  have start : Redirected cmd t [] t := ⟨fun _ => rfl, fun _ _ => rfl⟩
  obtain ⟨t₃, first, done⟩ := bind_ok done
  obtain ⟨t₄, second, third⟩ := bind_ok done
  have first := start.step held List.not_mem_nil first
  have second := first.step held (by decide) second
  have third := second.step held (by decide) third
  refine ⟨fun r => ?_, fun fd other => ?_⟩
  · rw [third.streams, if_pos (by cases r <;> decide), streams]
    rfl
  · rw [third.others fd other, others fd other]

theorem Wired.ends {base : Table δ} (wiring : Wired n i cmd base t') (fd k : Nat) :
    (t'.file fd = some (.readEnd k) → fd = 0 ∧ i = k + 1) ∧ (t'.file fd = some (.writeEnd k) → fd = 1 ∧ i = k) := by
  have shell (d : Option δ) : d.map Description.shell ≠ some (.readEnd k) ∧ d.map Description.shell ≠ some (.writeEnd k) := by
    cases d <;> exact ⟨nofun, nofun⟩
  by_cases standard : ∃ r, fd = stream r
  · obtain ⟨r, rfl⟩ := standard
    rw [wiring.streams, wired]
    cases cmd.file r with
    | some path => exact ⟨nofun, nofun⟩
    | none =>
      obtain ⟨notRead, notWrite⟩ := shell (base.file (stream r))
      cases r with
      | input =>
        dsimp only [piped]
        split
        · refine ⟨fun same => ⟨rfl, ?_⟩, nofun⟩
          cases same
          omega
        · exact ⟨fun same => (notRead same).elim, fun same => (notWrite same).elim⟩
      | output =>
        dsimp only [piped]
        split
        · refine ⟨nofun, fun same => ⟨rfl, ?_⟩⟩
          cases same
          rfl
        · exact ⟨fun same => (notRead same).elim, fun same => (notWrite same).elim⟩
      | error => exact ⟨fun same => (notRead same).elim, fun same => (notWrite same).elim⟩
  · obtain ⟨notRead, notWrite⟩ := shell (base.file fd)
    rw [wiring.others fd fun r same => standard ⟨r, same⟩]
    exact ⟨fun same => (notRead same).elim, fun same => (notWrite same).elim⟩

theorem executePipeline_forked {p : Pipeline CString} (calls : (executePipeline sys p t).errors = []) :
    let made := createPipes sys 0 (p.count - 1) t
    let forked := forkChildren sys p.count made.pipes made.table 0 p.cmds
    made.pipes.length = p.count - 1 ∧ forked.2 = true ∧
      (executePipeline sys p t).waiting = some t ∧ (executePipeline sys p t).children = forked.1 := by
  have closed := (createPipes_made sys 0 (p.count - 1) t).closed
  unfold executePipeline at calls ⊢
  dsimp only at calls ⊢
  split at calls
  · exact nomatch calls
  · rename_i created
    rw [if_neg created]
    split at calls
    · rename_i forked
      rw [if_pos forked, closed]
      refine ⟨(createPipes_all fun k below => ?_).2, forked, rfl, rfl⟩
      obtain ⟨may, room⟩ := not_or.mp fun fails => created (createPipes_failed_iff.mpr ⟨k, below, fails⟩)
      rw [Nat.zero_add]
      exact ⟨Bool.of_not_eq_false may, Nat.not_lt.mp room⟩
    · exact nomatch calls

/-- When no call fails, every command runs wired, and the shell waits with the table it had. -/
theorem executePipeline_wires {base : Table δ} {p : Pipeline CString} (opened : ∀ fd < 3, (base.file fd).isSome = true)
    (calls : (executePipeline sys p (base.map .shell)).errors = [])
    (setups : ∀ child ∈ (executePipeline sys p (base.map .shell)).children, child.setup.isOk = true) :
    (executePipeline sys p (base.map .shell)).waiting = some (base.map .shell) ∧
    ∀ i (inside : i < p.cmds.length), ∃ child t, (executePipeline sys p (base.map .shell)).children[i]? = some child ∧
      child.command = p.cmds[i] ∧ child.builtin = isBuiltin p.cmds[i].command ∧ child.setup = .ok t ∧
      Wired p.count i p.cmds[i] base t ∧
      ∀ fd k, (t.file fd = some (.readEnd k) → fd = 0 ∧ i = k + 1) ∧ (t.file fd = some (.writeEnd k) → fd = 1 ∧ i = k) := by
  obtain ⟨length, forked, waiting, children⟩ := executePipeline_forked calls
  refine ⟨waiting, fun i inside => ?_⟩
  rw [children] at setups ⊢
  have child := forkChildren_get (k := i) forked
  rw [List.getElem?_eq_getElem inside, Option.map_some, Option.map_eq_some_iff, Nat.zero_add] at child
  obtain ⟨child, found, same⟩ := child
  obtain ⟨command, builtin, setup⟩ : child.command = p.cmds[i] ∧ child.builtin = isBuiltin p.cmds[i].command ∧
      child.setup = childSetup sys p.count _ i p.cmds[i] _ := by simpa only [Prod.mk.injEq] using same
  obtain ⟨t, ready⟩ := ok_of_isOk (setups child (List.mem_of_getElem? found))
  have wiring := childSetup_wired (createPipes_made sys 0 (p.count - 1) (base.map .shell)) length
    (fun r => opened _ (by cases r <;> decide)) inside (setup.symm.trans ready)
  exact ⟨child, t, found, command, builtin, ready, wiring, wiring.ends⟩

/-- `sort < in | wc 2> err` in a shell with its three streams. -/
theorem executePipeline_wires_sort :
    (executePipeline {}
      { cmds := [{ command := some "sort".toList, inputFile := some "in".toList },
          { command := some "wc".toList, errorFile := some "err".toList }]
        fits := by decide }
      ((⟨8, fun fd => if fd < 3 then some fd else none⟩ : Table Nat).map .shell)).waiting
      = some ((⟨8, fun fd => if fd < 3 then some fd else none⟩ : Table Nat).map .shell) :=
  (executePipeline_wires (by decide) rfl (by decide)).1

end MyShell.Shell
