import MyShell.Server.Isolation

/-! # What is sent on a connection

A connection has one descriptor, and none for ever after it is closed. So what a client is sent on its
connection is the first part of all that is written for its commands. -/

namespace MyShell

open State

def State.writesFor (s : State) (c : ClientId) : List Write := s.writes.filter (·.client = c)

def State.writesOn (s : State) (c : ClientId) : List Write :=
  s.writes.filter fun w => w.client = c ∧ w.target = some (s.conn c)

structure ConnsOk (s : State) : Prop where
  bound : ∀ fd k, s.fds fd = some (.conn k) → k < s.nextConn
  one : ∀ fd fd' k, s.fds fd = some (.conn k) → s.fds fd' = some (.conn k) → fd = fd'
  closed : ∀ c, (s.worker c).closed = true → s.conn c < s.nextConn ∧ ∀ fd, s.fds fd ≠ some (.conn (s.conn c))

structure WritesHome (s : State) : Prop where
  present : ∀ w ∈ s.writes, s.worker w.client ≠ .absent
  home : ∀ w ∈ s.writes, (s.worker w.client).connected = true → w.target = some (s.conn w.client)
  before : ∀ c, s.writesOn c <+: s.writesFor c

variable {s t : State} {a : Answer} {c : ClientId} {e : Event} {w : Write}

theorem step_nextConn (taken : Step s e t) : s.nextConn ≤ t.nextConn := by
  cases taken with
  | sched taken => exact Nat.le_of_eq taken.frame.nextConn.symm
  | worker taken => exact Nat.le_of_eq taken.frame.nextConn.symm
  | main taken => cases taken <;> simp

theorem step_started (taken : Step s e t) (present : s.worker c ≠ .absent) : t.worker c ≠ .absent := by
  cases taken with
  | sched taken => rwa [taken.frame.worker]
  | worker taken => exact fun absent => present ((taken.absent c).mp absent)
  | main taken =>
    by_cases starting : s.main = .spawn c
    · rcases taken.spawned starting with there | there <;> simp [there, present]
    · rwa [taken.worker starting]

theorem step_closes (taken : Step s e t) (closed : (t.worker c).closed = true) :
    (s.worker c).closed = true ∨ s.worker c = .close ∧ t.conn = s.conn ∧ t.nextConn = s.nextConn ∧
      t.fds = Function.update s.fds (s.context c).clientFd none := by
  cases taken with
  | sched taken => exact .inl (taken.frame.worker ▸ closed)
  | @worker c' _ _ taken =>
    by_cases same : c = c'
    · subst same
      cases taken with
      | close here => exact .inr ⟨here, rfl, rfl, rfl⟩
      | logDisconnected here => exact .inl (by rw [here]; rfl)
      | _ => simp [WorkerPc.closed] at closed
    · exact .inl (by rwa [taken.frame.worker c same] at closed)
  | main taken =>
    by_cases starting : s.main = .spawn c
    · rcases taken.spawned starting with there | there
      · simp [there, WorkerPc.closed] at closed
      · exact .inl (there ▸ closed)
    · exact .inl (taken.worker starting ▸ closed)

theorem present_of_closed {pc : WorkerPc} (closed : pc.closed = true) : pc ≠ .absent := by
  rintro rfl
  cases closed

theorem step_conns (ok : ConnsOk s) (inv : Inv s) (fds : FdsOk s) (taken : Step s e t) : ConnsOk t := by
  have more := step_nextConn taken
  refine ⟨fun fd k here => ?_, fun fd fd' k here here' => ?_, fun c there => ?_⟩
  · rcases step_connection taken here with old | ⟨rfl, next, -⟩
    · exact Nat.lt_of_lt_of_le (ok.bound fd k old) more
    · exact next ▸ Nat.lt_succ_self _
  · rcases step_connection taken here with old | ⟨new, -, _, -, main, -⟩ <;>
      rcases step_connection taken here' with old' | ⟨new', -, _, -, main', -⟩
    · exact ok.one fd fd' k old old'
    · exact absurd (new' ▸ ok.bound fd k old) (Nat.lt_irrefl _)
    · exact absurd (new ▸ ok.bound fd' k old') (Nat.lt_irrefl _)
    · exact MainPc.accepting.inj (main.symm.trans main')
  · rcases step_closes taken there with closed | ⟨here, conn, next, table⟩
    · have before := ok.closed c closed
      rw [step_conn taken (inv.clients.born c (present_of_closed closed))]
      refine ⟨Nat.lt_of_lt_of_le before.1 more, fun fd here => ?_⟩
      rcases step_connection taken here with old | ⟨new, -⟩
      · exact before.2 fd old
      · exact absurd new (Nat.ne_of_lt before.1)
    · have mine := fds.client c (by rw [here]; rfl)
      rw [conn, next, table]
      refine ⟨ok.bound _ _ mine, fun fd same => ?_⟩
      by_cases this : fd = (s.context c).clientFd
      · simp [this] at same
      · exact this (ok.one _ _ _ (by simpa [this] using same) mine)

theorem run_conns {ok : State → Event → Prop} (run : ServerRun ok s) : ConnsOk s := by
  refine run.invariant_of (J := fun s => Inv s ∧ FdsOk s) (fun run => ⟨run_inv run, run_fds run⟩) ?_
    fun known _ ok _ taken => step_conns ok known.1 known.2 (step_cases taken)
  constructor <;> simp [State.initial, WorkerPc.closed]

/-! ### The writes of a client -/

theorem step_wrote (inv : Inv s) (taken : Step s e t) : t.writes = s.writes ∨ ∃ w, t.writes = s.writes ++ [w] ∧
    t.conn = s.conn ∧ s.worker w.client ≠ .absent ∧ w.target = connection (s.fds (s.context w.client).clientFd) := by
  cases taken with
  | sched taken =>
    rcases taken.wrote with same | ⟨w, q, appended, here, wrote⟩
    · exact .inl same
    · have old := (inv.owned.held q (held_of_writing here)).1
      refine .inr ⟨w, appended, taken.frame.conn, ?_, ?_⟩ <;> rw [wrote.client]
      · exact inv.clients.started q old
      · rw [wrote.target, inv.clients.taskFd q old]
  | worker taken =>
    rcases taken.wrote with same | ⟨w, appended, own⟩
    · exact .inl same
    · refine .inr ⟨w, appended, taken.frame.conn, ?_, ?_⟩ <;> rw [own.client]
      · exact own.present
      · exact own.target
  | main taken => exact .inl taken.frame.writes

theorem writes_grow (inv : Inv s) (taken : Step s e t) : s.writes <+: t.writes := by
  rcases step_wrote inv taken with same | ⟨w, appended, -⟩
  · exact same ▸ List.prefix_refl _
  · exact appended ▸ List.prefix_append _ _

theorem WritesHome.all (ok : WritesHome s) (connected : (s.worker c).connected = true) :
    s.writesOn c = s.writesFor c := by
  refine List.filter_congr fun w member => ?_
  by_cases mine : w.client = c
  · subst mine
    simp [ok.home w member connected]
  · simp [mine]

end MyShell
