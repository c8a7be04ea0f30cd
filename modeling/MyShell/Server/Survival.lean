import MyShell.Server.Drain

/-! # Clients that close their connection

`main` sets a handler for SIGINT only. A `send` or `write` that is made on a socket whose peer has closed and
reset the connection raises SIGPIPE, and its default action ends the process before the call comes back. A
call that waits while the reset arrives returns an error and raises nothing. -/

namespace MyShell

open State

/-- The server process: the connections that their peers have reset, and whether a signal has ended it. -/
structure Process where
  server : State := {}
  reset : List ConnId := []
  terminated : Bool := false

inductive ProcessEvent where
  | reset (k : ConnId)
  /-- a step of the server, and the resets that arrive before its last `send`, while it is in none -/
  | server (e : Event) (between : List ConnId)

namespace Process

/-- It finds the connection reset, or `send_all` makes a further `send` after the reset. -/
def raises (p : Process) (between : List ConnId) (w : Write) : Bool :=
  w.target.any fun k => k ∈ p.reset || (k ∈ between && w.sent != .all)

def step (p : Process) : ProcessEvent → Option Process
  | .reset k => if p.terminated then none else some { p with reset := k :: p.reset }
  | .server e between =>
    if p.terminated then none
    else (MyShell.step p.server e).map fun t =>
      { server := t
        reset := between ++ p.reset
        terminated := (t.writes.drop p.server.writes.length).any (p.raises between) }

end Process

def socket (s : State) : Event → Option (ConnId × Sent)
  | .sched a =>
    match s.pc with
    | .relay t _ =>
      if a.read.getD [] = [] then none else (connection (s.fds (s.task t).clientFd)).map (·, a.sent)
    | .slice r => (connection (s.fds (s.task r.task).clientFd)).map (·, a.sent)
    | .sendMarker t _ => (connection (s.fds (s.task t).clientFd)).map (·, a.sent)
    | _ => none
  | .worker c a =>
    match s.worker c with
    | .emptyMarker | .refuse | .refuseMarker => (connection (s.fds (s.context c).clientFd)).map (·, a.sent)
    | _ => none
  | .main _ => none

/-- The step makes no `send` on a socket whose peer has reset the connection. -/
def sendsToOpen (p : Process) : ProcessEvent → Bool
  | .reset _ => true
  | .server e between =>
    (socket p.server e).all fun call => call.1 ∉ p.reset && (call.1 ∉ between || call.2 == .all)

variable {s t : State} {a : Answer} {c : ClientId} {e : Event} {p q : Process}

theorem step_socket (inv : Inv s) (taken : Step s e t) :
    (t.writes = s.writes ∧ socket s e = none) ∨
      ∃ w, t.writes = s.writes ++ [w] ∧ socket s e = w.target.map (·, w.sent) := by
  cases taken with
  | sched taken =>
    cases taken with
    | relay here answer nonempty => exact .inr ⟨_, rfl, by simp [socket, here, answer, nonempty]⟩
    | slice here | sendMarker here => exact .inr ⟨_, rfl, by simp [socket, here]⟩
    | relayEnd here answer => exact .inl ⟨by simp, by rcases answer with none | nothing <;> simp [socket, *]⟩
    | @sliceNothing r here type =>
      have held := inv.owned.held r.task (by rw [here]; rfl)
      have demo := demo_of_ne_shell inv held.1 (inv.runs.demo r.task (by rw [here]; rfl))
      exact absurd demo type
    | _ => exact .inl ⟨by simp, by simp [socket, ‹s.pc = _›]⟩
  | worker taken =>
    cases taken with
    | emptyMarker here | refuse here | refuseMarker here => exact .inr ⟨_, rfl, by simp [socket, here]⟩
    | _ => exact .inl ⟨by simp, by simp [socket, ‹s.worker _ = _›]⟩
  | main taken => exact .inl ⟨taken.frame.writes, rfl⟩

/-- A step of the server ends the process just when it makes a `send` on a socket that is reset. -/
theorem step_terminates_iff {ev : ProcessEvent} (inv : Inv p.server) (alive : p.terminated = false)
    (taken : p.step ev = some q) : q.terminated = true ↔ sendsToOpen p ev = false := by
  cases ev with
  | reset k =>
    simp only [Process.step, alive, Bool.false_eq_true, if_false, Option.some.injEq] at taken
    subst taken
    simp [sendsToOpen]
  | server e between =>
    simp only [Process.step, alive, Bool.false_eq_true, if_false, Option.map_eq_some_iff] at taken
    obtain ⟨t, taken, rfl⟩ := taken
    rcases step_socket inv (step_cases taken) with ⟨silent, nowhere⟩ | ⟨w, wrote, where_⟩
    · simp [silent, sendsToOpen, nowhere]
    · cases target : w.target <;> simp [wrote, sendsToOpen, where_, target, Process.raises]
      tauto

def ProcessEvent.event : ProcessEvent → Option Event
  | .reset _ => none
  | .server e _ => some e

def serverSteps (steps : List (Process × ProcessEvent)) : List (State × Event) :=
  steps.filterMap fun x => x.2.event.map (x.1.server, ·)

/-- No signal has ended the process, and its scheduler goes on to serve what waits: however the process goes on,
after so many steps of the scheduler each task is freed, or lost for want of a process, if none was added. -/
structure Process.GoesOn (p : Process) : Prop where
  alive : p.terminated = false
  serves : ∀ steps q, Machine.Path Process.step p steps q → (∀ x ∈ serverSteps steps, enqueues x.1 x.2 = false) →
    (p.server.potential < (serverSteps steps).countP fun x => ofScheduler x.1 x.2) →
      ∃ x ∈ serverSteps steps, x.1.queue = [] ∧
        ∀ task < p.server.allocated, p.server.status task ≠ .created → x.1.status task = .released ∨ x.1.Lost task

theorem Process.path_server {steps : List (Process × ProcessEvent)} (path : Machine.Path Process.step p steps q) :
    Machine.Path MyShell.step p.server (serverSteps steps) q.server := by
  refine path.project Process.server ProcessEvent.event (fun taken seen => ?_) fun taken unseen => ?_
  · rename_i t ev u e
    cases ev with
    | reset k => cases seen
    | server e between =>
      cases seen
      simp only [Process.step, Option.ite_none_left_eq_some, Option.map_eq_some_iff] at taken
      obtain ⟨-, t, taken, rfl⟩ := taken
      exact taken
  · rename_i t ev u
    cases ev with
    | reset k =>
      simp only [Process.step, Option.ite_none_left_eq_some, Option.some.injEq] at taken
      obtain ⟨-, rfl⟩ := taken
      rfl
    | server e between => cases unseen

theorem Process.step_server {ev : ProcessEvent} (server : ServerRun Machine.always p.server)
    (taken : p.step ev = some q) : ServerRun Machine.always q.server := by
  cases ev with
  | reset k =>
    simp only [Process.step, Option.ite_none_left_eq_some, Option.some.injEq] at taken
    obtain ⟨-, rfl⟩ := taken
    exact server
  | server e between =>
    simp only [Process.step, Option.ite_none_left_eq_some, Option.map_eq_some_iff] at taken
    obtain ⟨-, t, taken, rfl⟩ := taken
    exact server.next trivial taken

abbrev ProcessRun (ok : Process → ProcessEvent → Prop) (p : Process) : Prop := Machine.Run Process.step ok {} p

theorem processRun_by (ok : Process → ProcessEvent → Prop) [∀ p ev, Decidable (ok p ev)] (events : List ProcessEvent)
    (test : Process → Bool) (passed : (Machine.follow Process.step ok {} events).any test = true) :
    ∃ p, ProcessRun ok p ∧ test p = true :=
  Machine.exists_run events passed

/-- Where the server makes no `send` on a socket whose peer has reset the connection, no write ends the process;
and each step that does so ends it. -/
theorem run_survives (run : ProcessRun (sendsToOpen · ·) p) :
    p.GoesOn ∧ ∀ ev q, p.step ev = some q → (q.terminated = true ↔ sendsToOpen p ev = false) := by
  have both : p.terminated = false ∧ ServerRun Machine.always p.server := by
    refine run.invariant (I := fun p => p.terminated = false ∧ ServerRun Machine.always p.server) ⟨rfl, .refl⟩ ?_
    intro p ev q ⟨alive, server⟩ met taken
    have ended := step_terminates_iff (run_inv server) alive taken
    exact ⟨by simpa [met] using ended, Process.step_server server taken⟩
  refine ⟨⟨both.1, fun steps q path closed long => ?_⟩, fun ev q taken => step_terminates_iff (run_inv both.2) both.1 taken⟩
  obtain ⟨x, member, -, empty, gone⟩ := path_drains both.2 (Process.path_server path) closed long
  exact ⟨x, member, empty, gone⟩

theorem run_survives_leave : ∃ p, ProcessRun (sendsToOpen · ·) p ∧ p.reset = [0] ∧
    p.server.dispatches.map (·.task) = [1] ∧ p.GoesOn := by
  obtain ⟨p, run, seen⟩ := processRun_by (sendsToOpen · ·)
    ((Event.connect 5 ++ Event.connect 6 ++ Event.submit 1 "demo 9").map (.server · []) ++ [.reset 0] ++
      (Event.leave 1 ++ Event.submit 2 "demo 4" ++ Event.schedule 10).map (.server · []))
    (fun p => p.reset = [0] ∧ p.server.dispatches.map (·.task) = [1]) (by decide +kernel)
  obtain ⟨reset, dispatched⟩ := of_decide_eq_true seen
  exact ⟨p, run, reset, dispatched, (run_survives run).1⟩

/-- A client leaves while its demo runs: the next slice ends the server. -/
theorem leaving_client_ends_server : ¬ ∀ p, ProcessRun Machine.always p → p.terminated = false := by
  intro claimed
  obtain ⟨p, run, seen⟩ := processRun_by Machine.always
    ((Event.connect 5 ++ Event.submit 1 "demo 9" ++ Event.schedule 7).map (.server · []) ++
      [.reset 0, .server (.sched {}) []])
    (·.terminated) (by decide +kernel)
  rw [claimed p run] at seen
  cases seen

end MyShell
