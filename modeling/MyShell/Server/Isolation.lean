import MyShell.Server.Ownership

/-! # Where the output of a task goes

A task stores the number of its client's descriptor. While the client is there the number denotes
its connection; after the client has left it denotes whatever `accept` or `pipe` returned it for. -/

namespace MyShell

open State

def WorkerPc.connected : WorkerPc → Bool
  | .absent | .logDisconnected | .done => false
  | _ => true

def WorkerPc.closed : WorkerPc → Bool
  | .logDisconnected | .done => true
  | _ => false

/-- The held task while the scheduler may still write for it or give it back to the queue. -/
def SchedPc.owes : SchedPc → Option Ptr
  | .logBytes _ _ | .logEnded _ _ | .complete _ _ | .release _ _ => none
  | pc => pc.held

def SchedPc.pipeEnds : SchedPc → List Fd
  | .fork _ r w | .closeWrite _ r w => [r, w]
  | .relay _ r | .closeRead _ r => [r]
  | _ => []

/-- `accept` does not return the number of a task that is queued or has output to come. -/
def acceptsUnused (s : State) : Event → Bool
  | .main a =>
    match s.main, a.connected with
    | .accepting fd, true => (s.queue ++ s.pc.owes.toList).all fun p => (s.task p).clientFd ≠ fd
    | _, _ => true
  | _ => true

/-- What is written for a task goes to the connection of its client, or to none after it was closed. -/
def Delivered (s : State) (w : Write) : Prop :=
  ∀ p, w.task = some p → w.target = some (s.conn (s.task p).clientId) ∨
    w.target = none ∧ (s.worker (s.task p).clientId).closed = true

structure FdsOk (s : State) : Prop where
  client : ∀ c, (s.worker c).connected = true → s.fds (s.context c).clientFd = some (.conn (s.conn c))
  distinct : ∀ c c', (s.worker c).connected = true → (s.worker c').connected = true →
    (s.context c).clientFd = (s.context c').clientFd → c = c'
  accepting : ∀ fd, s.main = .accepting fd → s.fds fd = some .reserved
  setup : ∀ fd k, s.main = .setup fd k → s.fds fd = some (.conn k) ∧
    ∀ c, (s.worker c).connected = true → (s.context c).clientFd ≠ fd
  spawn : ∀ c, s.main = .spawn c → s.fds (s.context c).clientFd = some (.conn (s.conn c)) ∧
    ∀ c', (s.worker c').connected = true → (s.context c').clientFd ≠ (s.context c).clientFd
  pipes : ∀ fd ∈ s.pc.pipeEnds, s.fds fd = some .pipe
  apart : s.pc.pipeEnds.Nodup

inductive Pending (s : State) (p : Ptr) : Prop where
  | queued (member : p ∈ s.queue)
  | owed (here : s.pc.owes = some p)

/-- The number of a pending task denotes no connection but its client's. -/
def PendingHome (s : State) : Prop :=
  ∀ p, Pending s p → ∀ k, s.fds (s.task p).clientFd = some (.conn k) → k = s.conn (s.task p).clientId

variable {s t : State} {a : Answer} {c : ClientId} {e : Event} {p : Ptr} {fd : Fd}

theorem lowestFree_none {fds : Fd → Option Descriptor} (free : lowestFree fds fd = true) : fds fd = none := by
  simp only [lowestFree, Bool.and_eq_true, Option.isNone_iff_eq_none] at free
  exact free.1

/-! ### The descriptor table -/

theorem FdsOk.schedMove (ok : FdsOk s) (frame : SchedFrame s t)
    (kept : ∀ fd d, s.fds fd = some d → d ≠ .pipe → t.fds fd = some d)
    (pipes : ∀ fd ∈ t.pc.pipeEnds, t.fds fd = some .pipe) (apart : t.pc.pipeEnds.Nodup) : FdsOk t where
  client c here := by
    rw [frame.worker] at here
    rw [frame.context, frame.conn]
    exact kept _ _ (ok.client c here) (by simp)
  distinct := by rw [frame.worker, frame.context]; exact ok.distinct
  accepting fd here := kept _ _ (ok.accepting fd (frame.main ▸ here)) (by simp)
  setup fd k here := by
    rw [frame.main] at here
    rw [frame.worker, frame.context]
    exact ⟨kept _ _ (ok.setup fd k here).1 (by simp), (ok.setup fd k here).2⟩
  spawn c here := by
    rw [frame.main] at here
    rw [frame.worker, frame.context, frame.conn]
    exact ⟨kept _ _ (ok.spawn c here).1 (by simp), (ok.spawn c here).2⟩
  pipes := pipes
  apart := apart

theorem FdsOk.schedStay (ok : FdsOk s) (frame : SchedFrame s t) (fds : t.fds = s.fds)
    (ends : t.pc.pipeEnds = s.pc.pipeEnds ∨ t.pc.pipeEnds = []) : FdsOk t := by
  refine ok.schedMove frame (fun fd d here _ => fds ▸ here) (fun fd member => ?_) ?_ <;> rcases ends with same | nothing
  · rw [fds]; exact ok.pipes fd (same ▸ member)
  · simp [nothing] at member
  · rw [same]; exact ok.apart
  · rw [nothing]; exact List.nodup_nil

@[simp] theorem afterUpdate_pipeEnds (r : Round) (done : Bool) : (afterUpdate r done).pipeEnds = [] := by
  cases done <;> rfl

@[simp] theorem afterCheck_pipeEnds (r : Round) (b : Bool) : (afterCheck r b).pipeEnds = [] := by
  rcases afterCheck_cases r b with ⟨_, -, same⟩ | same <;> rw [same] <;> rfl

@[simp] theorem afterQuantum_pipeEnds (q : Ptr) (o : Outcome) : (afterQuantum q o).pipeEnds = [] := by
  cases o <;> rfl

theorem keeps_other {fds : Fd → Option Descriptor} {new : Option Descriptor} (old : fds fd = none ∨ fds fd = some .pipe)
    {fd' : Fd} {d : Descriptor} (here : fds fd' = some d) (other : d ≠ .pipe) : Function.update fds fd new fd' = some d := by
  have apart : fd' ≠ fd := by
    rintro rfl
    simp [here, other] at old
  simpa [apart] using here

theorem schedStep_fds (ok : FdsOk s) (taken : SchedStep s a t) : FdsOk t := by
  have frame := taken.frame
  have pipes := ok.pipes
  have apart := ok.apart
  cases taken with
  | @pipe p r w here answer first second =>
    have r_free := lowestFree_none first
    have w_free := lowestFree_none second
    have other : r ≠ w := by
      rintro rfl
      simp at w_free
    refine ok.schedMove frame (fun fd d here apart => ?_) (fun fd member => ?_) (by simp [SchedPc.pipeEnds, other])
    · exact keeps_other (.inl w_free) (keeps_other (.inl r_free) here apart) apart
    · rcases List.mem_cons.mp member with rfl | member
      · simp [other]
      · simp [List.mem_singleton.mp member]
  | @forkFailed p r w here =>
    rw [here] at pipes apart
    have other : w ≠ r := fun same => by simp [SchedPc.pipeEnds, same] at apart
    refine ok.schedMove frame (fun fd d here apart => ?_) (by simp [SchedPc.pipeEnds]) List.nodup_nil
    refine keeps_other (.inr ?_) (keeps_other (.inr (pipes r (by simp [SchedPc.pipeEnds]))) here apart) apart
    simpa [other] using pipes w (by simp [SchedPc.pipeEnds])
  | @closeWrite p r w here =>
    rw [here] at pipes apart
    have other : r ≠ w := fun same => by simp [SchedPc.pipeEnds, same] at apart
    refine ok.schedMove frame (fun fd d here apart => ?_) (fun fd member => ?_) (by simp [SchedPc.pipeEnds])
    · exact keeps_other (.inr (pipes w (by simp [SchedPc.pipeEnds]))) here apart
    · obtain rfl : fd = r := List.mem_singleton.mp member
      simpa [other] using pipes fd (by simp [SchedPc.pipeEnds])
  | @closeRead p r here =>
    rw [here] at pipes
    refine ok.schedMove frame (fun fd d here apart => ?_) (by simp [SchedPc.pipeEnds]) List.nodup_nil
    exact keeps_other (.inr (pipes r (by simp [SchedPc.pipeEnds]))) here apart
  | relay => exact ok.schedStay frame (by simp) (.inl (by simp))
  | fork here | relayEnd here => exact ok.schedStay frame (by simp) (.inl (by rw [here]; rfl))
  | update | check | countRound => exact ok.schedStay frame (by simp) (.inr (by simp))
  | _ => exact ok.schedStay frame (by simp) (.inr rfl)

theorem FdsOk.workerMove (ok : FdsOk s) (frame : WorkerFrame s t c) (fds : t.fds = s.fds)
    (connected : (t.worker c).connected = true → (s.worker c).connected = true) : FdsOk t := by
  have before : ∀ c', (t.worker c').connected = true → (s.worker c').connected = true := fun c' here => by
    by_cases same : c' = c
    · subst same; exact connected here
    · rwa [frame.worker c' same] at here
  constructor
  · intro c' here
    rw [fds, frame.context, frame.conn]
    exact ok.client c' (before c' here)
  · intro c₁ c₂ here₁ here₂
    rw [frame.context]
    exact ok.distinct c₁ c₂ (before c₁ here₁) (before c₂ here₂)
  · intro fd here
    rw [fds]
    exact ok.accepting fd (frame.main ▸ here)
  · intro fd k here
    rw [frame.main] at here
    rw [fds, frame.context]
    exact ⟨(ok.setup fd k here).1, fun c' there => (ok.setup fd k here).2 c' (before c' there)⟩
  · intro c' here
    rw [frame.main] at here
    rw [fds, frame.context, frame.conn]
    exact ⟨(ok.spawn c' here).1, fun c₂ there => (ok.spawn c' here).2 c₂ (before c₂ there)⟩
  · rw [frame.pc, fds]; exact ok.pipes
  · rw [frame.pc]; exact ok.apart

theorem workerStep_fds (ok : FdsOk s) (taken : WorkerStep s c a t) : FdsOk t := by
  have frame := taken.frame
  cases taken with
  | close here =>
    have mine : s.fds (s.context c).clientFd = some (.conn (s.conn c)) := ok.client c (by rw [here]; rfl)
    have before : ∀ c', (Function.update s.worker c .logDisconnected c').connected = true →
        (s.worker c').connected = true ∧ (s.context c').clientFd ≠ (s.context c).clientFd := fun c' there => by
      have other : c' ≠ c := by
        rintro rfl
        simp [WorkerPc.connected] at there
      have connected : (s.worker c').connected = true := by simpa [other] using there
      exact ⟨connected, fun same => other (ok.distinct c' c connected (by rw [here]; rfl) same)⟩
    refine ⟨fun c' there => ?_, fun c₁ c₂ here₁ here₂ => ?_, fun fd there => ?_, fun fd k there => ?_,
      fun c' there => ?_, fun fd member => ?_, ok.apart⟩
    · simpa [(before c' there).2] using ok.client c' (before c' there).1
    · exact ok.distinct c₁ c₂ (before c₁ here₁).1 (before c₂ here₂).1
    · have waits := ok.accepting fd there
      have other : fd ≠ (s.context c).clientFd := by
        rintro rfl
        simp [mine] at waits
      simpa [other] using waits
    · have setup := ok.setup fd k there
      have other : fd ≠ (s.context c).clientFd := fun same => setup.2 c (by rw [here]; rfl) same.symm
      exact ⟨by simpa [other] using setup.1, fun c' connected => setup.2 c' (before c' connected).1⟩
    · have spawn := ok.spawn c' there
      have other : (s.context c').clientFd ≠ (s.context c).clientFd := fun same =>
        spawn.2 c (by rw [here]; rfl) same.symm
      exact ⟨by simpa [other] using spawn.1, fun c₂ connected => spawn.2 c₂ (before c₂ connected).1⟩
    · have pipe := ok.pipes fd member
      have other : fd ≠ (s.context c).clientFd := by
        rintro rfl
        simp [mine] at pipe
      simpa [other] using pipe
  | _ =>
    have here := ‹s.worker c = _›
    exact ok.workerMove frame (by simp) (by simp [here, WorkerPc.connected])

theorem FdsOk.apartOfAccepting (ok : FdsOk s) (here : s.main = .accepting fd) {fd' : Fd} {d : Descriptor}
    (there : s.fds fd' = some d) (other : d ≠ .reserved) : fd' ≠ fd := by
  rintro rfl
  exact other (Option.some.inj (there.symm.trans (ok.accepting fd' here)))

theorem FdsOk.apartOfOther (ok : FdsOk s) (other : ∀ k, s.fds fd ≠ some (.conn k)) (c : ClientId)
    (connected : (s.worker c).connected = true) : (s.context c).clientFd ≠ fd := by
  rintro rfl
  exact other _ (ok.client c connected)

/-- The accept loop changes what a number denotes that no worker and no pipe has. -/
theorem FdsOk.mainMove (ok : FdsOk s) {d : Option Descriptor} (fds : t.fds = Function.update s.fds fd d)
    (worker : t.worker = s.worker) (context : t.context = s.context) (conn : t.conn = s.conn) (pc : t.pc = s.pc)
    (clients : ∀ c, (s.worker c).connected = true → (s.context c).clientFd ≠ fd) (pipe : s.fds fd ≠ some .pipe)
    (accepting : ∀ fd', t.main = .accepting fd' → fd' = fd ∧ d = some .reserved)
    (setup : ∀ fd' k, t.main = .setup fd' k → fd' = fd ∧ d = some (.conn k)) (spawn : ∀ c, t.main ≠ .spawn c) :
    FdsOk t where
  client c there := by
    rw [worker] at there
    rw [fds, context, conn, Function.update_of_ne (clients c there)]
    exact ok.client c there
  distinct := by rw [worker, context]; exact ok.distinct
  accepting fd' here := by
    obtain ⟨rfl, rfl⟩ := accepting fd' here
    rw [fds, Function.update_self]
  setup fd' k here := by
    obtain ⟨rfl, rfl⟩ := setup fd' k here
    rw [fds, Function.update_self, worker, context]
    exact ⟨rfl, clients⟩
  spawn c here := absurd here (spawn c)
  pipes fd' member := by
    rw [pc] at member
    have other : fd' ≠ fd := by
      rintro rfl
      exact pipe (ok.pipes fd' member)
    rw [fds, Function.update_of_ne other]
    exact ok.pipes fd' member
  apart := pc ▸ ok.apart

theorem mainStep_fds (ok : FdsOk s) (clients : ClientsOk s) (taken : MainStep s a t) : FdsOk t := by
  cases taken with
  | acceptFailed => exact ok
  | @accept fd here answer free =>
    have fresh := lowestFree_none free
    refine ok.mainMove rfl rfl rfl rfl rfl (ok.apartOfOther (by simp [fresh])) (by simp [fresh]) (fun fd' there => ?_)
      (by simp) (by simp)
    exact ⟨(MainPc.accepting.inj there).symm, rfl⟩
  | @accepted fd here =>
    have waits := ok.accepting fd here
    refine ok.mainMove rfl rfl rfl rfl rfl (ok.apartOfOther (by simp [waits])) (by simp [waits]) (by simp) (fun fd' k there => ?_)
      (by simp)
    obtain ⟨rfl, rfl⟩ := MainPc.setup.inj there
    exact ⟨rfl, rfl⟩
  | @notAccepted fd here =>
    have waits := ok.accepting fd here
    exact ok.mainMove rfl rfl rfl rfl rfl (ok.apartOfOther (by simp [waits])) (by simp [waits]) (by simp) (by simp) (by simp)
  | @setup fd k here =>
    have setup := ok.setup fd k here
    have old : ∀ c, (s.worker c).connected = true → c ≠ s.nextClientId := fun c connected => by
      refine Nat.ne_of_lt (clients.born c ?_)
      rintro absent
      simp [absent, WorkerPc.connected] at connected
    refine ⟨fun c there => ?_, fun c₁ c₂ here₁ here₂ same => ?_, by simp, by simp, fun c there => ?_, ok.pipes,
      ok.apart⟩
    · simpa [old c there] using ok.client c there
    · exact ok.distinct c₁ c₂ here₁ here₂ (by simpa [old c₁ here₁, old c₂ here₂] using same)
    · obtain rfl : s.nextClientId = c := by simpa using there
      refine ⟨by simpa using setup.1, fun c' connected => ?_⟩
      have connected : (s.worker c').connected = true := connected
      simpa [old c' connected] using setup.2 c' connected
  | @setupFailed fd k here =>
    have setup := ok.setup fd k here
    exact ok.mainMove rfl rfl rfl rfl rfl setup.2 (by simp [setup.1]) (by simp) (by simp) (by simp)
  | @spawn c here =>
    have spawn := ok.spawn c here
    refine ⟨fun c' there => ?_, fun c₁ c₂ here₁ here₂ same => ?_, by simp, by simp, by simp, ok.pipes, ok.apart⟩
    · by_cases same : c' = c
      · exact same ▸ spawn.1
      · exact ok.client c' (by simpa [same] using there)
    · by_cases first : c₁ = c <;> by_cases second : c₂ = c
      · exact first.trans second.symm
      · exact absurd (first ▸ same.symm) (spawn.2 c₂ (by simpa [second] using here₂))
      · exact absurd (second ▸ same) (spawn.2 c₁ (by simpa [first] using here₁))
      · exact ok.distinct c₁ c₂ (by simpa [first] using here₁) (by simpa [second] using here₂) same
  | @spawnFailed c here =>
    have spawn := ok.spawn c here
    exact ok.mainMove rfl rfl rfl rfl rfl spawn.2 (by simp [spawn.1]) (by simp) (by simp) (by simp)

theorem step_fds (ok : FdsOk s) (clients : ClientsOk s) (taken : Step s e t) : FdsOk t := by
  cases taken with
  | sched taken => exact schedStep_fds ok taken
  | worker taken => exact workerStep_fds ok taken
  | main taken => exact mainStep_fds ok clients taken

theorem run_fds {ok : State → Event → Prop} (run : ServerRun ok s) : FdsOk s := by
  refine run.invariant_of run_inv ⟨?_, ?_, ?_, ?_, ?_, ?_, List.nodup_nil⟩ fun inv _ ok _ taken =>
    step_fds ok inv.clients (step_cases taken)
  all_goals simp [State.initial, WorkerPc.connected, SchedPc.pipeEnds]

/-! ### Pending tasks -/

theorem held_of_owes {pc : SchedPc} (here : pc.owes = some p) : pc.held = some p := by
  cases pc <;> first | exact here | cases here

theorem owes_of_writing {pc : SchedPc} (here : pc.writing = some p) : pc.owes = some p := by
  cases pc <;> first | exact here | cases here

@[simp] theorem afterUpdate_owes (r : Round) (done : Bool) : (afterUpdate r done).owes = some r.task := by
  cases done <;> rfl

@[simp] theorem afterCheck_owes (r : Round) (b : Bool) : (afterCheck r b).owes = some r.task := by
  rcases afterCheck_cases r b with ⟨_, -, same⟩ | same <;> rw [same] <;> rfl

@[simp] theorem afterQuantum_owes (q : Ptr) (o : Outcome) : (afterQuantum q o).owes = some q := by
  cases o <;> rfl

theorem Pending.old (owned : Owned s) (pending : Pending s p) : p < s.allocated := by
  cases pending with
  | queued member => exact (owned.queued p member).1
  | owed here => exact (owned.held p (held_of_owes here)).1

theorem step_connection (taken : Step s e t) {k : ConnId} (here : t.fds fd = some (.conn k)) :
    s.fds fd = some (.conn k) ∨ k = s.nextConn ∧ t.nextConn = s.nextConn + 1 ∧
      ∃ a, e = .main a ∧ s.main = .accepting fd ∧ a.connected = true := by
  have updated : ∀ (fds : Fd → Option Descriptor) fd' d, (∀ k, d ≠ some (.conn k)) →
      Function.update fds fd' d fd = some (.conn k) → fds fd = some (.conn k) := by
    intro fds fd' d other same
    by_cases this : fd = fd'
    · subst this
      exact absurd (by simpa using same) (other k)
    · simpa [this] using same
  cases taken with
  | sched taken =>
    cases taken with
    | pipe => exact .inl (updated _ _ _ (by simp) (updated _ _ _ (by simp) here))
    | forkFailed => exact .inl (updated _ _ _ (by simp) (updated _ _ _ (by simp) here))
    | closeWrite | closeRead => exact .inl (updated _ _ _ (by simp) here)
    | _ => exact .inl (by simpa using here)
  | worker taken =>
    cases taken with
    | close => exact .inl (updated _ _ _ (by simp) here)
    | _ => exact .inl (by simpa using here)
  | main taken =>
    cases taken with
    | @accepted fd' there answer =>
      by_cases same : fd = fd'
      · subst same
        exact .inr ⟨by simpa using here.symm, rfl, _, rfl, there, answer⟩
      · exact .inl (by simpa [same] using here)
    | accept | notAccepted | setupFailed | spawnFailed => exact .inl (updated _ _ _ (by simp) here)
    | _ => exact .inl (by simpa using here)

theorem step_pending (inv : Inv s) (taken : Step s e t) (pending : Pending t p) :
    Pending s p ∨ ∃ c, s.worker c = .enqueue p := by
  cases taken with
  | sched taken =>
    have frame := taken.frame
    left
    cases pending with
    | queued member =>
      cases taken with
      | dequeue here found => exact .queued ((dequeue_mem found p).mpr (.inr member))
      | requeue here =>
        rcases List.mem_append.mp member with old | new
        · exact .queued old
        · exact .owed (by rw [List.mem_singleton.mp new, here]; rfl)
      | _ => exact .queued (by simpa using member)
    | owed here =>
      cases taken with
      | dequeue there found =>
        obtain ⟨rfl, member, -⟩ := inv.owned.dequeue inv.tasks there found
        obtain rfl : _ = p := Option.some.inj here
        exact .queued member
      | relay => exact .owed (by simpa using here)
      | update there => exact .owed (by rw [there, ← here, setPc_pc, afterUpdate_owes]; rfl)
      | check there => exact .owed (by rw [there, ← here, setPc_pc, afterCheck_owes]; rfl)
      | countRound there => exact .owed (by rw [there, ← here, setPc_pc, afterQuantum_owes]; rfl)
      | _ => first | exact .owed (by rw [‹s.pc = _›, ← here]; rfl) | cases here
  | worker taken =>
    cases pending with
    | owed here => exact .inl (.owed (taken.frame.pc ▸ here))
    | queued member =>
      cases taken with
      | enqueue here =>
        rcases List.mem_append.mp member with old | new
        · exact .inl (.queued old)
        · exact .inr ⟨_, List.mem_singleton.mp new ▸ here⟩
      | remove => exact .inl (.queued (List.mem_filter.mp member).1)
      | _ => exact .inl (.queued (by simpa using member))
  | main taken =>
    have frame := taken.frame
    cases pending with
    | queued member => exact .inl (.queued (frame.queue ▸ member))
    | owed here => exact .inl (.owed (frame.pc ▸ here))

theorem step_conn (taken : Step s e t) (born : c < s.nextClientId) : t.conn c = s.conn c := by
  cases taken with
  | sched taken => rw [taken.frame.conn]
  | worker taken => rw [taken.frame.conn]
  | main taken => cases taken <;> simp [Nat.ne_of_lt born]

theorem connected_home (inv : Inv s) (fds : FdsOk s) (old : p < s.allocated)
    (connected : (s.worker (s.task p).clientId).connected = true) :
    s.fds (s.task p).clientFd = some (.conn (s.conn (s.task p).clientId)) := by
  rw [inv.clients.taskFd p old]
  exact fds.client _ connected

theorem step_home (ok : PendingHome s) (inv : Inv s) (fds : FdsOk s) (met : acceptsUnused s e = true)
    (taken : Step s e t) : PendingHome t := by
  intro p pending k here
  have before := step_pending inv taken pending
  have old : p < s.allocated := by
    rcases before with pending | ⟨c, creating⟩
    · exact pending.old inv.owned
    · exact (inv.owned.created c p creating).1
  have later := step_later taken old
  rw [later.clientFd] at here
  rw [later.clientId, step_conn taken (inv.clients.taskClient p old)]
  have home : ∀ k, s.fds (s.task p).clientFd = some (.conn k) → k = s.conn (s.task p).clientId := by
    rcases before with pending | ⟨c, creating⟩
    · exact ok p pending
    · have mine := (inv.owned.passed c p (by rw [creating]; rfl)).2
      have same := connected_home inv fds old (by rw [mine, creating]; rfl)
      intro k there
      simpa [same, eq_comm] using there
  rcases step_connection taken here with same | ⟨-, -, a, rfl, main, answer⟩
  · exact home k same
  · rcases before with pending | ⟨c, creating⟩
    · have listed : p ∈ s.queue ++ s.pc.owes.toList := by
        cases pending with
        | queued member => exact List.mem_append_left _ member
        | owed owes => exact List.mem_append_right _ (by simp [owes])
      simp only [acceptsUnused, main, answer, List.all_eq_true, decide_eq_true_eq] at met
      exact absurd rfl (met p listed)
    · have mine := (inv.owned.passed c p (by rw [creating]; rfl)).2
      exact absurd rfl (fds.apartOfAccepting main (connected_home inv fds old (by rw [mine, creating]; rfl)) (by simp))

theorem run_home (run : ServerRun (acceptsUnused · ·) s) : PendingHome s := by
  refine run.invariant_of (J := fun s => Inv s ∧ FdsOk s) (fun run => ⟨run_inv run, run_fds run⟩) ?_
    fun inv _ ok met taken => step_home ok inv.1 inv.2 met (step_cases taken)
  intro p pending
  cases pending with
  | queued member => simp [State.initial] at member
  | owed here => cases here

/-! ### The writes -/

theorem step_writes (taken : Step s e t) : t.writes = s.writes ∨ ∃ w, t.writes = s.writes ++ [w] ∧
    ∀ p, w.task = some p → s.pc.owes = some p ∧ w.target = connection (s.fds (s.task p).clientFd) := by
  cases taken with
  | sched taken =>
    rcases taken.wrote with same | ⟨w, q, appended, here, wrote⟩
    · exact .inl same
    · refine .inr ⟨w, appended, fun p mine => ?_⟩
      obtain rfl := Option.some.inj (wrote.task.symm.trans mine)
      exact ⟨owes_of_writing here, wrote.target⟩
  | worker taken =>
    rcases taken.wrote with same | ⟨w, appended, own⟩
    · exact .inl same
    · exact .inr ⟨w, appended, fun p mine => by simp [own.task] at mine⟩
  | main taken => exact .inl taken.frame.writes

theorem connected_or_closed {pc : WorkerPc} (present : pc ≠ .absent) : pc.connected = true ∨ pc.closed = true := by
  cases pc <;> simp_all [WorkerPc.connected, WorkerPc.closed]

theorem step_closed (clients : ClientsOk s) (taken : Step s e t) (closed : (s.worker c).closed = true) :
    (t.worker c).closed = true := by
  cases taken with
  | sched taken => rwa [taken.frame.worker]
  | @worker c' a _ taken =>
    by_cases same : c = c'
    · subst same
      cases taken <;> simp_all [WorkerPc.closed]
    · rwa [taken.frame.worker c same]
  | main taken =>
    have running : s.main ≠ .spawn c := fun here => by simp [(clients.spawning c here).2, WorkerPc.closed] at closed
    rwa [taken.worker running]

def WritesOk (s : State) : Prop := ∀ w ∈ s.writes, (∀ p, w.task = some p → p < s.allocated) ∧ Delivered s w

theorem Delivered.next {w : Write} (ok : Delivered s w) (inv : Inv s) (taken : Step s e t)
    (known : ∀ p, w.task = some p → p < s.allocated) : Delivered t w := by
  intro p written
  have old := known p written
  rw [(step_later taken old).clientId, step_conn taken (inv.clients.taskClient p old)]
  rcases ok p written with home | ⟨nowhere, closed⟩
  · exact .inl home
  · exact .inr ⟨nowhere, step_closed inv.clients taken closed⟩

theorem delivered_now {w : Write} (home : PendingHome s) (inv : Inv s) (fds : FdsOk s)
    (target : ∀ p, w.task = some p → s.pc.owes = some p ∧ w.target = connection (s.fds (s.task p).clientFd)) :
    Delivered s w := by
  intro p written
  obtain ⟨owes, goes⟩ := target p written
  have old := (inv.owned.held p (held_of_owes owes)).1
  by_cases connected : (s.worker (s.task p).clientId).connected = true
  · rw [goes, connected_home inv fds old connected]
    exact .inl rfl
  · have closed := (connected_or_closed (inv.clients.started p old)).resolve_left connected
    rw [goes]
    cases denoted : s.fds (s.task p).clientFd with
    | none => exact .inr ⟨rfl, closed⟩
    | some d =>
      cases d with
      | conn k => exact .inl (by rw [home p (.owed owes) k denoted]; rfl)
      | pipe | reserved | other => exact .inr ⟨rfl, closed⟩

theorem step_writesOk (ok : WritesOk s) (home : PendingHome s) (inv : Inv s) (fds : FdsOk s)
    (taken : Step s e t) : WritesOk t := by
  have more := step_allocated taken
  have kept : ∀ w ∈ s.writes, (∀ p, w.task = some p → p < t.allocated) ∧ Delivered t w := fun w member =>
    ⟨fun p written => Nat.lt_of_lt_of_le ((ok w member).1 p written) more,
      (ok w member).2.next inv taken (ok w member).1⟩
  rcases step_writes taken with same | ⟨w, appended, target⟩
  · intro w member
    exact kept w (same ▸ member)
  · have known : ∀ p, w.task = some p → p < s.allocated := fun p written =>
      (inv.owned.held p (held_of_owes (target p written).1)).1
    intro w' member
    rw [appended] at member
    rcases List.mem_append.mp member with old | new
    · exact kept w' old
    · obtain rfl := List.mem_singleton.mp new
      exact ⟨fun p written => Nat.lt_of_lt_of_le (known p written) more,
        (delivered_now home inv fds target).next inv taken known⟩

/-- Where `accept` returns no number that a task with output to come still stores, all that is written
for a task goes to the connection of its client, or to none once it is closed. -/
theorem run_delivered (run : ServerRun (acceptsUnused · ·) s) : ∀ w ∈ s.writes, Delivered s w := by
  have ok : WritesOk s := run.invariant_of (J := fun s => Inv s ∧ FdsOk s ∧ PendingHome s)
    (fun run => ⟨run_inv run, run_fds run, run_home run⟩) (by simp [WritesOk, State.initial])
    fun inv _ ok _ taken => step_writesOk ok inv.2.2 inv.1 inv.2.1 (step_cases taken)
  exact fun w member => (ok w member).2

theorem run_delivered_demo : ∃ s, ServerRun (acceptsUnused · ·) s ∧
    s.writes.map (·.target) = [some 0, some 1] ∧ ∀ w ∈ s.writes, Delivered s w := by
  obtain ⟨s, run, seen⟩ := serverRun_by (acceptsUnused · ·)
    (Event.connect 5 ++ Event.connect 6 ++ Event.submit 1 "demo 9" ++ Event.schedule 8 ++
      Event.submit 2 "demo 2" ++ Event.schedule 17)
    (fun s => s.writes.map (·.target) = [some 0, some 1]) (by decide +kernel)
  exact ⟨s, run, of_decide_eq_true seen, run_delivered run⟩

/-- The client leaves while its demo runs, and a new connection gets its number. -/
theorem output_reaches_stranger : ¬ ∀ s, ServerRun Machine.always s → ∀ w ∈ s.writes, Delivered s w := by
  intro claimed
  obtain ⟨s, run, seen⟩ := serverRun_by Machine.always
    (Event.connect 5 ++ Event.submit 1 "demo 9" ++ Event.schedule 7 ++ Event.leave 1 ++ [.worker 1 {}] ++
      Event.connect 5 ++ Event.schedule 1)
    (fun s => (s.task 0).clientId = 1 ∧ s.conn 1 = 0 ∧
      ∃ w ∈ s.writes, w.task = some 0 ∧ w.target = some 1) (by decide +kernel)
  obtain ⟨client, conn, w, member, written, target⟩ := of_decide_eq_true seen
  rcases claimed s run w member 0 written with home | ⟨nowhere, -⟩
  · simp [target, client, conn] at home
  · simp [target] at nowhere

end MyShell
