import MyShell.System.Conversation
import MyShell.Server.Disconnect
import MyShell.Server.Lifetime
import MyShell.Server.Placement
import Mathlib.Data.List.Nodup

/-! # The responses that the clients show

With the clients of this repository a response always belongs to the command before it: the responses that
a client has shown are the output of its commands, in order. Nothing is written on a connection whose client
has left, and no client ever has two commands at the scheduler. -/

namespace MyShell

open State

namespace Network

variable {n : Network} {s t : State} {e : Event} {p q : Ptr} {c : ClientId} {k : ConnId} {sent shown : CString}
  {stdin : ConnId → CString} {r : Response}

/-! ### Two clients -/

def typing : ConnId → CString
  | 0 => "demo 1\n\nexit\n".toList
  | 1 => "demo 4\n".toList
  | _ => []

def bothAsk : List NetEvent :=
  (Event.connect 5 ++ Event.connect 6).map .server ++ [.enter 0 .all, .enter 1 .all] ++
    (Event.submit 2 "demo 4\n" ++ Event.schedule 8 ++ Event.submit 1 "demo 1\n").map .server

def bothAnswered : List NetEvent :=
  bothAsk ++ (Event.schedule 80).map .server ++
    [.receive 0 ⟨"Demo 0/1\nDemo".toList, by decide, by decide⟩,
      .receive 0 ⟨" 1/1\n<<END>>".toList, by decide, by decide⟩, .enter 0 .all,
      .server (.worker 1 { read := some "\n".toList }), .server (.worker 1 {}), .server (.worker 1 {}),
      .receive 0 ⟨END_MARKER, by decide, by decide⟩, .enter 0 .all]

theorem netRun_by (stdin : ConnId → CString) (events : List NetEvent) (test : Network → Bool)
    (passed : (Machine.follow Network.step (Network.orderly · ·) (start stdin) events).any test = true) :
    ∃ n, NetRun stdin n ∧ test n = true :=
  Machine.exists_run events passed

/-! ### What was typed -/

/-- The standard input is what the exchanges were made of, the line that is being answered, and what is not
yet read. -/
def Typed (text : CString) (client : Client) : Prop :=
  match client.pc with
  | .prompt => text = client.exchanges.flatMap (·.sent) ++ client.stdin
  | .receiving sent _ => text = client.exchanges.flatMap (·.sent) ++ sent ++ client.stdin ∧ sent ≠ []
  | .closed => client.exchanges.flatMap (·.sent) <+: text

theorem readUpTo_append (n : Nat) (stream : CString) :
    (Shell.readUpTo n stream).1 ++ (Shell.readUpTo n stream).2 = stream := by
  fun_induction Shell.readUpTo n stream with
  | case4 n c stream other line rest read ih =>
    rw [read] at ih
    rw [List.cons_append, ih]
  | _ => rfl

theorem readUpTo_ne_nil {stream : CString} (n : Nat) (some_ : stream ≠ []) : (Shell.readUpTo (n + 1) stream).1 ≠ [] := by
  cases stream with
  | nil => exact absurd rfl some_
  | cons c stream =>
    unfold Shell.readUpTo
    split <;> simp

theorem typed_enter {text sent : CString} {client client' : Client} {end_ : Sent} (typed : Typed text client)
    (here : client.pc = .prompt) (visible : NUL ∉ text) (entered : client.enter end_ = (sent, client')) :
    Typed text client' := by
  simp only [Typed, here] at typed
  unfold Client.enter at entered
  split at entered
  · obtain ⟨-, rfl⟩ := Prod.mk.inj entered
    exact typed ▸ List.prefix_append ..
  · rename_i buffer stdin read
    obtain ⟨more, same⟩ := Option.ite_none_left_eq_some.mp read
    have nonempty : (Shell.readUpTo (BUFFER_SIZE - 1) client.stdin).1 ≠ [] := readUpTo_ne_nil 4094 more
    have same := Option.some.inj same
    have whole := readUpTo_append (BUFFER_SIZE - 1) client.stdin
    rw [same] at whole nonempty
    have noNul : NUL ∉ buffer := fun member => visible (by
      rw [typed, ← whole]
      exact List.mem_append_right _ (List.mem_append_left _ member))
    have start : client.exchanges.flatMap (·.sent) <+: text := typed ▸ List.prefix_append ..
    cases end_ with
    | failed =>
      obtain ⟨-, rfl⟩ := Prod.mk.inj entered
      exact start
    | all =>
      obtain ⟨-, rfl⟩ := Prod.mk.inj entered
      rw [cString_eq_self noNul]
      by_cases leaves : isExit buffer = true
      · simpa [Typed, leaves] using start
      · simpa [Typed, leaves, whole, nonempty] using typed

theorem typed_receive {text sent : CString} {client : Client} {chunk : Chunk} (typed : Typed text client)
    (here : client.pc = .receiving sent r) : Typed text (client.receive sent r chunk) := by
  simp only [Typed, here] at typed
  unfold Client.receive
  split
  · simpa [Typed] using typed.1
  · exact typed.1 ▸ (List.prefix_append ..).trans (List.prefix_append ..)
  · exact typed

theorem run_typed (run : NetRun stdin n) (visible : NUL ∉ stdin k) : Typed (stdin k) (n.client k) := by
  refine run.invariant (I := fun n => Typed (stdin k) (n.client k)) ?_ fun {n ev m} typed _ taken => ?_
  · simp [Typed, start]
  · cases step_cases taken with
    | server => exact typed
    | @enter k' _ _ _ here entered =>
      by_cases same : k = k'
      · subst same
        simpa [setClient] using typed_enter typed here visible entered
      · simpa [setClient, same] using typed
    | @receive k' _ _ _ _ here =>
      by_cases same : k = k'
      · subst same
        simpa [setClient] using typed_receive typed here
      · simpa [setClient, same] using typed
    | @giveUp k' _ _ here =>
      by_cases same : k = k'
      · subst same
        simp only [Typed, here] at typed
        simp only [Typed, setClient, Function.update_self]
        exact typed.1 ▸ (List.prefix_append ..).trans (List.prefix_append ..)
      · simpa [setClient, same] using typed

/-! ### What was shown -/

theorem Told.init {xs : List Exchange} {jobs : List Job} (told : Told s (xs ++ [⟨sent, shown⟩]) jobs) :
    ∃ done last, jobs = done ++ last ∧ last.length ≤ 1 ∧ Told s xs done := by
  have empty : ∀ x ∈ xs, commandOf x.sent = [] → x.shown = [] := fun x member =>
    told.empty x (List.mem_append_left _ member)
  have each := told.jobs
  by_cases nothing : commandOf sent = []
  · rw [List.filter_append, List.filter_cons_of_neg (by simpa using nothing), List.filter_nil, List.append_nil] at each
    exact ⟨jobs, [], (List.append_nil _).symm, Nat.zero_le _, empty, each⟩
  · rw [List.filter_append, List.filter_cons_of_pos (by simpa using nothing), List.filter_nil] at each
    have before := List.forall₂_take (xs.filter fun x => commandOf x.sent ≠ []).length each
    have one := (List.forall₂_drop (xs.filter fun x => commandOf x.sent ≠ []).length each).length_eq
    rw [List.take_left] at before
    rw [List.drop_left] at one
    exact ⟨_, _, (List.take_append_drop ..).symm, one.symm.le, empty, before⟩

theorem Told.job {xs : List Exchange} {jobs : List Job} {x : Exchange} (told : Told s xs jobs) (member : x ∈ xs)
    (nonempty : commandOf x.sent ≠ []) : ∃ job ∈ jobs, x.shown = s.outOf job ∧
      ∀ p, job = .task p → (s.task p).command = commandOf x.sent := by
  have among : x ∈ xs.filter fun x => commandOf x.sent ≠ [] := List.mem_filter.mpr ⟨member, decide_eq_true nonempty⟩
  obtain ⟨-, each⟩ := told
  generalize xs.filter (fun x => commandOf x.sent ≠ []) = commands at among each
  induction each with
  | nil => cases among
  | cons here _ ih =>
    rcases List.mem_cons.mp among with rfl | later
    · exact ⟨_, List.mem_cons_self .., here⟩
    · obtain ⟨job, inside, same⟩ := ih later
      exact ⟨job, List.mem_cons_of_mem _ inside, same⟩

theorem Phase.jobs_shown {client : Client} {up down : CString} (phase : Phase s c client up down) :
    ∃ done last, s.jobs c = done ++ last ∧ last.length ≤ 1 ∧ (∀ job ∈ done, s.answered job = true) ∧
      Told s client.exchanges done := by
  cases phase with
  | prompt _ answered told | left _ answered told | sent _ _ answered told =>
    exact ⟨s.jobs c, [], (List.append_nil _).symm, Nat.zero_le _, answered, told⟩
  | handled _ _ jobs answered _ told =>
    refine ⟨_, _, jobs, ?_, fun job member => answered job (jobs ▸ List.mem_append_left _ member), told⟩
    cases s.worker c <;> simp [WorkerPc.refused]
  | running _ _ _ jobs answered _ _ _ _ told => exact ⟨_, _, jobs, Nat.le_refl _, answered, told⟩
  | reply _ _ answered _ _ told =>
    obtain ⟨done, last, split, one, told⟩ := told.init
    exact ⟨done, last, split, one, fun job member => answered job (split ▸ List.mem_append_left _ member), told⟩

/-- However the threads, the clients and the network interleave, a client has shown for the lines of its
standard input, in order, the output of the commands in them, each once; at most one command waits. -/
theorem run_shown (run : NetRun stdin n) (present : n.server.worker c ≠ .absent)
    (visible : NUL ∉ stdin (n.server.conn c)) :
    ((n.client (n.server.conn c)).exchanges.flatMap (·.sent) <+: stdin (n.server.conn c)) ∧
      ∃ done last, n.server.jobs c = done ++ last ∧ last.length ≤ 1 ∧ (∀ job ∈ done, n.server.answered job = true) ∧
        Told n.server (n.client (n.server.conn c)).exchanges done := by
  refine ⟨?_, ((run_turns run).served c present).jobs_shown⟩
  have typed := run_typed run visible
  unfold Typed at typed
  split at typed
  · exact typed ▸ List.prefix_append ..
  · exact typed.1 ▸ (List.prefix_append ..).trans (List.prefix_append ..)
  · exact typed

theorem run_shown_two : ∃ n, NetRun typing n ∧ (n.client 0).exchanges.map (·.sent) = ["demo 1\n".toList, "\n".toList] ∧
    ∃ done last, n.server.jobs 1 = done ++ last ∧ last.length ≤ 1 ∧ (∀ job ∈ done, n.server.answered job = true) ∧
      Told n.server (n.client 0).exchanges done := by
  obtain ⟨n, run, seen⟩ := netRun_by typing bothAnswered (fun n =>
    n.server.conn 1 = 0 ∧ n.server.worker 1 = .recv ∧
      (n.client 0).exchanges.map (·.sent) = ["demo 1\n".toList, "\n".toList]) (by decide +kernel)
  obtain ⟨conn, worker, sent⟩ := of_decide_eq_true seen
  have shown := run_shown (c := 1) run (by simp [worker]) (by rw [conn]; decide)
  rw [conn] at shown
  exact ⟨n, run, sent, shown.2⟩

/-! ### What is written -/

/-- Nothing is written to a client that has left, to another client or to no connection at all. -/
theorem run_allHome (run : NetRun stdin n) :
    ∀ w ∈ n.server.writes, w.target = some (n.server.conn w.client) ∧ w.sent = .all := fun w member =>
  ((run_turns run).home w member).2

theorem run_allHome_two : ∃ n, NetRun typing n ∧ (n.server.writes.map (·.client)) = [2, 1, 1, 1, 2, 2, 2, 2, 2, 1] ∧
    ∀ w ∈ n.server.writes, w.target = some (n.server.conn w.client) ∧ w.sent = .all := by
  obtain ⟨n, run, seen⟩ := netRun_by typing bothAnswered
    (fun n => (n.server.writes.map (·.client)) = [2, 1, 1, 1, 2, 2, 2, 2, 2, 1]) (by decide +kernel)
  exact ⟨n, run, of_decide_eq_true seen, run_allHome run⟩

theorem Phase.one_open {client : Client} {up down : CString} (phase : Phase s c client up down)
    (listed : .task p ∈ s.jobs c) (listed' : .task q ∈ s.jobs c) (unmarked : s.marked p = false)
    (unmarked' : s.marked q = false) : p = q := by
  have last {done : List Job} {job} {p} (split : s.jobs c = done ++ [job]) (member : .task p ∈ s.jobs c)
      (answered : ∀ job ∈ done, s.answered job = true) (unmarked : s.marked p = false) : Job.task p = job := by
    rcases List.mem_append.mp (split ▸ member) with old | new
    · exact absurd (answered _ old) (by simp [State.answered, unmarked])
    · exact List.mem_singleton.mp new
  cases phase with
  | prompt _ answered | left _ answered | sent _ _ answered | handled _ _ _ answered | reply _ _ answered =>
    exact absurd answered (unanswered unmarked listed)
  | running _ _ _ jobs answered =>
    exact Job.task.inj ((last jobs listed answered unmarked).trans (last jobs listed' answered unmarked').symm)

theorem held_of_marked {pc : SchedPc} (here : pc.marked = some p) : pc.held = some p := by
  cases pc <;> first | exact here | cases here

/-- A client never has two commands that wait, wherever they are; so the queue holds no two tasks of one
client, and none of the client whose task the scheduler has and has not answered. -/
theorem run_one_open (run : NetRun stdin n) :
    (∀ p q, p < n.server.allocated → q < n.server.allocated → n.server.marked p = false → n.server.marked q = false →
      (n.server.task p).clientId = (n.server.task q).clientId → p = q) ∧
    (n.server.queue.map fun p => (n.server.task p).clientId).Nodup := by
  have server := run_server run
  have inv := run_inv server
  have jobs := run_jobs server
  have alone : ∀ p q, p < n.server.allocated → q < n.server.allocated → n.server.marked p = false →
      n.server.marked q = false → (n.server.task p).clientId = (n.server.task q).clientId → p = q := by
    intro p q old old' unmarked unmarked' same
    have listed := jobs.listed p old
    have listed' := jobs.listed q old'
    rw [← same] at listed'
    have present : n.server.worker (n.server.task p).clientId ≠ .absent := fun absent => by
      simp [run_absent server _ absent] at listed
    exact ((run_turns run).served _ present).one_open listed listed' unmarked unmarked'
  refine ⟨alone, List.Nodup.map_on (fun p member q member' same => ?_) inv.owned.nodup⟩
  have waits : ∀ p ∈ n.server.queue, n.server.marked p = false := fun p member => by
    rw [Bool.eq_false_iff]
    intro marked
    have queued := (inv.owned.queued p member).2
    rcases (run_output server).freed p marked with released | here
    · cases queued.symm.trans released
    · have held := inv.owned.held p (held_of_marked here)
      cases queued.symm.trans held.2
  exact alone p q (inv.owned.queued p member).1 (inv.owned.queued q member').1 (waits p member) (waits q member') same

theorem run_one_open_two : ∃ n, NetRun typing n ∧ n.server.queue = [1] ∧ n.server.pc.held = some 0 ∧
    (n.server.queue.map fun p => (n.server.task p).clientId).Nodup := by
  obtain ⟨n, run, seen⟩ := netRun_by typing bothAsk (fun n => n.server.queue = [1] ∧ n.server.pc.held = some 0)
    (by decide +kernel)
  obtain ⟨queue, held⟩ := of_decide_eq_true seen
  exact ⟨n, run, queue, held, (run_one_open run).2⟩

/-! ### What a client waits for -/

theorem step_freed (taken : MyShell.Step s e t) (old : p < s.allocated) (freed : t.status p = .released) :
    s.status p = .released ∨ frees s e p := by
  cases taken with
  | main taken => exact .inl (taken.frame.status ▸ freed)
  | sched taken =>
    cases taken with
    | @release q e here =>
      by_cases same : p = q
      · exact .inr ⟨e, same ▸ here⟩
      · exact .inl (by simpa [same] using freed)
    | dequeue | requeue =>
      simp only [setPc_status, dequeued_status, enqueueTaskRequeue, onDispatch_status, setStatus_status,
        setQueue_status, Function.update_apply] at freed
      split at freed
      · cases freed
      · exact .inl freed
    | _ => exact .inl (by simpa using freed)
  | worker taken =>
    cases taken with
    | create => exact .inl (by simpa [Nat.ne_of_lt old] using freed)
    | enqueue =>
      simp only [setWorker_status, enqueueTask_status, Function.update_apply] at freed
      split at freed
      · cases freed
      · exact .inl freed
    | remove here =>
      simp only [setWorker_status, removeTasksForClient_status] at freed
      split at freed <;> rename_i mine
      · exact .inr ⟨here, mine⟩
      · exact .inl freed
    | _ => exact .inl (by simpa using freed)

theorem run_freed (run : ServerRun Machine.always s) : ∀ p < s.allocated, s.status p = .released →
    s.marked p = true ∨ (s.worker (s.task p).clientId).removed = true := by
  refine run.invariant_of (J := fun s => Inv s ∧ OutputOk s)
    (I := fun s => ∀ p < s.allocated, s.status p = .released →
      s.marked p = true ∨ (s.worker (s.task p).clientId).removed = true)
    (fun run => ⟨run_inv run, run_output run⟩) (fun p old => absurd old (Nat.not_lt_zero p))
    fun {s e t} known _ ok _ taken p there freed => ?_
  obtain ⟨inv, output⟩ := known
  have taken := MyShell.step_cases taken
  have old : p < s.allocated := by
    cases taken with
    | sched taken => exact taken.frame.allocated ▸ there
    | main taken => exact taken.frame.allocated ▸ there
    | worker taken =>
      rcases taken.created there with old | ⟨rfl, -⟩
      · exact old
      · cases taken <;> simp at there freed
  rw [(step_later taken old).clientId]
  have marked_later : s.marked p = true → t.marked p = true :=
    fun marked => answered_later (writes_grow inv taken) (show s.answered (.task p) = true from marked)
  rcases step_freed taken old freed with before | now
  · exact (ok p old before).imp marked_later (step_removed inv.clients taken)
  · cases taken with
    | sched taken =>
      obtain ⟨e, here⟩ := now
      exact .inl (marked_later (output.marked p (by rw [here]; rfl)))
    | @worker c _ _ taken =>
      obtain ⟨here, mine⟩ := now
      obtain ⟨-, owner⟩ := List.mem_filter.mp mine
      rw [of_decide_eq_true owner]
      cases taken with
      | remove => exact .inr (by simp [WorkerPc.removed])
      | _ => cases here.symm.trans ‹s.worker _ = _›
    | main => exact now.elim

theorem receiveLoop_unseen {alloc : Nat → Bool} {r r' : Response} {answers : List Recv}
    (unseen : strstr r.text END_MARKER = none) (waits : receiveLoop alloc r answers = .waiting r') :
    strstr r'.text END_MARKER = none := by
  induction answers generalizing r with
  | nil => cases waits; exact unseen
  | cons answer answers ih =>
    cases answer with
    | failed | closed => simp [receiveLoop] at waits
    | data chunk =>
      unfold receiveLoop at waits
      split at waits
      · cases waits
      · split at waits
        · cases waits
        · rename_i none
          exact ih none waits

theorem run_unseen (run : NetRun stdin n) (here : (n.client k).pc = .receiving sent r) :
    strstr r.text END_MARKER = none := by
  refine run.invariant (I := fun n => ∀ sent r, (n.client k).pc = .receiving sent r → strstr r.text END_MARKER = none)
    (fun _ _ here => by cases here) (fun {n ev m} unseen _ taken sent r here => ?_) sent r here
  cases step_cases taken with
  | server => exact unseen sent r here
  | @enter k' end_ text client before entered =>
    by_cases same : k = k'
    · subst same
      simp only [setClient, Function.update_self] at here
      unfold Client.enter at entered
      split at entered
      · cases entered
        cases here
      · cases end_ with
        | failed =>
          cases entered
          cases here
        | all =>
          cases entered
          dsimp only at here
          split at here
          · cases here
          · cases here
            decide
    · exact unseen sent r (by simpa [setClient, same] using here)
  | @receive k' text r' chunk rest before arrives =>
    by_cases same : k = k'
    · subst same
      simp only [setClient, Function.update_self] at here
      unfold Client.receive at here
      split at here
      · cases here
      · cases here
      · rename_i response read
        cases here
        exact receiveLoop_unseen (unseen _ _ before) read
    · exact unseen sent r (by simpa [setClient, same] using here)
  | @giveUp k' =>
    by_cases same : k = k'
    · subst same
      simp [setClient] at here
    · exact unseen sent r (by simpa [setClient, same] using here)

/-- Where the answer to the line that a client waits for is. -/
inductive Underway (n : Network) (k : ConnId) (sent : CString) (r : Response) : Prop where
  | unread (here : n.toServer k = sent)
  | handled {c : ClientId} (serves : Serves n.server c k) (handles : (n.server.worker c).handles (commandOf sent))
  | task {c : ClientId} {p : Ptr} (serves : Serves n.server c k) (listed : .task p ∈ n.server.jobs c)
      (command : (n.server.task p).command = commandOf sent)
      (place : n.server.worker c = .enqueue p ∨ p ∈ n.server.queue ∨ n.server.pc.held = some p)
  | lost {c : ClientId} {p : Ptr} (serves : Serves n.server c k) (listed : .task p ∈ n.server.jobs c)
      (command : (n.server.task p).command = commandOf sent) (lost : n.server.Lost p)
  | reply {shown : CString} (whole : r.text ++ n.toClient k = shown ++ END_MARKER) (rest : n.toClient k ≠ [])

theorem run_underway (run : NetRun stdin n) (here : (n.client k).pc = .receiving sent r) : n.Underway k sent r := by
  have server := run_server run
  have turns := run_turns run
  have unseen := run_unseen run here
  by_cases nobody : ∀ c, ¬Serves n.server c k
  · have unserved := turns.unserved k nobody
    generalize n.client k = client at unserved here
    generalize up : n.toServer k = text at unserved
    generalize n.toClient k = rest at unserved
    cases unserved with
    | prompt | left => cases here
    | sent =>
      obtain ⟨rfl, -⟩ := ClientPc.receiving.inj here
      exact .unread up
  · obtain ⟨c, serves⟩ := not_forall_not.mp nobody
    have phase := turns.served c serves.1
    rw [serves.2] at phase
    generalize n.client k = client at phase here
    generalize up : n.toServer k = text at phase
    generalize down : n.toClient k = rest at phase
    cases phase with
    | prompt | left => cases here
    | sent =>
      obtain ⟨rfl, -⟩ := ClientPc.receiving.inj here
      exact .unread up
    | handled _ handles =>
      obtain ⟨rfl, -⟩ := ClientPc.receiving.inj here
      exact .handled serves handles
    | @running _ _ _ _ _ done p _ _ resting jobs _ unmarked command =>
      obtain ⟨rfl, -⟩ := ClientPc.receiving.inj here
      have listed : .task p ∈ n.server.jobs c := jobs ▸ List.mem_append_right _ (List.mem_singleton_self _)
      obtain ⟨old, owner⟩ := (run_jobs server).owner c p listed
      have placed := run_placed server
      cases status : n.server.status p with
      | created =>
        obtain ⟨c', creating⟩ := placed.created p old status
        have mine : c' = c := ((run_inv server).owned.passed c' p (by rw [creating]; rfl)).2.symm.trans owner
        exact .task serves listed command (.inl (mine ▸ creating))
      | queued => exact .task serves listed command (.inr (.inl (placed.queued p old status)))
      | held =>
        rcases placed.held p old status with here | lost
        · exact .task serves listed command (.inr (.inr here))
        · exact .lost serves listed command lost
      | released =>
        rcases run_freed server p old status with marked | removed
        · cases marked.symm.trans unmarked
        · rw [owner] at removed
          rcases resting with idle | creating
          · exact absurd removed (by cases here : n.server.worker c <;> simp_all [WorkerPc.idle, WorkerPc.removed])
          · simp [creating, WorkerPc.removed] at removed
    | reply _ _ _ clean whole =>
      obtain ⟨rfl, rfl⟩ := ClientPc.receiving.inj here
      refine .reply (down ▸ whole) fun nothing => ?_
      rw [← down, nothing, List.append_nil] at whole
      have last := unseen
      rw [whole, strstr, cString_eq_self, Search.firstIndex_append marker_unbordered clean.2] at last
      · cases last
      · exact fun member => (List.mem_append.mp member).elim clean.1 (by decide)

/-- When the server has nothing to do and nothing is on the way, a client waits for one thing only: the
output of a command whose process could not be started, for which the server says nothing. -/
theorem run_at_rest (run : NetRun stdin n) (visible : NUL ∉ stdin k) (looks : n.server.pc = .peek)
    (empty : n.server.queue = []) (listens : ∀ c, Serves n.server c k → n.server.worker c = .recv)
    (up : n.toServer k = []) (down : n.toClient k = []) (waits : (n.client k).pc = .receiving sent r) :
    ∃ c p, Serves n.server c k ∧ .task p ∈ n.server.jobs c ∧ (n.server.task p).command = commandOf sent ∧
      n.server.Lost p := by
  cases run_underway run waits with
  | unread here =>
    have typed := run_typed run visible
    simp only [Typed, waits] at typed
    exact absurd (here.symm.trans up) typed.2
  | handled serves handles => simp [listens _ serves, WorkerPc.handles] at handles
  | task serves listed command place =>
    rcases place with creating | queued | held
    · cases (listens _ serves).symm.trans creating
    · simp [empty] at queued
    · simp [looks, SchedPc.held] at held
  | lost serves listed command lost => exact ⟨_, _, serves, listed, command, lost⟩
  | reply whole rest => exact absurd down rest

theorem run_at_rest_lost : ∃ n, NetRun (fun _ => "ls\n".toList) n ∧ ∃ sent r, (n.client 0).pc = .receiving sent r ∧
    ∃ c p, Serves n.server c 0 ∧ .task p ∈ n.server.jobs c ∧ (n.server.task p).command = commandOf sent ∧
      n.server.Lost p := by
  obtain ⟨n, run, seen⟩ := netRun_by (fun _ => "ls\n".toList)
    ((Event.connect 5).map .server ++ [.enter 0 .all] ++ (Event.submit 1 "ls\n" ++ Event.schedule 9).map .server)
    (fun n => decide (n.server.pc = .peek ∧ n.server.queue = [] ∧ n.server.worker 1 = .recv ∧ n.server.conn 1 = 0 ∧
        n.toServer 0 = [] ∧ n.toClient 0 = []) &&
      (n.client 0).pc.receives) (by decide +kernel)
  obtain ⟨rest, waits⟩ := Bool.and_eq_true_iff.mp seen
  obtain ⟨looks, empty, worker, conn, up, down⟩ := of_decide_eq_true rest
  unfold ClientPc.receives at waits
  split at waits
  · rename_i sent r here
    have alone := run_servedOnce (run_server run)
    refine ⟨n, run, sent, r, here, run_at_rest run (by decide) looks empty (fun c serves => ?_) up down here⟩
    rw [alone c 1 0 serves ⟨by simp [worker], conn⟩, worker]
  · cases waits

/-! ### A demo, from one end to the other -/

theorem run_marked_spent (run : ServerRun Machine.always s) : ∀ p, s.marked p = true →
    (s.task p).type = .demoProgram → (s.task p).remainingTime = 0 := by
  refine run.invariant_of (J := fun s => Inv s ∧ OutputOk s ∧ SpentOk s)
    (I := fun s => ∀ p, s.marked p = true → (s.task p).type = .demoProgram → (s.task p).remainingTime = 0)
    (fun run => ⟨run_inv run, run_output run, run_spent run⟩) (fun p marked => by cases marked)
    fun {s e t} known _ ok _ taken p marked demo => ?_
  obtain ⟨inv, output, spent⟩ := known
  have taken := MyShell.step_cases taken
  have kept : s.marked p = true → (t.task p).remainingTime = 0 := fun before => by
    have old := output.known before
    exact step_spent taken old (ok p before ((step_later taken old).type.symm.trans demo))
  cases taken with
  | main taken => exact kept (marked_of_writes taken.frame.writes ▸ marked)
  | worker taken =>
    rcases taken.wrote with same | ⟨w, appended, own⟩
    · exact kept (marked_of_writes same ▸ marked)
    · exact kept (by simpa [marked_append appended, own.task] using marked)
  | @sched a _ move =>
    rcases move.wrote with same | ⟨w, q, appended, writing, wrote⟩
    · exact kept (marked_of_writes same ▸ marked)
    · rw [marked_append appended, Bool.or_eq_true] at marked
      rcases marked with before | now
      · exact kept before
      · obtain ⟨mine, last⟩ := of_decide_eq_true now
        obtain rfl : q = p := Option.some.inj (wrote.task.symm.trans mine)
        have old := (inv.owned.held q (held_of_writing writing)).1
        have demo := ((move.frame.later q).type).symm.trans demo
        refine step_spent (.sched move) old ?_
        have ending := inv.runs.ending
        cases move with
        | @sendMarker q' e here =>
          rw [here] at writing ending
          obtain rfl : q' = q := Option.some.inj writing
          rcases ending with rfl | rfl
          · cases demo.symm.trans (inv.runs.shell q' (by rw [here]; rfl))
          · exact spent.finishing q' (by rw [here]; rfl)
        | relay | slice =>
          obtain rfl := List.singleton_inj.mp (List.append_cancel_left appended)
          cases last
        | _ => simp at appended

theorem out_demo {N : Nat} (run : ServerRun Machine.always s) (marked : s.marked p = true)
    (command : (s.task p).command = "demo ".toList ++ decimal N) (positive : 0 < N) (small : (N : Int) ≤ INT_MAX) :
    s.out p = (demoMain [decimal N]).stdout := by
  have output := run_output run
  have old := output.known marked
  have argument : 0 < atoi (decimal N) := by
    rw [atoi_decimal small]
    exact Int.ofNat_lt.mpr positive
  have parsed := (run_commands run).parsed p old
  rw [command, parseDemoCommand_decimal, if_pos argument] at parsed
  have demo : (s.task p).type = .demoProgram := by
    by_contra other
    simp [other] at parsed
  rw [if_pos demo] at parsed
  have burst := Option.some.inj parsed
  have text := output.text p old demo
  rw [lines_of_printed (.inr marked), run_marked_spent run p marked demo, Int.sub_zero, ← burst,
    ← demoMain_stdout argument, run_ends run p] at text
  exact List.append_cancel_right text

/-- A client that typed `demo N` and has an answer has shown what the demo program prints for it, however it
was sliced, preempted, cut in pieces and interleaved with the output of other clients; or it was refused. -/
theorem run_shown_demo (run : NetRun stdin n) {x : Exchange} (member : x ∈ (n.client k).exchanges) {N : Nat}
    (command : commandOf x.sent = "demo ".toList ++ decimal N) (positive : 0 < N) (small : (N : Int) ≤ INT_MAX) :
    x.shown = (demoMain [decimal N]).stdout ∨ x.shown = refusal := by
  have turns := run_turns run
  by_cases nobody : ∀ c, ¬Serves n.server c k
  · have unserved := turns.unserved k nobody
    generalize n.client k = client at unserved member
    generalize n.toServer k = up at unserved
    generalize n.toClient k = down at unserved
    cases unserved <;> cases member
  · obtain ⟨c, serves⟩ := not_forall_not.mp nobody
    have phase := turns.served c serves.1
    rw [serves.2] at phase
    obtain ⟨done, last, -, -, answered, told⟩ := phase.jobs_shown
    have nonempty : commandOf x.sent ≠ [] := by simp [command]
    obtain ⟨job, inside, shown, same⟩ := told.job member nonempty
    cases job with
    | refused => exact .inr shown
    | task p =>
      refine .inl (shown.trans (out_demo (run_server run) (answered _ inside) ?_ positive small))
      exact (same p rfl).trans command

theorem run_shown_demo_two : ∃ n, NetRun typing n ∧ ∃ x ∈ (n.client 0).exchanges, x.sent = "demo 1\n".toList ∧
    (x.shown = (demoMain [decimal (1 : Nat)]).stdout ∨ x.shown = refusal) := by
  obtain ⟨n, run, seen⟩ := netRun_by typing bothAnswered
    (fun n => ∃ x ∈ (n.client 0).exchanges, x.sent = "demo 1\n".toList) (by decide +kernel)
  obtain ⟨x, member, sent⟩ := of_decide_eq_true seen
  exact ⟨n, run, x, member, sent, run_shown_demo run member (by rw [sent]; decide) (by decide) (by decide)⟩

end Network

end MyShell
