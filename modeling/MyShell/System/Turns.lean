import MyShell.System.Network

/-! # Taking turns

A client and the worker that serves it take turns: a line goes up only when everything that came down for
the one before it was read. The invariant says for every connection whose turn it is, and how far the
response to the current line has come. -/

namespace MyShell

open State

/-! ### Whose turn it is -/

namespace WorkerPc

def idle : WorkerPc → Prop
  | .recv | .notify _ | .logCreated _ => True
  | _ => False

/-- The worker has the command and has neither made a task of it nor answered it. -/
def handles (command : CString) : WorkerPc → Prop
  | .logCommand text => text = command
  | .emptyMarker => command = []
  | .create text => text = command ∧ command ≠ []
  | .refuse | .refuseMarker => command ≠ []
  | _ => False

def said : WorkerPc → CString
  | .refuseMarker => refusal
  | _ => []

def refused : WorkerPc → List Job
  | .refuse | .refuseMarker => [.refused]
  | _ => []

def resting : WorkerPc → Prop
  | .enqueue _ => True
  | pc => pc.idle

/-- The client has left; `up` is on the way to the worker. -/
def leaving (up : CString) : WorkerPc → Prop
  | .recv | .notify _ | .logCreated _ => up = [] ∨ commandOf up = "exit".toList
  | .logCommand text => text = "exit".toList
  | .remove | .close | .logDisconnected | .done => True
  | _ => False

end WorkerPc

namespace Network

/-- The responses shown for the commands of a client are those of its jobs, in order; to an empty line
nothing was shown. -/
structure Told (s : State) (exchanges : List Exchange) (jobs : List Job) : Prop where
  empty : ∀ x ∈ exchanges, commandOf x.sent = [] → x.shown = []
  jobs : List.Forall₂ (fun x job => x.shown = s.outOf job ∧
      ∀ p, job = .task p → (s.task p).command = commandOf x.sent)
    (exchanges.filter fun x => commandOf x.sent ≠ []) jobs

/-- A line that a client sends and waits for the response to. -/
def Waits (sent : CString) : Prop := commandOf sent ≠ "exit".toList

variable {s t : State} {c : ClientId}

/-- The states of a connection, by the client, the bytes to the server and those to the client. -/
inductive Phase (s : State) (c : ClientId) : Client → CString → CString → Prop where
  | prompt {stdin xs} (idle : (s.worker c).idle) (answered : ∀ job ∈ s.jobs c, s.answered job = true)
      (told : Told s xs (s.jobs c)) : Phase s c ⟨stdin, .prompt, xs⟩ [] []
  | left {stdin xs up down} (leaving : (s.worker c).leaving up) (answered : ∀ job ∈ s.jobs c, s.answered job = true)
      (told : Told s xs (s.jobs c)) : Phase s c ⟨stdin, .closed, xs⟩ up down
  | sent {stdin xs sent} (waits : Waits sent) (idle : (s.worker c).idle)
      (answered : ∀ job ∈ s.jobs c, s.answered job = true) (told : Told s xs (s.jobs c)) :
      Phase s c ⟨stdin, .receiving sent {}, xs⟩ sent []
  | handled {stdin xs sent r down done} (waits : Waits sent) (handles : (s.worker c).handles (commandOf sent))
      (jobs : s.jobs c = done ++ (s.worker c).refused) (answered : ∀ job ∈ s.jobs c, s.answered job = true)
      (said : r.text ++ down = (s.worker c).said) (told : Told s xs done) :
      Phase s c ⟨stdin, .receiving sent r, xs⟩ [] down
  | running {stdin xs sent r down done p} (waits : Waits sent) (nonempty : commandOf sent ≠ [])
      (resting : (s.worker c).idle ∨ s.worker c = .enqueue p) (jobs : s.jobs c = done ++ [.task p])
      (answered : ∀ job ∈ done, s.answered job = true) (unmarked : s.marked p = false)
      (command : (s.task p).command = commandOf sent) (clean : Clean (s.out p))
      (output : r.text ++ down = s.out p) (told : Told s xs done) : Phase s c ⟨stdin, .receiving sent r, xs⟩ [] down
  | reply {stdin xs sent r down shown} (waits : Waits sent) (idle : (s.worker c).idle)
      (answered : ∀ job ∈ s.jobs c, s.answered job = true) (clean : Clean shown)
      (whole : r.text ++ down = shown ++ END_MARKER) (told : Told s (xs ++ [⟨sent, shown⟩]) (s.jobs c)) :
      Phase s c ⟨stdin, .receiving sent r, xs⟩ [] down

/-- A connection that no worker serves yet. -/
inductive Unserved : Client → CString → CString → Prop where
  | prompt {stdin} : Unserved ⟨stdin, .prompt, []⟩ [] []
  | left {stdin up} (leaving : up = [] ∨ commandOf up = "exit".toList) : Unserved ⟨stdin, .closed, []⟩ up []
  | sent {stdin sent} (waits : Waits sent) : Unserved ⟨stdin, .receiving sent {}, []⟩ sent []

/-- What was written went to the client that it is for, and was accepted. -/
def AllHome (s : State) (w : Write) : Prop :=
  s.worker w.client ≠ .absent ∧ w.target = some (s.conn w.client) ∧ w.sent = .all

structure Turns (n : Network) : Prop where
  unserved : ∀ k, (∀ c, ¬Serves n.server c k) → Unserved (n.client k) (n.toServer k) (n.toClient k)
  served : ∀ c, n.server.worker c ≠ .absent →
    Phase n.server c (n.client (n.server.conn c)) (n.toServer (n.server.conn c)) (n.toClient (n.server.conn c))
  home : ∀ w ∈ n.server.writes, AllHome n.server w

variable {n m : Network} {a : Answer} {e : Event} {p : Ptr} {w : Write} {job : Job} {client : Client} {up down : CString}

/-! ### What later steps leave as it was told -/

theorem Told.later {xs : List Exchange} {jobs : List Job} (told : Told s xs jobs)
    (same : ∀ job ∈ jobs, t.outOf job = s.outOf job)
    (command : ∀ p, .task p ∈ jobs → (t.task p).command = (s.task p).command) : Told t xs jobs := by
  obtain ⟨empty, each⟩ := told
  refine ⟨empty, ?_⟩
  generalize xs.filter (fun x => commandOf x.sent ≠ []) = commands at each
  induction each with
  | nil => exact .nil
  | @cons x job commands jobs here _ ih =>
    refine .cons ⟨here.1.trans (same job (List.mem_cons_self ..)).symm, fun p this => ?_⟩
      (ih (fun job member => same job (List.mem_cons_of_mem _ member))
        fun p member => command p (List.mem_cons_of_mem _ member))
    rw [command p (this ▸ List.mem_cons_self ..)]
    exact here.2 p this

theorem Told.snoc {xs : List Exchange} {jobs : List Job} {sent : CString} (told : Told s xs jobs) (job : Job)
    (nonempty : commandOf sent ≠ []) (command : ∀ p, job = .task p → (s.task p).command = commandOf sent) :
    Told s (xs ++ [⟨sent, s.outOf job⟩]) (jobs ++ [job]) where
  empty x member := by
    rcases List.mem_append.mp member with old | new
    · exact told.empty x old
    · rw [List.mem_singleton.mp new]
      exact fun this => absurd this nonempty
  jobs := by
    rw [List.filter_append, List.filter_cons_of_pos (by simpa using nonempty)]
    exact List.rel_append told.jobs (.cons ⟨rfl, command⟩ .nil)

theorem Told.skip {xs : List Exchange} {jobs : List Job} {sent : CString} (told : Told s xs jobs)
    (empty : commandOf sent = []) : Told s (xs ++ [⟨sent, []⟩]) jobs where
  empty x member := by
    rcases List.mem_append.mp member with old | new
    · exact told.empty x old
    · exact fun _ => by rw [List.mem_singleton.mp new]
  jobs := by
    rw [List.filter_append, List.filter_cons_of_neg (by simpa using empty), List.filter_nil, List.append_nil]
    exact told.jobs

theorem out_of_writes (same : t.writes = s.writes) : t.out p = s.out p := by rw [State.out, same]; rfl

theorem still_of_writes (same : t.writes = s.writes) (unmarked : s.marked p = false) :
    t.out p = s.out p ∧ t.marked p = false :=
  ⟨out_of_writes same, (marked_of_writes same).trans unmarked⟩

theorem outOf_answered (inv : Inv s) (output : OutputOk s) (taken : MyShell.Step s e t)
    (answered : s.answered job = true) : t.outOf job = s.outOf job := by
  cases job with
  | refused => rfl
  | task p =>
    have silent : ∀ w, t.writes = s.writes ++ [w] → w.task ≠ some p → t.out p = s.out p := fun w appended other => by
      simp [out_append appended, other]
    show t.out p = s.out p
    cases taken with
    | main taken => exact out_of_writes taken.frame.writes
    | worker taken =>
      rcases taken.wrote with quiet | ⟨w, appended, own⟩
      · exact out_of_writes quiet
      · exact silent w appended (by simp [own.task])
    | sched taken =>
      rcases taken.wrote with quiet | ⟨w, q, appended, here, wrote⟩
      · exact out_of_writes quiet
      · refine silent w appended fun mine => ?_
        have unmarked := output.unmarked inv (held_of_writing here) (unmarked_of_writing here)
        obtain rfl : q = p := Option.some.inj (wrote.task.symm.trans mine)
        exact absurd answered (by simp [State.answered, unmarked])

theorem job_later (run : ServerRun Machine.always s) (taken : MyShell.Step s e t) (listed : .task p ∈ s.jobs c) :
    (t.task p).command = (s.task p).command :=
  (step_later taken ((run_jobs run).owner c p listed).1).command

theorem told_later (xs : List Exchange) (jobs : List Job) (run : ServerRun Machine.always s)
    (taken : MyShell.Step s e t) (own : ∀ job ∈ jobs, job ∈ s.jobs c) (answered : ∀ job ∈ jobs, s.answered job = true)
    (told : Told s xs jobs) : Told t xs jobs :=
  told.later (fun job member => outOf_answered (run_inv run) (run_output run) taken (answered job member))
    fun _ member => job_later run taken (own _ member)

theorem answered_step (job : Job) (run : ServerRun Machine.always s) (taken : MyShell.Step s e t)
    (answered : s.answered job = true) : t.answered job = true :=
  answered_later (writes_grow (run_inv run) taken) answered

theorem leaving_idle {pc : WorkerPc} (idle : pc.idle) : pc.leaving up ↔ up = [] ∨ commandOf up = "exit".toList := by
  cases pc <;> first | exact Iff.rfl | cases idle

theorem resting_of_idle {pc : WorkerPc} (idle : pc.idle) : pc.resting := by
  cases pc <;> first | exact idle | cases idle

theorem not_handles {pc : WorkerPc} {command : CString} (resting : pc.resting) : ¬pc.handles command := by
  cases pc <;> first | exact id | cases resting

/-- A step that does nothing for a client, or by which its worker comes to rest, leaves it where it is. -/
theorem Phase.keep (phase : Phase s c client up down) (run : ServerRun Machine.always s) (taken : MyShell.Step s e t)
    (worker : t.worker c = s.worker c ∨ (s.worker c).resting ∧ (t.worker c).idle) (jobs : t.jobs c = s.jobs c)
    (quiet : ∀ p, .task p ∈ s.jobs c → s.marked p = false → t.out p = s.out p ∧ t.marked p = false) :
    Phase t c client up down := by
  have told {xs jobs} := told_later xs jobs (c := c) run taken
  have answers : (∀ job ∈ s.jobs c, s.answered job = true) → ∀ job ∈ t.jobs c, t.answered job = true :=
    fun answered job member => answered_step job run taken (answered job (jobs ▸ member))
  have rests : (s.worker c).idle → (t.worker c).idle := fun idle => worker.elim (· ▸ idle) (·.2)
  cases phase with
  | prompt idle answered before =>
    refine .prompt (rests idle) (answers answered) ?_
    rw [jobs]
    exact told (fun _ member => member) answered before
  | @left _ _ up _ leaving answered before =>
    have leaves : (t.worker c).leaving up := by
      rcases worker with same | ⟨resting, idle⟩
      · exact same ▸ leaving
      · rw [leaving_idle idle]
        cases here : s.worker c with
        | recv | notify | logCreated | enqueue =>
          rw [here] at leaving
          first | exact leaving | cases leaving
        | _ => simp [here, WorkerPc.resting, WorkerPc.idle] at resting
    refine .left leaves (answers answered) ?_
    rw [jobs]
    exact told (fun _ member => member) answered before
  | sent waits idle answered before =>
    refine .sent waits (rests idle) (answers answered) ?_
    rw [jobs]
    exact told (fun _ member => member) answered before
  | @handled _ _ _ _ _ done waits handles split answered said before =>
    have part : ∀ job ∈ done, job ∈ s.jobs c := fun job member => split ▸ List.mem_append_left _ member
    have same := worker.resolve_right fun resting => not_handles resting.1 handles
    exact .handled waits (same ▸ handles) (by rw [jobs, same, split]) (answers answered) (same ▸ said)
      (told part (fun job member => answered job (part job member)) before)
  | @running _ _ _ _ _ done p waits nonempty resting split answered unmarked command clean output before =>
    have part : ∀ job ∈ done, job ∈ s.jobs c := fun job member => split ▸ List.mem_append_left _ member
    have mine : .task p ∈ s.jobs c := split ▸ List.mem_append_right _ (List.mem_singleton_self _)
    have rests : (t.worker c).idle ∨ t.worker c = .enqueue p := worker.elim (· ▸ resting) fun both => .inl both.2
    obtain ⟨same, still⟩ := quiet p mine unmarked
    refine .running waits nonempty rests (jobs ▸ split)
      (fun job member => answered_step job run taken (answered job member)) still ?_ (same ▸ clean) (same ▸ output)
      (told part answered before)
    rw [job_later run taken mine]
    exact command
  | reply waits idle answered clean whole before =>
    refine .reply waits (rests idle) (answers answered) clean whole ?_
    rw [jobs]
    exact told (fun _ member => member) answered before

/-! ### The scheduler writes -/

theorem unanswered (unmarked : s.marked p = false) (listed : .task p ∈ s.jobs c) :
    ¬∀ job ∈ s.jobs c, s.answered job = true := fun answered => by
  have marked : s.marked p = true := answered _ listed
  rw [unmarked] at marked
  cases marked

theorem Phase.writes (phase : Phase s c client up down) (run : ServerRun Machine.always s) (taken : SchedStep s a t)
    {q : Ptr} (appended : t.writes = s.writes ++ [w]) (writing : s.pc.writing = some q) (wrote : w.ForTask s q)
    (mine : (s.task q).clientId = c) (clean : w.endMarker = false → Clean (t.out q))
    (may : w.sent = .all ∨ client.hasLeft = true) :
    Phase t c client up (down ++ w.accepted) ∧ w.sent = .all := by
  have inv := run_inv run
  have frame := taken.frame
  have held := inv.owned.held q (held_of_writing writing)
  have unmarked := (run_output run).unmarked inv (held_of_writing writing) (unmarked_of_writing writing)
  have listed : .task q ∈ s.jobs c := mine ▸ (run_jobs run).listed q held.1
  have open_ := unanswered unmarked listed
  cases phase with
  | prompt _ answered | left _ answered | sent _ _ answered | handled _ _ _ answered | reply _ _ answered =>
    exact absurd answered open_
  | @running _ _ sent r _ done p waits nonempty resting split answered fresh command cleanBefore output before =>
    have all : w.sent = .all := may.resolve_right (by simp [Client.hasLeft])
    have accepted : w.accepted = w.data := by rw [Write.accepted, all]
    obtain rfl : q = p := by
      rcases List.mem_append.mp (split ▸ listed) with old | new
      · exact absurd (answered _ old) (by simp [State.answered, unmarked])
      · exact Job.task.inj (List.mem_singleton.mp new)
    have jobs : t.jobs c = done ++ [.task q] := by rw [frame.jobs, split]
    have part : ∀ job ∈ done, job ∈ s.jobs c := fun job member => split ▸ List.mem_append_left _ member
    have told := told_later _ _ run (.sched taken) part answered before
    have still : ∀ job ∈ done, t.answered job = true := fun job member =>
      answered_step job run (.sched taken) (answered job member)
    have kept : (t.task q).command = commandOf sent := (job_later run (.sched taken) listed).trans command
    rw [accepted]
    refine ⟨?_, all⟩
    cases last : w.endMarker with
    | false =>
      have out : t.out q = s.out q ++ w.data := by simp [out_append appended, wrote.task, last]
      refine .running waits nonempty (frame.worker ▸ resting) jobs still ?_ kept (clean last) ?_ told
      · simp [marked_append appended, fresh, last]
      · rw [out, ← output, List.append_assoc]
    | true =>
      have out : t.out q = s.out q := by simp [out_append appended, last]
      have marked : t.marked q = true := by simp [marked_append appended, wrote.task, last]
      have idle : (s.worker c).idle := resting.resolve_right fun creating => by
        simp [(inv.owned.created c q creating).2] at held
      have answers : ∀ job ∈ t.jobs c, t.answered job = true := fun job member => by
        rcases List.mem_append.mp (jobs ▸ member) with old | new
        · exact still job old
        · exact List.mem_singleton.mp new ▸ marked
      refine .reply waits (frame.worker ▸ idle) answers cleanBefore ?_ ?_
      · rw [wrote.marker last, ← output, List.append_assoc]
      · rw [jobs]
        have shown : t.outOf (.task q) = s.out q := out
        exact shown ▸ told.snoc (.task q) nonempty fun p this => Job.task.inj this ▸ kept

/-! ### The worker -/

theorem Phase.receives (phase : Phase s c client up down) (run : ServerRun Machine.always s)
    (taken : WorkerStep s c a t) (here : s.worker c = .recv) (ended : a.read.getD [] = [] → client.hasLeft = true)
    (whole : a.read.getD [] ≠ [] → a.read = some up) : Phase t c client (up.drop (a.read.getD []).length) down := by
  have told {xs jobs} := told_later xs jobs (c := c) run (.worker taken)
  have answers {job} := answered_step job run (.worker taken)
  cases taken with
  | recvEnd _ answer =>
    have left : client.hasLeft = true := ended (by rcases answer with none | nothing <;> simp [*])
    cases phase with
    | left leaving answered before =>
      exact .left (by simp [WorkerPc.leaving]) (fun job member => answers (answered job member))
        (told (fun _ member => member) answered before)
    | _ => simp [Client.hasLeft] at left
  | @recv chunk _ answer nonempty =>
    obtain rfl : chunk = up := by simpa [answer, nonempty] using whole
    have gone : chunk.drop (a.read.getD []).length = [] := by simp [answer]
    rw [gone]
    cases phase with
    | prompt | handled | running | reply => exact absurd rfl nonempty
    | left leaving answered before =>
      have isExit : commandOf chunk = "exit".toList := by
        rw [here] at leaving
        exact leaving.resolve_left nonempty
      exact .left (by simpa [WorkerPc.leaving] using isExit) (fun job member => answers (answered job member))
        (told (fun _ member => member) answered before)
    | sent waits _ answered before =>
      exact .handled waits (by simp [WorkerPc.handles]) (by simp [WorkerPc.refused])
        (fun job member => answers (answered job member)) (by simp [WorkerPc.said])
        (told (fun _ member => member) answered before)
  | _ => cases here.symm.trans ‹s.worker c = _›

theorem clean_nil : Clean [] := by decide

theorem clean_refusal : Clean refusal := by decide

theorem Phase.answers (phase : Phase s c client up down) (run : ServerRun Machine.always s)
    (taken : WorkerStep s c a t) (appended : t.writes = s.writes ++ [w])
    (may : w.sent = .all ∨ client.hasLeft = true) :
    Phase t c client up (down ++ w.accepted) ∧ w.sent = .all := by
  have told {xs jobs} := told_later xs jobs (c := c) run (.worker taken)
  have answers {job} := answered_step job run (.worker taken)
  have busy : (∃ command, (s.worker c).handles command) := by
    cases taken with
    | emptyMarker here => exact ⟨[], here ▸ rfl⟩
    | refuse here | refuseMarker here => exact ⟨END_MARKER, by rw [here]; exact (by decide : END_MARKER ≠ [])⟩
    | _ => simp at appended
  have awake : ¬(s.worker c).resting := fun resting => busy.elim fun _ => not_handles resting
  cases phase with
  | prompt idle | sent _ idle | reply _ idle => exact absurd (resting_of_idle idle) awake
  | running _ _ resting =>
    rcases resting with idle | creating
    · exact absurd (resting_of_idle idle) awake
    · exact absurd (creating ▸ trivial) awake
  | left leaving =>
    cases taken with
    | emptyMarker here | refuse here | refuseMarker here => simp [here, WorkerPc.leaving] at leaving
    | _ => simp at appended
  | @handled _ _ sent r _ done waits handles jobs answered said before =>
    have all : w.sent = .all := may.resolve_right (by simp [Client.hasLeft])
    have accepted : w.accepted = w.data := by rw [Write.accepted, all]
    have part : ∀ job ∈ done, job ∈ s.jobs c := fun job member => jobs ▸ List.mem_append_left _ member
    have before := told part (fun job member => answered job (part job member)) before
    rw [accepted]
    refine ⟨?_, all⟩
    cases taken with
    | emptyMarker here =>
      obtain rfl := List.singleton_inj.mp (List.append_cancel_left appended)
      rw [here] at handles jobs said
      obtain ⟨nothing, rfl⟩ := List.append_eq_nil_iff.mp said
      have same : s.jobs c = done := by simpa [WorkerPc.refused] using jobs
      exact .reply waits (by simp [WorkerPc.idle]) (fun job member => answers (answered job member)) clean_nil
        (by simp [nothing]) (same.symm ▸ before.skip handles)
    | refuse here =>
      obtain rfl := List.singleton_inj.mp (List.append_cancel_left appended)
      rw [here] at handles jobs said
      obtain ⟨nothing, rfl⟩ := List.append_eq_nil_iff.mp said
      exact .handled waits (by simpa [WorkerPc.handles] using handles) (by simpa [WorkerPc.refused] using jobs)
        (fun job member => answers (answered job member)) (by simp [nothing, WorkerPc.said]) before
    | refuseMarker here =>
      obtain rfl := List.singleton_inj.mp (List.append_cancel_left appended)
      rw [here] at handles jobs said
      refine .reply waits (by simp [WorkerPc.idle]) (fun job member => answers (answered job member)) clean_refusal
        ?_ ?_
      · rw [← List.append_assoc, said]
        rfl
      · have same : s.jobs c = done ++ [.refused] := jobs
        show Told _ _ (s.jobs c)
        rw [same]
        exact before.snoc .refused handles (by simp)
    | _ => simp at appended

theorem idle_of_resting (taken : WorkerStep s c a t) (resting : (s.worker c).resting) (there : s.worker c ≠ .recv) :
    (t.worker c).idle ∧ t.jobs c = s.jobs c := by
  cases taken with
  | enqueue | notify | logCreated => exact ⟨by simp [WorkerPc.idle], by simp⟩
  | recv here | recvEnd here => exact absurd here there
  | _ => cases ‹s.worker c = _› ▸ resting

theorem Phase.works (phase : Phase s c client up down) (run : ServerRun Machine.always s)
    (taken : WorkerStep s c a t) (there : s.worker c ≠ .recv) (silent : t.writes = s.writes) :
    Phase t c client up down := by
  have told {xs jobs} := told_later xs jobs (c := c) run (.worker taken)
  have answers {job} := answered_step job run (.worker taken)
  by_cases resting : (s.worker c).resting
  · obtain ⟨idle, jobs⟩ := idle_of_resting taken resting there
    exact phase.keep run (.worker taken) (.inr ⟨resting, idle⟩) jobs fun _ _ => still_of_writes silent
  have awake : ¬(s.worker c).idle := fun idle => resting (resting_of_idle idle)
  cases phase with
  | prompt idle | sent _ idle | reply _ idle => exact absurd idle awake
  | running _ _ run =>
    rcases run with idle | creating
    · exact absurd idle awake
    · exact absurd (creating ▸ trivial) resting
  | @left _ _ up _ leaving answered before =>
    have before := told (fun _ member => member) answered before
    have jobs : t.jobs c = s.jobs c ∧ (t.worker c).leaving up := by
      cases taken with
      | exit | remove | close | logDisconnected => exact ⟨by simp, by simp [WorkerPc.leaving]⟩
      | empty here => cases here ▸ leaving
      | command here _ goesOn =>
        rw [here] at leaving
        exact absurd leaving goesOn
      | recv here | recvEnd here => exact absurd here there
      | enqueue here | notify here | logCreated here => exact absurd (here ▸ trivial) resting
      | _ => cases ‹s.worker c = _› ▸ leaving
    refine .left jobs.2 (fun job member => answers (answered job (jobs.1 ▸ member))) ?_
    rw [jobs.1]
    exact before
  | @handled _ _ sent r down done waits handles jobs answered said before =>
    have part : ∀ job ∈ done, job ∈ s.jobs c := fun job member => jobs ▸ List.mem_append_left _ member
    have before := told part (fun job member => answered job (part job member)) before
    have still : ∀ job ∈ s.jobs c, t.answered job = true := fun job member => answers (answered job member)
    cases taken with
    | empty here =>
      rw [here] at handles jobs said
      exact .handled waits (by simpa [WorkerPc.handles] using Eq.symm handles) (by simpa [WorkerPc.refused] using jobs)
        still (by simpa [WorkerPc.said] using said) before
    | exit here =>
      rw [here] at handles
      exact absurd (Eq.symm handles) waits
    | command here nonempty =>
      rw [here] at handles jobs said
      obtain rfl := handles
      exact .handled waits (by simpa [WorkerPc.handles] using nonempty) (by simpa [WorkerPc.refused] using jobs)
        still (by simpa [WorkerPc.said] using said) before
    | @create command here =>
      have output := run_output run
      have fits := (run_commands run).fits c command (.inr here)
      rw [here] at handles jobs said
      obtain ⟨rfl, nonempty⟩ := handles
      have same : s.jobs c = done := by simpa [WorkerPc.refused] using jobs
      have fresh : s.out s.allocated = [] := (List.append_eq_nil_iff.mp ((run_ends run s.allocated).symm.trans output.fresh)).1
      have unmarked : s.marked s.allocated = false :=
        Bool.eq_false_iff.mpr fun marked => Nat.lt_irrefl _ (output.known marked)
      have still_ := still_of_writes silent unmarked
      refine .running waits nonempty (.inr (by simp)) (by simp [same]) (same ▸ still) still_.2 ?_ ?_ ?_ before
      · simpa using (create_parsed (s.context c) s.nextTaskId s.nextArrivalOrder fits).1
      · rw [still_.1, fresh]
        exact clean_nil
      · rw [still_.1, fresh]
        exact said
    | createFailed here =>
      rw [here] at handles jobs said
      have same : s.jobs c = done := by simpa [WorkerPc.refused] using jobs
      refine .handled waits (by simpa [WorkerPc.handles] using handles.2) (by simp [same, WorkerPc.refused])
        (fun job member => ?_) (by simpa [WorkerPc.said] using said) before
      rcases List.mem_append.mp (show job ∈ s.jobs c ++ [.refused] by simpa using member) with old | new
      · exact still job old
      · exact List.mem_singleton.mp new ▸ rfl
    | emptyMarker | refuse | refuseMarker => simp at silent
    | recv here | recvEnd here => exact absurd here there
    | _ => cases ‹s.worker c = _› ▸ handles

end Network

end MyShell
