import MyShell.System.Turns

/-! # The conversation on every connection

Each step of a client, of the network or of the server keeps the turns: `run_turns` is the invariant of every
run of the clients of this repository with the server. -/

namespace MyShell

open State

namespace Network

variable {n m : Network} {s t : State} {a : Answer} {e : Event} {p : Ptr} {w : Write} {c : ClientId} {client : Client} {up down rest text shown sent : CString} {r : Response}
  {chunk : Chunk} {k : ConnId}

/-! ### The client reads -/

theorem Clean.part (more : CString) (clean : Clean (text ++ more)) : Clean text :=
  ⟨fun member => clean.1 (List.mem_append_left _ member), fun inside =>
    clean.2 (inside.trans (List.prefix_append _ _).isInfix)⟩

theorem clean_before {more : CString} (clean : Clean shown) (whole : text ++ more = shown ++ END_MARKER)
    (unread : more ≠ []) : Clean text := by
  refine ⟨fun member => ?_, ?_⟩
  · have among : NUL ∈ shown ++ END_MARKER := whole ▸ List.mem_append_left _ member
    rcases List.mem_append.mp among with output | marker
    · exact clean.1 output
    · exact absurd marker (by decide)
  · rintro ⟨before, after, inside⟩
    have split : shown ++ END_MARKER = before ++ END_MARKER ++ (after ++ more) := by
      rw [← whole, ← inside, List.append_assoc]
    have ended := (marker_unbordered.append_eq clean.2 split).2
    exact unread (List.append_eq_nil_iff.mp ended).2

theorem receive_waiting (clean : Clean (r.text ++ chunk.bytes)) : ∃ r' : Response, r'.text = r.text ++ chunk.bytes ∧
    client.receive sent r chunk = { client with pc := .receiving sent r' } := by
  obtain ⟨grown, appended⟩ : ∃ r', r.append (fun _ => true) chunk = some r' := append_some (fun _ => rfl) r chunk
  have same := (append_text appended).1
  refine ⟨grown, same, ?_⟩
  have unseen : strstr grown.text END_MARKER = none := by
    rw [strstr, same, cString_eq_self clean.1]
    exact Search.firstIndex_eq_none.mpr clean.2
  simp only [Client.receive, receiveLoop, appended, unseen]

theorem receive_last (clean : Clean shown) (whole : r.text ++ chunk.bytes = shown ++ END_MARKER) :
    client.receive sent r chunk =
      { client with pc := .prompt, exchanges := client.exchanges ++ [⟨sent, shown⟩] } := by
  have unseen := (clean_before clean whole chunk.nonempty).2
  have read : receiveLoop (fun _ => true) r ([chunk].map .data) = .printed shown [] :=
    receiveLoop_clean (fun _ => rfl) clean.1 clean.2 unseen (by simpa using whole)
  simp only [List.map_cons, List.map_nil] at read
  simp only [Client.receive, read]

theorem Phase.reads (phase : Phase s c client up (chunk.bytes ++ rest)) (here : client.pc = .receiving sent r) :
    Phase s c (client.receive sent r chunk) up rest := by
  have some_ : chunk.bytes ++ rest ≠ [] := fun this => chunk.nonempty (List.append_eq_nil_iff.mp this).1
  have waiting {client : Client} {text : CString} (whole : r.text ++ (chunk.bytes ++ rest) = text) (clean : Clean text) :
      ∃ r' : Response, r'.text = r.text ++ chunk.bytes ∧ client.receive sent r chunk = { client with pc := .receiving sent r' } :=
    receive_waiting (Clean.part rest (by rw [List.append_assoc, whole]; exact clean))
  generalize arrives : chunk.bytes ++ rest = down at phase some_
  cases phase with
  | prompt | left => cases here
  | sent => exact absurd rfl some_
  | handled waits handles jobs answered said told =>
    obtain ⟨rfl, rfl⟩ := ClientPc.receiving.inj here
    have clean : Clean (s.worker c).said := by
      cases s.worker c with
      | refuseMarker => exact clean_refusal
      | _ => exact clean_nil
    obtain ⟨r', grown, same⟩ := waiting (arrives ▸ said) clean
    rw [same]
    exact .handled waits handles jobs answered (by rw [grown, List.append_assoc, arrives, said]) told
  | running waits nonempty resting jobs answered unmarked command clean output told =>
    obtain ⟨rfl, rfl⟩ := ClientPc.receiving.inj here
    obtain ⟨r', grown, same⟩ := waiting (arrives ▸ output) clean
    rw [same]
    exact .running waits nonempty resting jobs answered unmarked command clean
      (by rw [grown, List.append_assoc, arrives, output]) told
  | reply waits idle answered clean whole told =>
    obtain ⟨rfl, rfl⟩ := ClientPc.receiving.inj here
    rw [← arrives, ← List.append_assoc] at whole
    by_cases last : rest = []
    · subst last
      rw [List.append_nil] at whole
      rw [receive_last clean whole]
      exact .prompt idle answered told
    · obtain ⟨r', grown, same⟩ := receive_waiting (clean_before clean whole last)
      rw [same]
      exact .reply waits idle answered clean (by rw [grown, whole]) told

/-! ### The client writes -/

theorem commandOf_line {line : CString} (one : '\n' ∉ line) (noNul : NUL ∉ line) (more : CString) :
    commandOf (line ++ '\n' :: more) = line ∧ commandOf line = line := by
  have visible : ∀ c ∈ line, decide (c ≠ '\n' ∧ c ≠ NUL) = true := fun c member =>
    decide_eq_true ⟨ne_of_mem_of_not_mem member one, ne_of_mem_of_not_mem member noNul⟩
  unfold commandOf
  exact ⟨by rw [List.takeWhile_append_of_pos visible]; simp, List.takeWhile_eq_self_iff.mpr visible⟩

theorem readUpTo_newline (n : Nat) (stream : CString) : ∃ line, '\n' ∉ line ∧
    ((Shell.readUpTo n stream).1 = line ∨ (Shell.readUpTo n stream).1 = line ++ ['\n']) := by
  rcases Shell.stream_cases stream with rfl | ⟨-, one⟩ | ⟨line, rest, one, rfl⟩
  · exact ⟨[], by simp, .inl (by cases n <;> rfl)⟩
  · exact ⟨stream.take n, fun member => one (List.mem_of_mem_take member), .inl (by rw [Shell.readUpTo_last one])⟩
  · rw [Shell.readUpTo_line one]
    split
    · exact ⟨line, one, .inr rfl⟩
    · exact ⟨line.take n, fun member => one (List.mem_of_mem_take member), .inl rfl⟩

theorem isExit_of_command {stdin buffer : CString} (read : Shell.fgets BUFFER_SIZE stdin = some (buffer, rest))
    (command : commandOf (cString buffer) = "exit".toList) : isExit (cString buffer) = true := by
  have same := Option.some.inj (Option.ite_none_left_eq_some.mp read).2
  obtain ⟨line, one, shape⟩ := readUpTo_newline (BUFFER_SIZE - 1) stdin
  rw [same] at shape
  have noNul := nul_not_mem_cString buffer
  have start : cString buffer <+: line ++ ['\n'] := by
    have part : cString buffer <+: buffer := List.takeWhile_prefix _
    rcases shape with rfl | rfl
    · exact part.trans (List.prefix_append ..)
    · exact part
  unfold isExit
  rcases List.prefix_concat_iff.mp start with whole | short
  · have visible : NUL ∉ line := fun member => noNul (whole ▸ List.mem_append_left _ member)
    rw [whole, (commandOf_line one visible []).1] at command
    rw [whole, command]
    rfl
  · rw [(commandOf_line (fun member => one (short.subset member)) noNul []).2] at command
    simp [command]

theorem command_of_isExit (leaves : isExit sent = true) : commandOf sent = "exit".toList := by
  rcases (Bool.or_eq_true ..).mp leaves with same | same <;> rw [of_decide_eq_true same] <;> decide

theorem enter_cases {client' : Client} {end_ : Sent} (entered : client.enter end_ = (sent, client'))
    (whole : end_ = .all ∨ end_ = .failed 0) : ∃ stdin,
    client' = ⟨stdin, .closed, client.exchanges⟩ ∧ (sent = [] ∨ commandOf sent = "exit".toList) ∨
      client' = ⟨stdin, .receiving sent {}, client.exchanges⟩ ∧ Waits sent := by
  unfold Client.enter at entered
  split at entered
  · cases entered
    exact ⟨_, .inl ⟨rfl, .inl rfl⟩⟩
  · rename_i buffer stdin read
    rcases whole with rfl | rfl
    · obtain ⟨rfl, rfl⟩ := Prod.mk.inj entered
      refine ⟨stdin, ?_⟩
      by_cases leaves : isExit (cString buffer) = true
      · exact .inl ⟨by simp [leaves], .inr (command_of_isExit leaves)⟩
      · exact .inr ⟨by simp [leaves], fun command => leaves (isExit_of_command read command)⟩
    · obtain ⟨rfl, rfl⟩ := Prod.mk.inj entered
      exact ⟨stdin, .inl ⟨rfl, .inl (List.take_zero ..)⟩⟩

theorem Phase.enters {client' : Client} {end_ : Sent} (phase : Phase s c client up down) (here : client.pc = .prompt)
    (entered : client.enter end_ = (sent, client')) (whole : end_ = .all ∨ end_ = .failed 0) :
    Phase s c client' (up ++ sent) down := by
  obtain ⟨stdin, ⟨rfl, leaves⟩ | ⟨rfl, waits⟩⟩ := enter_cases entered whole
  all_goals
    cases phase with
    | prompt idle answered told =>
      first
      | exact .left ((leaving_idle idle).mpr leaves) answered told
      | exact .sent waits idle answered told
    | _ => cases here

theorem Unserved.enters {client' : Client} {end_ : Sent} (unserved : Unserved client up down)
    (here : client.pc = .prompt) (entered : client.enter end_ = (sent, client'))
    (whole : end_ = .all ∨ end_ = .failed 0) : Unserved client' (up ++ sent) down := by
  obtain ⟨stdin, ⟨rfl, leaves⟩ | ⟨rfl, waits⟩⟩ := enter_cases entered whole
  all_goals
    cases unserved with
    | prompt => first | exact .left leaves | exact .sent waits
    | _ => cases here

/-! ### What is on the way -/

theorem carry_toServer (unread : n.receives e = none) : (n.carry e t).toServer = n.toServer := by
  funext k
  simp [carry, unread]

theorem carry_toClient (same : t.writes = n.server.writes) : (n.carry e t).toClient = n.toClient := by
  funext k
  simp [carry, same]

theorem carry_wrote (appended : t.writes = n.server.writes ++ [w]) (k : ConnId) :
    (n.carry e t).toClient k = n.toClient k ++ if w.target = some k then w.accepted else [] := by
  by_cases mine : w.target = some k <;> simp [carry, appended, mine]

theorem canSend_home (may : n.canSend w = true) (target : w.target = some k) :
    w.sent = .all ∨ (n.client k).hasLeft = true := by
  rw [Network.canSend, target] at may
  simpa using may

/-! ### The server -/

theorem run_absent (run : ServerRun Machine.always s) : ∀ c, s.worker c = .absent → s.jobs c = [] := by
  refine run.invariant (I := fun s => ∀ c, s.worker c = .absent → s.jobs c = []) (fun _ _ => rfl)
    fun {s e t} quiet _ taken c absent => ?_
  have taken := MyShell.step_cases taken
  have before : s.worker c = .absent := by
    by_contra present
    exact step_started taken present absent
  cases taken with
  | sched taken => exact taken.frame.jobs ▸ quiet c before
  | main taken => exact taken.frame.jobs ▸ quiet c before
  | @worker c' _ _ taken =>
    by_cases same : c' = c
    · subst same
      cases taken <;> simp_all
    · rw [taken.frame.jobs c (Ne.symm same)]
      exact quiet c before

theorem allHome_later (inv : Inv s) (taken : MyShell.Step s e t) (home : AllHome s w) : AllHome t w :=
  ⟨step_started taken home.1, step_conn taken (inv.clients.born _ home.1) ▸ home.2.1, home.2.2⟩

theorem clean_of_plain (plain : ∀ x ∈ text, x ≠ '<' ∧ x ≠ NUL) : Clean text :=
  ⟨fun member => (plain _ member).2 rfl, fun inside => (plain '<' (inside.subset (by decide))).1 rfl⟩

theorem plain_demoLine (iteration burst : Int) : ∀ x ∈ demoLine iteration burst, x ≠ '<' ∧ x ≠ NUL := by
  have digits : ∀ n : Nat, ∀ x ∈ Nat.toDigits 10 n, x ≠ '<' ∧ x ≠ NUL := fun n x member => by
    have digit := List.all_eq_true.mp (toDigits_digits n) x member
    constructor <;> rintro rfl <;> revert digit <;> decide
  have number : ∀ i : Int, ∀ x ∈ decimal i, x ≠ '<' ∧ x ≠ NUL := fun i x member => by
    unfold decimal at member
    split at member
    · rcases List.mem_cons.mp member with rfl | member
      · decide
      · exact digits _ x member
    · exact digits _ x member
  have words : ∀ word ∈ ["Demo ".toList, "/".toList, "\n".toList], ∀ x ∈ word, x ≠ '<' ∧ x ≠ NUL := by
    intro word member x inside
    have plain : ["Demo ".toList, "/".toList, "\n".toList].all (·.all fun x => x ≠ '<' ∧ x ≠ NUL) = true := rfl
    exact of_decide_eq_true (List.all_eq_true.mp (List.all_eq_true.mp plain word member) x inside)
  intro x member
  unfold demoLine at member
  rcases List.mem_append.mp member with member | newline
  · rcases List.mem_append.mp member with member | last
    · rcases List.mem_append.mp member with member | slash
      · rcases List.mem_append.mp member with word | first
        · exact words _ (by simp) x word
        · exact number _ x first
      · exact words _ (by simp) x slash
    · exact number _ x last
  · exact words _ (by simp) x newline

theorem clean_demoLines (burst : Int) (count : Nat) : Clean (demoLines burst count) :=
  clean_of_plain fun x member => by
    obtain ⟨i, -, line⟩ := List.mem_flatMap.mp member
    exact plain_demoLine _ _ x line

/-- A demo prints nothing that a client could take for the end of the response. -/
theorem clean_demo (run : ServerRun Machine.always s) (old : p < s.allocated) (demo : (s.task p).type = .demoProgram)
    (unmarked : s.marked p = false) : Clean (s.out p) := by
  have text := (run_output run).text p old demo
  have output := run_ends run p
  rw [unmarked] at text output
  have same : s.out p = demoLines (s.task p).burstTime (s.lines p) := by simpa using output.symm.trans text
  rw [same]
  exact clean_demoLines ..

theorem clean_written (later : ServerRun Machine.always t) (taken : SchedStep s a t)
    (relayed : ∀ q r, s.pc = .relay q r → Clean (s.out q ++ a.read.getD [])) (appended : t.writes = s.writes ++ [w])
    (writing : s.pc.writing = some p) (unmarked : s.marked p = false) (known : p < s.allocated)
    (text : w.endMarker = false) : Clean (t.out p) := by
  have frame := taken.frame
  cases taken with
  | @relay q r chunk here answer =>
    obtain rfl := List.singleton_inj.mp (List.append_cancel_left appended)
    rw [here] at writing
    obtain rfl := Option.some.inj writing
    have part := relayed q r here
    rw [out_append appended, if_pos ⟨rfl, rfl⟩]
    rwa [answer] at part
  | @slice r line done here type =>
    obtain rfl := List.singleton_inj.mp (List.append_cancel_left appended)
    rw [here] at writing
    obtain rfl := Option.some.inj writing
    have still := marked_append (p := r.task) appended
    rw [unmarked] at still
    exact clean_demo later (frame.allocated ▸ known) ((frame.later r.task).type.trans type) (by simpa using still)
  | sendMarker =>
    obtain rfl := List.singleton_inj.mp (List.append_cancel_left appended)
    cases text
  | _ => simp at appended

theorem connected_of_idle {pc : WorkerPc} (idle : pc.idle) : pc.connected = true := by
  cases pc <;> first | rfl | cases idle

theorem Phase.connected (phase : Phase s c client up down)
    (unanswered : ¬∀ job ∈ s.jobs c, s.answered job = true) : (s.worker c).connected = true := by
  cases phase with
  | prompt _ answered | left _ answered | sent _ _ answered | handled _ _ _ answered | reply _ _ answered =>
    exact absurd answered unanswered
  | running _ _ resting =>
    rcases resting with idle | creating
    · exact connected_of_idle idle
    · rw [creating]; rfl

/-- A step that starts no worker, by what it does on the connection of each. -/
theorem Turns.carried (turns : Turns n) (workers : ∀ c, t.worker c = .absent ↔ n.server.worker c = .absent)
    (conn : t.conn = n.server.conn)
    (elsewhere : ∀ k, (∀ c, ¬Serves n.server c k) →
      (n.carry e t).toServer k = n.toServer k ∧ (n.carry e t).toClient k = n.toClient k)
    (phases : ∀ c, n.server.worker c ≠ .absent → Phase t c (n.client (n.server.conn c))
      ((n.carry e t).toServer (n.server.conn c)) ((n.carry e t).toClient (n.server.conn c)))
    (home : ∀ w ∈ t.writes, AllHome t w) : Turns (n.carry e t) where
  unserved k nobody := by
    have before : ∀ c, ¬Serves n.server c k := fun c serves =>
      nobody c ⟨fun absent => serves.1 ((workers c).mp absent), (congrFun conn c).trans serves.2⟩
    rw [(elsewhere k before).1, (elsewhere k before).2]
    exact turns.unserved k before
  served c present := by
    have before : n.server.worker c ≠ .absent := fun absent => present ((workers c).mpr absent)
    have here : (n.carry e t).server.conn c = n.server.conn c := congrFun conn c
    rw [here]
    exact phases c before
  home := home

theorem Turns.homeLater (turns : Turns n) (inv : Inv n.server) (taken : MyShell.Step n.server e t)
    (wrote : ∀ w ∈ t.writes, w ∈ n.server.writes ∨ AllHome n.server w) : ∀ w ∈ t.writes, AllHome t w := fun w member =>
  allHome_later inv taken ((wrote w member).elim (turns.home w) id)

theorem sched_turns (turns : Turns n) (run : ServerRun Machine.always n.server) (later : ServerRun Machine.always t)
    (once : ServedOnce n.server) (taken : SchedStep n.server a t) (sent : ∀ w ∈ t.writes.drop n.server.writes.length, n.canSend w = true)
    (relayed : ∀ q r, n.server.pc = .relay q r → Clean (n.server.out q ++ a.read.getD [])) :
    Turns (n.carry (.sched a) t) := by
  have inv := run_inv run
  have frame := taken.frame
  have unread : (n.carry (.sched a) t).toServer = n.toServer := carry_toServer rfl
  have workers : ∀ c, t.worker c = .absent ↔ n.server.worker c = .absent := fun c => by rw [frame.worker]
  rcases taken.wrote with same | ⟨w, q, appended, writing, wrote⟩
  · have quiet := carry_toClient (e := .sched a) same
    refine turns.carried workers frame.conn (fun k _ => by rw [unread, quiet]; exact ⟨rfl, rfl⟩) (fun c present => ?_)
      (turns.homeLater inv (.sched taken) fun w member => .inl (same ▸ member))
    rw [unread, quiet]
    exact (turns.served c present).keep run (.sched taken) (.inl (congrFun frame.worker c)) (congrFun frame.jobs c)
      fun _ _ => still_of_writes same
  · have held := inv.owned.held q (held_of_writing writing)
    have unmarked := (run_output run).unmarked inv (held_of_writing writing) (unmarked_of_writing writing)
    have listed := (run_jobs run).listed q held.1
    have present : n.server.worker (n.server.task q).clientId ≠ .absent := fun absent => by
      simp [run_absent run _ absent] at listed
    have phase := turns.served _ present
    have connected := phase.connected (unanswered unmarked listed)
    have target : w.target = some (n.server.conn (n.server.task q).clientId) := by
      rw [wrote.target, connected_home inv (run_fds run) held.1 connected]
      rfl
    have may := canSend_home (sent w (by simp [appended])) target
    have clean := clean_written later taken relayed appended writing unmarked held.1
    obtain ⟨after, all⟩ := phase.writes run taken appended writing wrote rfl clean may
    have wired := carry_wrote (e := .sched a) appended
    refine turns.carried workers frame.conn (fun k nobody => ?_) (fun c there => ?_)
      (turns.homeLater inv (.sched taken) fun w' member => ?_)
    · have other : w.target ≠ some k := fun mine =>
        nobody _ ⟨present, Option.some.inj (target.symm.trans mine)⟩
      rw [unread, wired, if_neg other, List.append_nil]
      exact ⟨rfl, rfl⟩
    · rw [unread, wired, target]
      by_cases mine : c = (n.server.task q).clientId
      · subst mine
        rw [if_pos rfl]
        exact after
      · have other : n.server.conn (n.server.task q).clientId ≠ n.server.conn c := fun same =>
          mine (once _ _ _ ⟨there, rfl⟩ ⟨present, same⟩)
        rw [if_neg (fun same => other (Option.some.inj same)), List.append_nil]
        refine (turns.served c there).keep run (.sched taken) (.inl (congrFun frame.worker c)) (congrFun frame.jobs c)
          fun p mine' open_ => ?_
        have another : w.task ≠ some p := fun same => by
          rw [wrote.task] at same
          obtain rfl := Option.some.inj same
          exact mine ((run_jobs run).owner c _ mine').2.symm
        exact ⟨by simp [out_append appended, another], by simp [marked_append appended, another, open_]⟩
    · rcases List.mem_append.mp (appended ▸ member) with old | new
      · exact .inl old
      · rw [List.mem_singleton.mp new]
        exact .inr ⟨wrote.client ▸ present, wrote.client ▸ target, all⟩

theorem present_of_taken (taken : WorkerStep s c a t) : s.worker c ≠ .absent := by
  intro absent
  cases taken <;> cases absent.symm.trans ‹s.worker c = _›

theorem Phase.other {c' : ClientId} (phase : Phase s c' client up down) (run : ServerRun Machine.always s)
    (taken : WorkerStep s c a t) (different : c' ≠ c) : Phase t c' client up down := by
  have frame := taken.frame
  refine phase.keep run (.worker taken) (.inl (frame.worker c' different)) (frame.jobs c' different) fun p _ open_ => ?_
  rcases taken.wrote with same | ⟨w, appended, own⟩
  · exact still_of_writes same open_
  · exact ⟨by simp [out_append appended, own.task], by simp [marked_append appended, own.task, open_]⟩

theorem worker_turns (turns : Turns n) (run : ServerRun Machine.always n.server) (once : ServedOnce n.server)
    (taken : WorkerStep n.server c a t)
    (received : ∀ call, n.receives (.worker c a) = some call → n.canRecv call.1 call.2 = true)
    (whole : ∀ call, n.receives (.worker c a) = some call → call.2.getD [] = [] ∨ call.2 = some (n.toServer call.1))
    (sent : ∀ w ∈ t.writes.drop n.server.writes.length, n.canSend w = true) : Turns (n.carry (.worker c a) t) := by
  have inv := run_inv run
  have frame := taken.frame
  have present := present_of_taken taken
  have phase := turns.served c present
  -- the step is felt on the connection of its client only
  have alone : ∀ c', n.server.worker c' ≠ .absent → c' ≠ c → n.server.conn c ≠ n.server.conn c' :=
    fun c' there other same => other (once _ _ _ ⟨there, rfl⟩ ⟨present, same⟩)
  have apart : ∀ k, (∀ c', ¬Serves n.server c' k) → n.server.conn c ≠ k := fun k nobody same => nobody c ⟨present, same⟩
  by_cases here : n.server.worker c = .recv
  · have reads : n.receives (.worker c a) = some (n.server.conn c, a.read) := by simp [receives, here]
    have silent : t.writes = n.server.writes := by
      cases taken with
      | recv | recvEnd => rfl
      | _ => cases here.symm.trans ‹n.server.worker c = _›
    have quiet := carry_toClient (e := .worker c a) silent
    have up : ∀ k, (n.carry (.worker c a) t).toServer k =
        if n.server.conn c = k then (n.toServer k).drop (a.read.getD []).length else n.toServer k := fun k => by
      cases answer : a.read <;> simp [carry, reads, answer]
    refine turns.carried taken.absent frame.conn (fun k nobody => ?_) (fun c' there => ?_)
      (turns.homeLater inv (.worker taken) fun w member => .inl (silent ▸ member))
    · rw [up, quiet, if_neg (apart k nobody)]
      exact ⟨rfl, rfl⟩
    · rw [up, quiet]
      by_cases same : c' = c
      · subst same
        rw [if_pos rfl]
        have may := received _ reads
        refine phase.receives run taken here (fun nothing => ?_) fun something => (whole _ reads).resolve_left something
        cases answer : a.read with
        | none => simpa [canRecv, answer] using may
        | some chunk =>
          obtain rfl : chunk = [] := by simpa [answer] using nothing
          simp only [canRecv, answer, Bool.and_eq_true] at may
          exact may.1
      · rw [if_neg (alone c' there same)]
        exact (turns.served c' there).other run taken same
  · have unread : (n.carry (.worker c a) t).toServer = n.toServer := carry_toServer (by simp [receives, here])
    rcases taken.wrote with silent | ⟨w, appended, own⟩
    · have quiet := carry_toClient (e := .worker c a) silent
      refine turns.carried taken.absent frame.conn (fun k _ => by rw [unread, quiet]; exact ⟨rfl, rfl⟩) (fun c' there => ?_)
        (turns.homeLater inv (.worker taken) fun w member => .inl (silent ▸ member))
      rw [unread, quiet]
      by_cases same : c' = c
      · subst same
        exact phase.works run taken here silent
      · exact (turns.served c' there).other run taken same
    · have connected : (n.server.worker c).connected = true := by
        cases taken with
        | emptyMarker here | refuse here | refuseMarker here => rw [here]; rfl
        | _ => simp at appended
      have target : w.target = some (n.server.conn c) := by
        rw [own.target, (run_fds run).client c connected]
        rfl
      obtain ⟨after, all⟩ := phase.answers run taken appended (canSend_home (sent w (by simp [appended])) target)
      have wired := carry_wrote (e := .worker c a) appended
      refine turns.carried taken.absent frame.conn (fun k nobody => ?_) (fun c' there => ?_)
        (turns.homeLater inv (.worker taken) fun w' member => ?_)
      · rw [unread, wired, target, if_neg (fun same => apart k nobody (Option.some.inj same)), List.append_nil]
        exact ⟨rfl, rfl⟩
      · rw [unread, wired, target]
        by_cases same : c' = c
        · subst same
          rw [if_pos rfl]
          exact after
        · rw [if_neg (fun same' => alone c' there same (Option.some.inj same')), List.append_nil]
          exact (turns.served c' there).other run taken same
      · rcases List.mem_append.mp (appended ▸ member) with old | new
        · exact .inl old
        · rw [List.mem_singleton.mp new]
          exact .inr ⟨own.client ▸ present, own.client ▸ target, all⟩

theorem Phase.born (unserved : Unserved client up down) (worker : s.worker c = .recv) (jobs : s.jobs c = []) :
    Phase s c client up down := by
  have idle : (s.worker c).idle := worker ▸ trivial
  have answered : ∀ job ∈ s.jobs c, s.answered job = true := by simp [jobs]
  have told : Told s [] (s.jobs c) := jobs ▸ ⟨by simp, .nil⟩
  cases unserved with
  | prompt => exact .prompt idle answered told
  | left leaving => exact .left ((leaving_idle idle).mpr leaving) answered told
  | sent waits => exact .sent waits idle answered told

theorem main_turns (turns : Turns n) (run : ServerRun Machine.always n.server) (taken : MainStep n.server a t) :
    Turns (n.carry (.main a) t) := by
  have inv := run_inv run
  have frame := taken.frame
  have unread : (n.carry (.main a) t).toServer = n.toServer := carry_toServer rfl
  have quiet := carry_toClient (e := .main a) frame.writes
  refine ⟨fun k nobody => ?_, fun c there => ?_,
    turns.homeLater inv (.main taken) fun w member => .inl (frame.writes ▸ member)⟩
  · rw [unread, quiet]
    refine turns.unserved k fun c serves => nobody c ⟨step_started (.main taken) serves.1, ?_⟩
    exact (step_conn (.main taken) (inv.clients.born c serves.1)).trans serves.2
  · rw [unread, quiet]
    have known : c < n.server.nextClientId := by
      rcases present_of_step (.main taken) there with before | starting
      · exact inv.clients.born c before
      · exact (inv.clients.spawning c starting).1
    have same : (n.carry (.main a) t).server.conn c = n.server.conn c := step_conn (.main taken) known
    rw [same]
    by_cases before : n.server.worker c = .absent
    · have starting := (present_of_step (.main taken) there).resolve_left fun present => present before
      have worker : t.worker c = .recv := (taken.spawned starting).resolve_right fun still => there (still.trans before)
      refine .born (turns.unserved _ fun c' serves => ?_) worker (frame.jobs ▸ run_absent run c before)
      exact spawn_alone (run_fds run) (run_conns run) starting c' serves.1 serves.2
    · refine (turns.served c before).keep run (.main taken) (.inl ?_) (congrFun frame.jobs c) fun _ _ =>
        still_of_writes frame.writes
      exact taken.worker fun starting => before (inv.clients.spawning c starting).2

/-! ### Every step -/

theorem Turns.onConnection (turns : Turns n) (server : m.server = n.server)
    (elsewhere : ∀ k', k' ≠ k → m.client k' = n.client k' ∧ m.toServer k' = n.toServer k' ∧ m.toClient k' = n.toClient k')
    (phase : ∀ c, Phase n.server c (n.client k) (n.toServer k) (n.toClient k) →
      Phase n.server c (m.client k) (m.toServer k) (m.toClient k))
    (unserved : Unserved (n.client k) (n.toServer k) (n.toClient k) →
      Unserved (m.client k) (m.toServer k) (m.toClient k)) : Turns m where
  unserved k' nobody := by
    rw [server] at nobody
    have before := turns.unserved k' nobody
    by_cases here : k' = k
    · subst here
      exact unserved before
    · obtain ⟨client, up, down⟩ := elsewhere k' here
      rw [client, up, down]
      exact before
  served c present := by
    rw [server] at present ⊢
    have before := turns.served c present
    by_cases here : n.server.conn c = k
    · rw [here] at before ⊢
      exact phase c before
    · obtain ⟨client, up, down⟩ := elsewhere _ here
      rw [client, up, down]
      exact before
  home := server ▸ turns.home

theorem Unserved.reads (unserved : Unserved client up (chunk.bytes ++ rest)) : False := by
  have some_ : chunk.bytes ++ rest ≠ [] := fun this => chunk.nonempty (List.append_eq_nil_iff.mp this).1
  generalize chunk.bytes ++ rest = down at unserved some_
  cases unserved <;> exact some_ rfl

theorem step_turns {ev : NetEvent} (turns : Turns n) (run : ServerRun Machine.always n.server)
    (later : ServerRun Machine.always m.server) (once : ServedOnce n.server) (orderly : n.orderly ev = true)
    (taken : n.Step ev m) : Turns m := by
  cases taken with
  | @server e t went received sent =>
    simp only [Network.orderly, Bool.and_eq_true] at orderly
    obtain ⟨whole, relayed⟩ := orderly
    cases MyShell.step_cases went with
    | @sched a _ taken =>
      refine sched_turns turns run later once taken sent fun q r here => ?_
      simpa [here] using relayed
    | worker taken =>
      refine worker_turns turns run once taken received (fun call called => ?_) sent
      simpa [called] using whole
    | main taken => exact main_turns turns run taken
  | @enter k end_ text client here entered =>
    have whole : end_ = .all ∨ end_ = .failed 0 := by simpa [Network.orderly] using orderly
    refine turns.onConnection (k := k) rfl (fun k' other => by simp [setClient, other]) (fun c phase => ?_) fun unserved => ?_
    · simpa [setClient] using phase.enters here entered whole
    · simpa [setClient] using unserved.enters here entered whole
  | @receive k text r chunk rest here arrives =>
    refine turns.onConnection (k := k) rfl (fun k' other => by simp [setClient, other]) (fun c phase => ?_) fun unserved => ?_
    · rw [arrives] at phase
      simpa [setClient] using phase.reads here
    · rw [arrives] at unserved
      exact unserved.reads.elim
  | giveUp => cases orderly

theorem run_turns {stdin : ConnId → CString} (run : NetRun stdin n) : Turns n := by
  refine run.invariant_of (J := fun n => ServerRun Machine.always n.server)
    (fun run => run_server run) ?_ fun {n ev m} server later turns orderly taken => ?_
  · exact ⟨fun _ _ => .prompt, fun c present => absurd rfl present, fun _ member => by cases member⟩
  · exact step_turns turns server later (run_servedOnce server) orderly (step_cases taken)

end Network

end MyShell
