import MyShell.Client
import MyShell.Server.Responses
import MyShell.Shell.Intake

/-! # The clients and the server together

The loop of `main` in `client.c` at one end of every connection, and the server at the other. A connection
carries bytes in order in both directions; `recv` returns any part of what is on the way. -/

namespace MyShell

open State

/-! ### The client -/

structure Exchange where
  sent : CString
  shown : CString
  deriving DecidableEq, Repr

inductive ClientPc where
  | prompt
  | receiving (sent : CString) (response : Response)
  | closed

def ClientPc.receives : ClientPc → Bool
  | .receiving _ _ => true
  | _ => false

structure Client where
  stdin : CString
  pc : ClientPc := .prompt
  exchanges : List Exchange := []

theorem buffer_positive : 0 < BUFFER_SIZE := by decide

def isExit (sent : CString) : Bool := sent = "exit\n".toList || sent = "exit".toList

namespace Client

variable (client : Client)

def hasLeft : Bool :=
  match client.pc with
  | .closed => true
  | _ => false

/-- `fgets`, `send_all` and the comparison with `exit`: the text that went out and the client after it. -/
def enter (end_ : Sent) : CString × Client :=
  match Shell.fgets BUFFER_SIZE client.stdin with
  | none => ([], { client with pc := .closed })
  | some (buffer, stdin) =>
    let sent := cString buffer
    match end_ with
    | .all =>
      let pc := if isExit sent then .closed else .receiving sent { positive := buffer_positive }
      (sent, { client with stdin, pc })
    | .failed accepted => (sent.take accepted, { client with stdin, pc := .closed })

def receive (sent : CString) (response : Response) (chunk : Chunk) : Client :=
  match receiveLoop (fun _ => true) response [.data chunk] with
  | .printed shown _ => { client with pc := .prompt, exchanges := client.exchanges ++ [⟨sent, shown⟩] }
  | .failed => { client with pc := .closed }
  | .waiting response => { client with pc := .receiving sent response }

end Client

/-! ### The network -/

/-- `toServer` and `toClient` are the bytes on the way on each connection. -/
structure Network where
  server : State := .initial
  client : ConnId → Client
  toServer : ConnId → CString := fun _ => []
  toClient : ConnId → CString := fun _ => []

inductive NetEvent where
  | server (e : Event)
  | enter (k : ConnId) (end_ : Sent)
  | receive (k : ConnId) (chunk : Chunk)
  /-- `recv` or an allocation fails in a client that waits for a response -/
  | giveUp (k : ConnId)

namespace Network

variable (n : Network)

def start (stdin : ConnId → CString) : Network := { client := fun k => { stdin := stdin k } }

/-- What `recv` may return to the server: an end or an error only when the client has left. -/
def canRecv (k : ConnId) : Option CString → Bool
  | none => (n.client k).hasLeft
  | some [] => (n.client k).hasLeft && n.toServer k = []
  | some chunk => chunk.isPrefixOf (n.toServer k)

def receives : Event → Option (ConnId × Option CString)
  | .worker c a => if n.server.worker c = .recv then some (n.server.conn c, a.read) else none
  | _ => none

/-- A call of `send_all` fails only when the client has left. -/
def canSend (w : Write) : Bool := w.target.all fun k => w.sent = .all || (n.client k).hasLeft

def carry (e : Event) (t : State) : Network :=
  let new := t.writes.drop n.server.writes.length
  { n with
    server := t
    toServer := fun k =>
      match n.receives e with
      | some (k', some chunk) => if k' = k then (n.toServer k).drop chunk.length else n.toServer k
      | _ => n.toServer k
    toClient := fun k => n.toClient k ++ (new.filter (·.target = some k)).flatMap (·.accepted) }

def setClient (k : ConnId) (client : Client) : Network := { n with client := Function.update n.client k client }

def step : NetEvent → Option Network
  | .server e =>
    (MyShell.step n.server e).bind fun t =>
      if (n.receives e).all (fun call => n.canRecv call.1 call.2) ∧
          (t.writes.drop n.server.writes.length).all n.canSend then some (n.carry e t)
      else none
  | .enter k end_ =>
    match (n.client k).pc with
    | .prompt =>
      let (sent, client) := (n.client k).enter end_
      some { n.setClient k client with toServer := Function.update n.toServer k (n.toServer k ++ sent) }
    | _ => none
  | .receive k chunk =>
    match (n.client k).pc with
    | .receiving sent response =>
      if chunk.bytes.isPrefixOf (n.toClient k) then
        some { n.setClient k ((n.client k).receive sent response chunk) with
          toClient := Function.update n.toClient k ((n.toClient k).drop chunk.bytes.length) }
      else none
    | _ => none
  | .giveUp k =>
    match (n.client k).pc with
    | .receiving _ _ => some (n.setClient k { n.client k with pc := .closed })
    | _ => none

/-- Text that a client can tell from the end of a response. -/
def Clean (text : CString) : Prop := NUL ∉ text ∧ ¬ END_MARKER <:+: text

instance (text : CString) : Decidable (Clean text) := inferInstanceAs (Decidable (_ ∧ _))

/-- No client gives up a response or sends a part of a line; a line that was sent comes in one piece, and no
command prints a NUL or the marker. -/
def orderly : NetEvent → Bool
  | .server e =>
    (n.receives e).all (fun call => call.2.getD [] = [] || call.2 = some (n.toServer call.1)) &&
      match e, n.server.pc with
      | .sched a, .relay t _ => Clean (n.server.out t ++ a.read.getD [])
      | _, _ => true
  | .enter _ end_ => end_ = .all || end_ = .failed 0
  | .giveUp _ => false
  | _ => true

end Network

abbrev NetRun (stdin : ConnId → CString) (n : Network) : Prop :=
  Machine.Run Network.step (Network.orderly · ·) (Network.start stdin) n

namespace Network

/-! ### What a step can do -/

inductive Step (n : Network) : NetEvent → Network → Prop where
  | server {e t} (went : MyShell.step n.server e = some t)
      (received : ∀ call, n.receives e = some call → n.canRecv call.1 call.2 = true)
      (sent : ∀ w ∈ t.writes.drop n.server.writes.length, n.canSend w = true) : Step n (.server e) (n.carry e t)
  | enter {k end_ sent client} (here : (n.client k).pc = .prompt) (entered : (n.client k).enter end_ = (sent, client)) :
      Step n (.enter k end_)
        { n.setClient k client with toServer := Function.update n.toServer k (n.toServer k ++ sent) }
  | receive {k sent response} {chunk : Chunk} {rest} (here : (n.client k).pc = .receiving sent response)
      (arrives : n.toClient k = chunk.bytes ++ rest) :
      Step n (.receive k chunk)
        { n.setClient k ((n.client k).receive sent response chunk) with
          toClient := Function.update n.toClient k rest }
  | giveUp {k sent response} (here : (n.client k).pc = .receiving sent response) :
      Step n (.giveUp k) (n.setClient k { n.client k with pc := .closed })

variable {n m : Network} {e : Event} {s t : State} {k : ConnId} {c : ClientId} {ev : NetEvent}

theorem step_cases (taken : n.step ev = some m) : n.Step ev m := by
  cases ev with
  | server e =>
    obtain ⟨t, went, carried⟩ := Option.bind_eq_some_iff.mp taken
    obtain ⟨⟨received, sent⟩, same⟩ := Option.ite_none_right_eq_some.mp carried
    obtain rfl := Option.some.inj same
    exact .server went (fun call called => by simpa [called] using received) (List.all_eq_true.mp sent)
  | enter k end_ =>
    simp only [Network.step] at taken
    split at taken <;> rename_i here
    · obtain rfl := Option.some.inj taken
      exact .enter here rfl
    · cases taken
  | receive k chunk =>
    simp only [Network.step] at taken
    split at taken <;> rename_i here
    · obtain ⟨arrives, same⟩ := Option.ite_none_right_eq_some.mp taken
      obtain ⟨rest, split⟩ := List.isPrefixOf_iff_prefix.mp arrives
      obtain rfl := Option.some.inj same
      rw [← split, List.drop_left]
      exact .receive here split.symm
    · cases taken
  | giveUp k =>
    simp only [Network.step] at taken
    split at taken <;> rename_i here
    · obtain rfl := Option.some.inj taken
      exact .giveUp here
    · cases taken

theorem run_server {ok : Network → NetEvent → Prop} {stdin : ConnId → CString}
    (run : Machine.Run Network.step ok (start stdin) n) : ServerRun Machine.always n.server := by
  refine run.invariant (I := fun n => ServerRun Machine.always n.server) .refl fun {n ev m} server _ taken => ?_
  cases step_cases taken with
  | server went => exact server.next trivial went
  | enter | receive | giveUp => exact server

/-! ### Who serves a connection -/

def Serves (s : State) (c : ClientId) (k : ConnId) : Prop := s.worker c ≠ .absent ∧ s.conn c = k

def ServedOnce (s : State) : Prop := ∀ c c' k, Serves s c k → Serves s c' k → c = c'

theorem present_of_step (taken : MyShell.Step s e t) (there : t.worker c ≠ .absent) :
    s.worker c ≠ .absent ∨ s.main = .spawn c := by
  cases taken with
  | sched taken => exact .inl (taken.frame.worker ▸ there)
  | worker taken => exact .inl fun absent => there ((taken.absent c).mpr absent)
  | main taken =>
    by_cases starting : s.main = .spawn c
    · exact .inr starting
    · exact .inl (taken.worker starting ▸ there)

theorem spawn_alone (fds : FdsOk s) (conns : ConnsOk s) (starting : s.main = .spawn c) (c' : ClientId)
    (present : s.worker c' ≠ .absent) : s.conn c' ≠ s.conn c := by
  intro same
  obtain ⟨mine, apart⟩ := fds.spawn c starting
  rcases connected_or_closed present with connected | closed
  · exact apart c' connected (conns.one _ _ _ (fds.client c' connected) (same ▸ mine))
  · exact (conns.closed c' closed).2 _ (same ▸ mine)

theorem step_servedOnce (ok : ServedOnce s) (inv : Inv s) (fds : FdsOk s) (conns : ConnsOk s)
    (taken : MyShell.Step s e t) : ServedOnce t := by
  have born : ∀ c, t.worker c ≠ .absent → c < s.nextClientId := fun c there => by
    rcases present_of_step taken there with before | starting
    · exact inv.clients.born c before
    · exact (inv.clients.spawning c starting).1
  rintro c c' k ⟨there, conn⟩ ⟨there', conn'⟩
  rw [step_conn taken (born c there)] at conn
  rw [step_conn taken (born c' there')] at conn'
  rcases present_of_step taken there with before | starting <;>
    rcases present_of_step taken there' with before' | starting'
  · exact ok c c' k ⟨before, conn⟩ ⟨before', conn'⟩
  · exact absurd (conn.trans conn'.symm) (spawn_alone fds conns starting' c before)
  · exact absurd (conn'.trans conn.symm) (spawn_alone fds conns starting c' before')
  · rw [starting] at starting'
    exact MainPc.spawn.inj starting'

theorem run_servedOnce {ok : State → Event → Prop} (run : ServerRun ok s) : ServedOnce s :=
  run.invariant_of (J := fun s => Inv s ∧ FdsOk s ∧ ConnsOk s) (fun run => ⟨run_inv run, run_fds run, run_conns run⟩)
    (fun _ _ _ mine => absurd rfl mine.1) fun known _ ok _ taken =>
      step_servedOnce ok known.1 known.2.1 known.2.2 (MyShell.step_cases taken)

end Network

end MyShell
