import MyShell.Server.Output

/-! # The count of bytes

`bytes_sent` counts a chunk when `send_all` or `dprintf` has sent the whole of it, in one call of `send` or in
several. The bytes of a chunk that was cut off by an error are left out, whoever accepted them, and those of a
whole chunk are counted, whoever accepted them: each call takes the connection that the descriptor denotes then. -/

namespace MyShell

open State

def Write.outputOf (p : Ptr) (w : Write) : Bool := w.task = some p ∧ w.endMarker = false

def Write.whole (w : Write) : Bool := w.sent = .all

def acceptedIn (which : Write → Bool) (ws : List Write) : Int :=
  ((ws.filter which).map fun w => (w.accepted.length : Int)).sum

def State.bytesCounted (s : State) (p : Ptr) : Int := acceptedIn (fun w => w.outputOf p && w.whole) s.writes

variable {s t : State} {a : Answer} {c : ClientId} {e : Event} {ending : Ending} {p : Ptr} {w : Write}

/-! ### Sums of writes -/

theorem acceptedIn_append (which : Write → Bool) (ws : List Write) (w : Write) : acceptedIn which (ws ++ [w]) =
    acceptedIn which ws + if which w then (w.accepted.length : Int) else 0 := by
  unfold acceptedIn
  rw [List.filter_append, List.map_append, List.sum_append, List.filter_singleton]
  cases which w <;> simp

/-! ### What `bytes_sent` holds -/

/-- `bytes_sent` is the count of the whole chunks, cut to `int`. -/
def BytesOk (s : State) : Prop := ∀ p, (s.task p).bytesSent = toInt (s.bytesCounted p)

theorem toInt_add (n m : Int) : toInt (toInt n + m) = toInt (n + m) := by
  unfold toInt
  exact Int.bmod_add_bmod

theorem counted_append (appended : t.writes = s.writes ++ [w]) : t.bytesCounted p =
    s.bytesCounted p + if w.outputOf p && w.whole then (w.accepted.length : Int) else 0 := by
  rw [bytesCounted, appended, acceptedIn_append]
  rfl

theorem BytesOk.kept (ok : BytesOk s) (writes : t.writes = s.writes)
    (bytes : ∀ p, (t.task p).bytesSent = (s.task p).bytesSent) : BytesOk t := by
  intro p
  rw [bytes, ok p, bytesCounted, bytesCounted, writes]

theorem BytesOk.aside (ok : BytesOk s) (appended : t.writes = s.writes ++ [w]) (aside : ∀ p, w.outputOf p = false)
    (task : t.task = s.task) : BytesOk t := by
  intro p
  rw [task, ok p, counted_append appended, aside]
  simp

theorem BytesOk.output (ok : BytesOk s) {q : Ptr} {data : CString} {sent : Sent} :
    BytesOk (s.sendOutput q data sent) := by
  intro p
  rw [counted_append (p := p) (s := s) (t := s.sendOutput q data sent) rfl]
  by_cases mine : p = q
  · subst mine
    by_cases whole : sent = .all
    · simp [whole, Write.outputOf, Write.whole, Write.accepted, ok p, toInt_add]
    · simp [whole, Write.whole, ok p]
  · simp [mine, Ne.symm mine, Write.outputOf, ok p]

theorem step_bytes (ok : BytesOk s) (output : OutputOk s) (taken : Step s e t) : BytesOk t := by
  cases taken with
  | sched taken =>
    cases taken with
    | relay => exact ok.output
    | slice => exact ok.output
    | sendMarker here => exact ok.aside rfl (fun p => by simp [Write.outputOf]) rfl
    | @update r | @countRound q =>
      refine ok.kept rfl fun p => ?_
      simp only [setPc_task, onDispatch_task, schedulerUpdateTaskAfterExecution, modifySched_task, modifyTask_task,
        Function.update_apply]
      split <;> simp_all
    | _ => exact ok.kept (by simp) (by simp)
  | worker taken =>
    cases taken with
    | emptyMarker | refuse | refuseMarker => exact ok.aside rfl (fun p => by simp [Write.outputOf]) rfl
    | @create command here =>
      intro p
      by_cases new : p = s.allocated
      · subst new
        have nothing : s.bytesCounted s.allocated = 0 := by
          unfold bytesCounted acceptedIn
          rw [List.filter_eq_nil_iff.mpr fun w member => ?_]
          · rfl
          · intro mine
            simp only [Write.outputOf, Bool.and_eq_true, decide_eq_true_eq] at mine
            exact absurd (output.old w member _ mine.1.1) (Nat.lt_irrefl _)
        show ((s.createTask _ command).task s.allocated).bytesSent = toInt (s.bytesCounted s.allocated)
        rw [nothing]
        simp [toInt]
      · show ((s.createTask _ command).task p).bytesSent = toInt (s.bytesCounted p)
        simpa [new] using ok p
    | _ => exact ok.kept (by simp) (by simp)
  | main taken => exact ok.kept taken.frame.writes (by simp [taken.frame.task])

theorem run_bytes {ok : State → Event → Prop} (run : ServerRun ok s) : BytesOk s :=
  run.invariant_of run_output (fun _ => rfl) fun output _ ok _ taken => step_bytes ok output (step_cases taken)

theorem toInt_eq_iff {n m : Int} (nonneg : 0 ≤ m) : toInt n = m ↔ m ≤ INT_MAX ∧ 2 ^ 32 ∣ n - m := by
  unfold toInt INT_MAX
  rw [Int.bmod_def]
  split <;> omega

theorem step_logBytes (here : s.pc = .logBytes p ending) : step s (.sched a) =
    some ((s.addLog (.bytesSent (s.task p).clientId (s.task p).bytesSent)).setPc (.logEnded p ending)) := by
  simp [step, schedStep, here]

/-! ### The single calls of `send` -/

/-- One call of `send` or `write`: the connection that the descriptor denotes at that moment, and the number of
bytes that it accepts. -/
structure Call where
  target : Option ConnId
  accepted : Nat
  deriving DecidableEq

structure OutputChunk where
  task : Ptr
  data : CString
  calls : List Call := []

def OutputChunk.acceptedIn (k : OutputChunk) (which : Call → Bool) : Nat := ((k.calls.filter which).map (·.accepted)).sum

def OutputChunk.sent (k : OutputChunk) : Nat := k.acceptedIn fun _ => true

def OutputChunk.whole (k : OutputChunk) : Bool := k.sent = k.data.length

/-- The chunk that `scheduler_execute_task` hands to `send_all` or `dprintf` next. -/
def State.chunkOf (s : State) (a : Answer) : Option OutputChunk :=
  match s.pc with
  | .relay t _ => (a.read.filter fun data => data ≠ [] ∧ data.length ≤ BUFFER_SIZE).map fun data => { task := t, data }
  | .slice r =>
    if (s.task r.task).type = .demoProgram then
      some { task := r.task
             data := demoLine ((s.task r.task).burstTime - (s.task r.task).remainingTime) (s.task r.task).burstTime }
    else none
  | _ => none

structure Wire where
  server : State := {}
  sending : Option OutputChunk := none
  chunks : List OutputChunk := []

inductive WireEvent where
  | step (e : Event)
  | chunk (a : Answer)
  | call (n : Option Nat)

namespace Wire

def aside (w : Wire) : Event → Bool
  | .sched a => w.sending.isNone && (w.server.chunkOf a).isNone
  | _ => true

def finish (w : Wire) (k : OutputChunk) (sent : Sent) : Option Wire :=
  (schedStep w.server { read := some k.data, sent }).map fun t =>
    { server := t, sending := none, chunks := w.chunks ++ [k] }

def step (w : Wire) : WireEvent → Option Wire
  | .step e => if w.aside e then (MyShell.step w.server e).map ({ w with server := · }) else none
  | .chunk a => if w.sending.isSome then none else (w.server.chunkOf a).map ({ w with sending := some · })
  | .call n =>
    w.sending.bind fun k =>
      match n with
      | none => w.finish k (.failed 0)
      | some n =>
        let target := connection (w.server.fds (w.server.task k.task).clientFd)
        let k' := { k with calls := k.calls ++ [⟨target, n⟩] }
        if target.isSome ∧ k'.sent ≤ k.data.length then
          if k'.whole then w.finish k' .all else some { w with sending := some k' }
        else none

def bytesIn (w : Wire) (which : OutputChunk → Call → Bool) : Int :=
  (w.chunks.map fun k => (k.acceptedIn (which k) : Int)).sum

variable (w : Wire) (p : Ptr)

/-- Whether a call went to the connection of the client whose task it is. -/
def atHome (call : Call) : Bool := call.target = some (w.server.conn (w.server.task p).clientId)

/-- The bytes of the output of a task that its client's connection accepted. -/
def bytesAccepted : Int := w.bytesIn fun k call => k.task = p && w.atHome p call

/-- Those of them that are part of a chunk whose sending failed later on. -/
def bytesCut : Int := w.bytesIn fun k call => (k.task = p && w.atHome p call) && !k.whole

/-- The bytes of whole chunks of the output that another connection accepted, to which the number of the
client's descriptor had gone. -/
def bytesStray : Int := w.bytesIn fun k call => (k.task = p && k.whole) && !w.atHome p call

end Wire

variable {w w' : Wire} {k : OutputChunk} {x : WireEvent}

/-! ### Sums of calls -/

theorem OutputChunk.acceptedIn_split (k : OutputChunk) (which other : Call → Bool) : k.acceptedIn which =
    k.acceptedIn (fun call => which call && other call) + k.acceptedIn (fun call => which call && !other call) := by
  unfold OutputChunk.acceptedIn
  induction k.calls with
  | nil => rfl
  | cons call calls ih =>
    cases here : which call <;> cases there : other call <;>
      simp only [List.filter_cons, here, there, Bool.and_true, Bool.and_false, Bool.not_true, Bool.not_false,
        Bool.false_eq_true, if_true, if_false, List.map_cons, List.sum_cons] <;> omega

theorem Wire.bytesIn_split (w : Wire) (which other : OutputChunk → Call → Bool) : w.bytesIn which =
    w.bytesIn (fun k call => which k call && other k call) +
      w.bytesIn (fun k call => which k call && !other k call) := by
  unfold Wire.bytesIn
  induction w.chunks with
  | nil => rfl
  | cons k chunks ih =>
    have here := k.acceptedIn_split (which k) (other k)
    simp only [List.map_cons, List.sum_cons, ih]
    omega

theorem Wire.bytesIn_nonneg (w : Wire) (which : OutputChunk → Call → Bool) : 0 ≤ w.bytesIn which := by
  refine List.sum_nonneg fun n member => ?_
  obtain ⟨k, -, rfl⟩ := List.mem_map.mp member
  exact Int.natCast_nonneg _

def Wire.bytesCounted (w : Wire) (p : Ptr) : Int := w.bytesIn fun k _ => k.task = p && k.whole

/-- What is counted differs from what the client's connection accepted by the cut chunks and the stray bytes. -/
theorem bytesCounted_eq (w : Wire) (p : Ptr) : w.bytesCounted p + w.bytesCut p = w.bytesAccepted p + w.bytesStray p := by
  have counted := w.bytesIn_split (fun k _ => k.task = p && k.whole) fun _ call => w.atHome p call
  have accepted := w.bytesIn_split (fun k call => k.task = p && w.atHome p call) fun k _ => k.whole
  have both : (fun (k : OutputChunk) (call : Call) => (decide (k.task = p) && k.whole) && w.atHome p call) =
      fun k call => (decide (k.task = p) && w.atHome p call) && k.whole :=
    funext fun k => funext fun call => Bool.and_right_comm ..
  rw [both] at counted
  unfold Wire.bytesCounted Wire.bytesCut Wire.bytesAccepted Wire.bytesStray
  omega

theorem counted_finish {p : Ptr} (k : OutputChunk) (t : State) :
    Wire.bytesCounted { server := t, sending := none, chunks := w.chunks ++ [k] } p =
      w.bytesCounted p + if k.task = p ∧ k.whole = true then (k.data.length : Int) else 0 := by
  unfold Wire.bytesCounted Wire.bytesIn
  rw [List.map_append, List.sum_append, List.map_singleton, List.sum_singleton]
  congr 1
  by_cases counted : k.task = p ∧ k.whole = true
  · obtain ⟨mine, whole⟩ := counted
    have sent : k.sent = k.data.length := of_decide_eq_true whole
    simp [mine, whole, ← sent, OutputChunk.sent]
  · rw [if_neg counted]
    have none' : (fun _ : Call => decide (k.task = p) && k.whole) = fun _ => false :=
      funext fun _ => by simpa using counted
    show ((k.acceptedIn fun _ => decide (k.task = p) && k.whole : Nat) : Int) = 0
    rw [none']
    simp [OutputChunk.acceptedIn]

/-! ### The server under the calls -/

theorem demoLine_ne_nil (i burst : Int) : demoLine i burst ≠ [] :=
  List.append_ne_nil_of_right_ne_nil _ (by decide)

theorem chunkOf_read (chunk : s.chunkOf a = some k) :
    s.chunkOf { read := some k.data } = some { task := k.task, data := k.data } ∧ k.calls = [] ∧ k.data ≠ [] := by
  unfold State.chunkOf at chunk ⊢
  split at chunk <;> rename_i here
  · obtain ⟨data, read, rfl⟩ := Option.map_eq_some_iff.mp chunk
    have fits := (Option.filter_eq_some_iff.mp read).2
    simp only [decide_eq_true_eq] at fits
    simp [fits]
  · split at chunk
    · rename_i type
      cases chunk
      simp [type, demoLine_ne_nil]
    · cases chunk
  · cases chunk

theorem chunkOf_kept (inv : Inv s) (pc : t.pc = s.pc) (task : ∀ p < s.allocated, t.task p = s.task p) :
    t.chunkOf a = s.chunkOf a := by
  unfold State.chunkOf
  rw [pc]
  cases here : s.pc with
  | slice r => simp only [task r.task (inv.owned.held r.task (by rw [here]; rfl)).1]
  | _ => rfl

theorem chunk_sent (inv : Inv s) (chunk : s.chunkOf a = some k) (taken : SchedStep s a t) : k.task < s.allocated ∧
    ∃ w, t.writes = s.writes ++ [w] ∧ w.task = some k.task ∧ w.endMarker = false ∧ w.data = k.data ∧ w.sent = a.sent := by
  unfold State.chunkOf at chunk
  cases taken with
  | relay here answer nonempty fits =>
    simp only [here, answer] at chunk
    obtain ⟨data, read, rfl⟩ := Option.map_eq_some_iff.mp chunk
    obtain ⟨same, -⟩ := Option.filter_eq_some_iff.mp read
    cases same
    exact ⟨(inv.owned.held _ (by rw [here]; rfl)).1, _, rfl, rfl, rfl, rfl, rfl⟩
  | slice here type text =>
    simp only [here, type, if_true, Option.some.injEq] at chunk
    subst chunk
    exact ⟨(inv.owned.held _ (by rw [here]; rfl)).1, _, rfl, rfl, rfl, text, rfl⟩
  | relayEnd here answer => rcases answer with none | nothing <;> simp [*] at chunk
  | sliceNothing here type => simp [here, type] at chunk
  | _ => simp [‹s.pc = _›] at chunk

theorem counted_aside (taken : Step s e t) (aside : ∀ a, e = .sched a → s.chunkOf a = none) (p : Ptr) :
    t.bytesCounted p = s.bytesCounted p := by
  have kept : t.writes = s.writes → t.bytesCounted p = s.bytesCounted p := fun same => by
    rw [State.bytesCounted, same, State.bytesCounted]
  have other : ∀ w, t.writes = s.writes ++ [w] → w.outputOf p = false → t.bytesCounted p = s.bytesCounted p :=
    fun w appended none' => by
      rw [counted_append appended, none']
      simp
  cases taken with
  | main taken => exact kept taken.frame.writes
  | worker taken =>
    rcases taken.wrote with same | ⟨w, appended, own⟩
    · exact kept same
    · exact other w appended (by simp [Write.outputOf, own.task])
  | @sched a t taken =>
    have none' := aside a rfl
    unfold State.chunkOf at none'
    cases taken with
    | relay here answer nonempty fits =>
      simp [here, answer, nonempty] at none'
      exact absurd fits (Nat.not_le.mpr none')
    | slice here type => simp [here, type] at none'
    | sendMarker => exact other _ rfl (by simp [Write.outputOf])
    | _ => exact kept (by simp)

structure Wire.Ok (w : Wire) : Prop where
  server : ServerRun Machine.always w.server
  sending : ∀ k, w.sending = some k →
    w.server.chunkOf { read := some k.data } = some { task := k.task, data := k.data } ∧ k.sent < k.data.length
  counted : ∀ p, w.server.bytesCounted p = w.bytesCounted p

theorem Wire.Ok.step_aside (ok : w.Ok) (inv : Inv w.server) (aside : w.aside e = true)
    (taken : MyShell.step w.server e = some t) : Wire.Ok { w with server := t } := by
  refine ⟨ok.server.next trivial taken, fun k sending => ?_, fun p => ?_⟩
  · have before := ok.sending k sending
    refine ⟨?_, before.2⟩
    rw [← before.1]
    cases step_cases taken with
    | sched taken => simp [Wire.aside, show w.sending = some k from sending] at aside
    | worker taken => exact chunkOf_kept inv taken.frame.pc taken.frame.task
    | main taken => exact chunkOf_kept inv taken.frame.pc fun p _ => by rw [taken.frame.task]
  · show t.bytesCounted p = w.bytesCounted p
    rw [counted_aside (step_cases taken) (fun a event => ?_), ok.counted p]
    subst event
    simp only [Wire.aside, Bool.and_eq_true, Option.isNone_iff_eq_none] at aside
    exact aside.2

theorem Wire.Ok.step_finish (ok : w.Ok) (inv : Inv w.server) {sent : Sent}
    (chunk : w.server.chunkOf { read := some k.data } = some { task := k.task, data := k.data })
    (whole : k.whole = decide (sent = .all)) (taken : w.finish k sent = some w') : w'.Ok := by
  obtain ⟨t, moved, rfl⟩ := Option.map_eq_some_iff.mp taken
  have chunk : w.server.chunkOf { read := some k.data, sent } = some { task := k.task, data := k.data } := chunk
  obtain ⟨old, w₁, appended, task, output, data, how⟩ := chunk_sent inv chunk (schedStep_cases moved)
  refine ⟨ok.server.next trivial (show MyShell.step w.server (.sched { read := some k.data, sent }) = some t from moved),
    (by simp), fun p => ?_⟩
  rw [counted_finish]
  show t.bytesCounted p = _
  rw [counted_append appended, ok.counted p]
  congr 1
  have mine : w₁.outputOf p && w₁.whole ↔ k.task = p ∧ k.whole = true := by
    simp [Write.outputOf, Write.whole, task, output, how, whole]
  by_cases here : k.task = p ∧ k.whole = true
  · rw [if_pos (mine.mpr here), if_pos here]
    have all : w₁.sent = .all := by
      rw [how]
      exact of_decide_eq_true (whole ▸ here.2)
    rw [Write.accepted, all, data]
  · rw [if_neg fun both => here (mine.mp both), if_neg here]

theorem Wire.Ok.step (ok : w.Ok) (taken : w.step x = some w') : w'.Ok := by
  have inv := run_inv ok.server
  cases x with
  | step e =>
    simp only [Wire.step, Option.ite_none_right_eq_some, Option.map_eq_some_iff] at taken
    obtain ⟨aside, t, taken, rfl⟩ := taken
    exact ok.step_aside inv aside taken
  | chunk a =>
    simp only [Wire.step, Option.ite_none_left_eq_some, Option.map_eq_some_iff] at taken
    obtain ⟨-, k, chunk, rfl⟩ := taken
    refine ⟨ok.server, fun k' sending => ?_, ok.counted⟩
    cases sending
    obtain ⟨same, fresh, nonempty⟩ := chunkOf_read chunk
    exact ⟨same, by simpa [OutputChunk.sent, OutputChunk.acceptedIn, fresh] using List.length_pos_iff.mpr nonempty⟩
  | call n =>
    obtain ⟨k, sending, taken⟩ := Option.bind_eq_some_iff.mp taken
    obtain ⟨chunk, less⟩ := ok.sending k sending
    cases n with
    | none => exact ok.step_finish inv chunk (by simpa [OutputChunk.whole] using Nat.ne_of_lt less) taken
    | some n =>
      simp only [Option.ite_none_right_eq_some] at taken
      obtain ⟨⟨-, fits⟩, taken⟩ := taken
      split at taken
      · rename_i whole
        exact ok.step_finish inv (by exact chunk) (by rw [whole]; rfl) taken
      · rename_i part
        cases taken
        refine ⟨ok.server, fun k' now => ?_, ok.counted⟩
        cases now
        exact ⟨chunk, Nat.lt_of_le_of_ne fits fun same => part (decide_eq_true same)⟩

abbrev WireRun (ok : Wire → WireEvent → Prop) (w : Wire) : Prop := Machine.Run Wire.step ok {} w

theorem wireRun_by (ok : Wire → WireEvent → Prop) [∀ w x, Decidable (ok w x)] (events : List WireEvent)
    (test : Wire → Bool) (passed : (Machine.follow Wire.step ok {} events).any test = true) :
    ∃ w, WireRun ok w ∧ test w = true :=
  Machine.exists_run events passed

theorem run_wire {ok : Wire → WireEvent → Prop} (run : WireRun ok w) : w.Ok :=
  run.invariant ⟨.refl, by simp, fun _ => rfl⟩ fun ok _ taken => ok.step taken

/-- The number that is logged when a task completes is that of the bytes of its output that its client's
connection accepted, just when that is an `int` and the bytes of cut chunks and the stray bytes balance. -/
theorem run_bytes_logged (run : WireRun Machine.always w) (here : w.server.pc = .logBytes p ending)
    (taken : w.step (.step (.sched a)) = some w') :
    ∃ bytes, w'.server.log = w.server.log ++ [.bytesSent (w.server.task p).clientId bytes] ∧
      (bytes = w.bytesAccepted p ↔ w.bytesAccepted p ≤ INT_MAX ∧ 2 ^ 32 ∣ w.bytesStray p - w.bytesCut p) := by
  have ok := run_wire run
  simp only [Wire.step, Option.ite_none_right_eq_some, Option.map_eq_some_iff] at taken
  obtain ⟨-, t, taken, rfl⟩ := taken
  rw [step_logBytes here] at taken
  cases taken
  refine ⟨(w.server.task p).bytesSent, rfl, ?_⟩
  have nonneg : 0 ≤ w.bytesAccepted p := w.bytesIn_nonneg _
  have sums := bytesCounted_eq w p
  have difference : w.bytesCounted p - w.bytesAccepted p = w.bytesStray p - w.bytesCut p := by omega
  rw [run_bytes ok.server p, ok.counted p, toInt_eq_iff nonneg, difference]

/-- Client 1 runs a command that writes `ab`, which the calls send up to the line with the count. -/
def WireEvent.relayed (calls : List (Option Nat)) : List WireEvent :=
  (Event.connect 5 ++ Event.submit 1 "ls" ++ Event.schedule 7 ++
    [Event.sched { pipe := some (6, 7) }, .sched {}, .sched {}]).map .step ++
    [.chunk { read := some "ab".toList }] ++ calls.map .call ++ (Event.schedule 3).map .step

theorem run_bytes_logged_ls : ∃ w w', WireRun Machine.always w ∧ w.step (.step (.sched {})) = some w' ∧
    w.bytesAccepted 0 = 2 ∧ w'.server.log = w.server.log ++ [.bytesSent 1 2] := by
  obtain ⟨w, run, seen⟩ := wireRun_by Machine.always (WireEvent.relayed [some 1, some 1])
    (fun w => w.server.pc = .logBytes 0 .shellDone ∧ (w.server.task 0).clientId = 1 ∧ w.bytesAccepted 0 = 2 ∧
      w.bytesStray 0 = 0 ∧ w.bytesCut 0 = 0 ∧ (w.step (.step (.sched {}))).isSome) (by decide +kernel)
  obtain ⟨here, client, accepted, stray, cut, moves⟩ := of_decide_eq_true seen
  obtain ⟨w', taken⟩ := Option.isSome_iff_exists.mp moves
  obtain ⟨bytes, logged, right⟩ := run_bytes_logged run here taken
  have two : bytes = 2 := accepted ▸ right.mpr ⟨by rw [accepted]; decide, by rw [stray, cut]; decide⟩
  refine ⟨w, w', run, taken, accepted, ?_⟩
  rw [logged, client, two]

/-- The client's connection accepts one of the two bytes before the error, and none is counted. -/
theorem cut_chunk_not_counted : ¬ ∀ w a w' p ending, WireRun Machine.always w → w.server.pc = .logBytes p ending →
    w.step (.step (.sched a)) = some w' →
      w'.server.log = w.server.log ++ [.bytesSent (w.server.task p).clientId (w.bytesAccepted p)] := by
  intro claimed
  obtain ⟨w, run, seen⟩ := wireRun_by Machine.always (WireEvent.relayed [some 1, none])
    (fun w => w.server.pc = .logBytes 0 .shellDone ∧ w.bytesAccepted 0 = 1 ∧
      (w.step (.step (.sched {}))).any fun w' => w'.server.log.getLast? = some (.bytesSent 1 0)) (by decide +kernel)
  obtain ⟨here, accepted, rest⟩ := of_decide_eq_true seen
  obtain ⟨w', taken, counted⟩ := (Option.any_eq_true ..).mp rest
  have same := claimed w {} w' 0 .shellDone run here taken
  simp [same, accepted] at counted

end MyShell
