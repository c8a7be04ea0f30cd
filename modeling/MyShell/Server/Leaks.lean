import MyShell.Server.Isolation
import Mathlib.Data.Finset.Card
import Mathlib.Data.Finset.Range
import Mathlib.Data.Finset.Image

/-! # No descriptor is lost

Every number in use has an owner that closes it: the program itself for what it has open from the
start, the worker of a client, the accept loop on the way to that worker, or the scheduler while it
runs a shell command. So the table is accounted for by the program points alone, in every run and
whatever calls fail in it. -/

namespace MyShell

open State

/-- Who has the number `fd`, and what it denotes then. -/
inductive Owner (s : State) (fd : Fd) : Descriptor → Prop where
  | standard (low : fd < 5) : Owner s fd .other
  | client {c} (connected : (s.worker c).connected = true) (mine : (s.context c).clientFd = fd) :
      Owner s fd (.conn (s.conn c))
  | accepting (here : s.main = .accepting fd) : Owner s fd .reserved
  | setup {k} (here : s.main = .setup fd k) : Owner s fd (.conn k)
  | spawn {c} (here : s.main = .spawn c) (mine : (s.context c).clientFd = fd) : Owner s fd (.conn (s.conn c))
  | scheduler (member : fd ∈ s.pc.pipeEnds) : Owner s fd .pipe

structure Accounted (s : State) : Prop where
  standard : ∀ fd < 5, s.fds fd = some .other
  owned : ∀ fd d, s.fds fd = some d → Owner s fd d

variable {s t : State} {a : Answer} {c : ClientId} {e : Event} {fd : Fd} {d : Descriptor}

/-! ### One step -/

theorem Owner.sched (owner : Owner s fd d) (frame : SchedFrame s t)
    (ends : fd ∈ s.pc.pipeEnds → fd ∈ t.pc.pipeEnds) : Owner t fd d := by
  cases owner with
  | standard low => exact .standard low
  | @client c connected mine =>
    rw [← frame.conn]
    exact .client (frame.worker ▸ connected) (frame.context ▸ mine)
  | accepting here => exact .accepting (frame.main ▸ here)
  | setup here => exact .setup (frame.main ▸ here)
  | @spawn c here mine =>
    rw [← frame.conn]
    exact .spawn (frame.main ▸ here) (frame.context ▸ mine)
  | scheduler member => exact .scheduler (ends member)

theorem Owner.worker (owner : Owner s fd d) (frame : WorkerFrame s t c)
    (stays : (s.worker c).connected = true → (t.worker c).connected = true ∨ (s.context c).clientFd ≠ fd) :
    Owner t fd d := by
  cases owner with
  | standard low => exact .standard low
  | @client c' connected mine =>
    have here : (t.worker c').connected = true := by
      by_cases same : c' = c
      · subst same
        exact (stays connected).resolve_right fun other => other mine
      · rwa [frame.worker c' same]
    rw [← frame.conn]
    exact .client here (frame.context ▸ mine)
  | accepting here => exact .accepting (frame.main ▸ here)
  | setup here => exact .setup (frame.main ▸ here)
  | @spawn c' here mine =>
    rw [← frame.conn]
    exact .spawn (frame.main ▸ here) (frame.context ▸ mine)
  | scheduler member => exact .scheduler (frame.pc ▸ member)

theorem update_none {fds : Fd → Option Descriptor} {n : Fd} (here : Function.update fds n none fd = some d) :
    fd ≠ n ∧ fds fd = some d := by
  by_cases same : fd = n
  · subst same
    simp at here
  · exact ⟨same, by simpa [same] using here⟩

theorem update_some {fds : Fd → Option Descriptor} {n : Fd} {new : Descriptor}
    (here : Function.update fds n (some new) fd = some d) : fd = n ∧ d = new ∨ fd ≠ n ∧ fds fd = some d := by
  by_cases same : fd = n
  · subst same
    exact .inl ⟨rfl, by simpa [eq_comm] using here⟩
  · exact .inr ⟨same, by simpa [same] using here⟩

theorem Accounted.schedStay (ok : Accounted s) (frame : SchedFrame s t) (fds : t.fds = s.fds)
    (ends : t.pc.pipeEnds = s.pc.pipeEnds) : Accounted t where
  standard := fds ▸ ok.standard
  owned fd d here := (ok.owned fd d (fds ▸ here)).sched frame fun member => ends ▸ member

theorem Accounted.apart (ok : Accounted s) (low : fd < 5) {n : Fd} (denotes : s.fds n ≠ some .other) : fd ≠ n := by
  rintro rfl
  exact denotes (ok.standard fd low)

theorem schedStep_accounted (ok : Accounted s) (fds : FdsOk s) (taken : SchedStep s a t) : Accounted t := by
  have frame := taken.frame
  have standard : ∀ n ∈ s.pc.pipeEnds, ∀ fd < 5, fd ≠ n := fun n member fd low =>
    ok.apart low (by simp [fds.pipes n member])
  cases taken with
  | @pipe p r w here answer first second =>
    have r_free := lowestFree_none first
    have w_free := lowestFree_none second
    refine ⟨fun fd low => ?_, fun fd d there => ?_⟩
    · have not_r := ok.apart low (n := r) (by simp [r_free])
      have not_w : fd ≠ w := by
        rintro rfl
        simp [not_r, ok.standard fd low] at w_free
      simpa [not_r, not_w] using ok.standard fd low
    · rcases update_some there with ⟨rfl, rfl⟩ | ⟨-, there⟩
      · exact .scheduler (by simp [SchedPc.pipeEnds])
      rcases update_some there with ⟨rfl, rfl⟩ | ⟨-, there⟩
      · exact .scheduler (by simp [SchedPc.pipeEnds])
      · exact (ok.owned fd d there).sched frame (by simp [here, SchedPc.pipeEnds])
  | @forkFailed p r w here =>
    rw [here] at standard
    refine ⟨fun fd low => ?_, fun fd d there => ?_⟩
    · have not_r := standard r (by simp [SchedPc.pipeEnds]) fd low
      have not_w := standard w (by simp [SchedPc.pipeEnds]) fd low
      simpa [not_r, not_w] using ok.standard fd low
    · obtain ⟨not_w, there⟩ := update_none there
      obtain ⟨not_r, there⟩ := update_none there
      exact (ok.owned fd d there).sched frame (by simp [here, SchedPc.pipeEnds, not_r, not_w])
  | @closeWrite p r w here =>
    rw [here] at standard
    refine ⟨fun fd low => ?_, fun fd d there => ?_⟩
    · simpa [standard w (by simp [SchedPc.pipeEnds]) fd low] using ok.standard fd low
    · obtain ⟨not_w, there⟩ := update_none there
      exact (ok.owned fd d there).sched frame (by simp [here, SchedPc.pipeEnds, not_w])
  | @closeRead p r here =>
    rw [here] at standard
    refine ⟨fun fd low => ?_, fun fd d there => ?_⟩
    · simpa [standard r (by simp [SchedPc.pipeEnds]) fd low] using ok.standard fd low
    · obtain ⟨not_r, there⟩ := update_none there
      exact (ok.owned fd d there).sched frame (by simp [here, SchedPc.pipeEnds, not_r])
  | relay => exact ok.schedStay frame (by simp) (by simp)
  | update here => exact ok.schedStay frame (by simp) (by rw [here, setPc_pc, afterUpdate_pipeEnds]; rfl)
  | check here => exact ok.schedStay frame (by simp) (by rw [here, setPc_pc, afterCheck_pipeEnds]; rfl)
  | countRound here => exact ok.schedStay frame (by simp) (by rw [here, setPc_pc, afterQuantum_pipeEnds]; rfl)
  | _ => exact ok.schedStay frame (by simp) (by rw [‹s.pc = _›]; rfl)

theorem workerStep_accounted (ok : Accounted s) (fds : FdsOk s) (taken : WorkerStep s c a t) : Accounted t := by
  have frame := taken.frame
  cases taken with
  | close here =>
    have mine : s.fds (s.context c).clientFd = some (.conn (s.conn c)) := fds.client c (by rw [here]; rfl)
    refine ⟨fun fd low => ?_, fun fd d there => ?_⟩
    · simpa [ok.apart low (n := (s.context c).clientFd) (by simp [mine])] using ok.standard fd low
    · obtain ⟨other, there⟩ := update_none there
      exact (ok.owned fd d there).worker frame fun _ => .inr (Ne.symm other)
  | _ =>
    have here := ‹s.worker c = _›
    refine ⟨by simpa using ok.standard, fun fd d there => ?_⟩
    refine (ok.owned fd d (by simpa using there)).worker frame fun connected => .inl ?_
    simp [here, WorkerPc.connected] at connected ⊢

theorem Owner.released (owner : Owner s fd d) (accepting : s.main ≠ .accepting fd) (setup : ∀ k, s.main ≠ .setup fd k)
    (spawn : ∀ c, s.main = .spawn c → (s.context c).clientFd ≠ fd) (worker : t.worker = s.worker)
    (context : t.context = s.context) (conn : t.conn = s.conn) (pc : t.pc = s.pc) : Owner t fd d := by
  cases owner with
  | standard low => exact .standard low
  | client connected mine =>
    rw [← conn]
    exact .client (worker ▸ connected) (context ▸ mine)
  | accepting here => exact absurd here accepting
  | setup here => exact absurd here (setup _)
  | spawn here mine => exact absurd mine (spawn _ here)
  | scheduler member => exact .scheduler (pc ▸ member)

/-- The accept loop changes what a number denotes that the program has not had open from the start. -/
theorem Accounted.mainMove (ok : Accounted s) {n : Fd} {new : Option Descriptor} (fds : t.fds = Function.update s.fds n new)
    (old : s.fds n ≠ some .other) (gets : ∀ d, new = some d → Owner t n d)
    (keeps : ∀ fd d, fd ≠ n → Owner s fd d → Owner t fd d) : Accounted t := by
  refine ⟨fun fd low => ?_, fun fd d there => ?_⟩
  · rw [fds, Function.update_of_ne (ok.apart low old)]
    exact ok.standard fd low
  · rw [fds] at there
    by_cases same : fd = n
    · subst same
      exact gets d (by simpa using there)
    · exact keeps fd d same (ok.owned fd d (by simpa [same] using there))

theorem mainStep_accounted (ok : Accounted s) (inv : Inv s) (fds : FdsOk s) (taken : MainStep s a t) : Accounted t := by
  cases taken with
  | acceptFailed => exact ok
  | @accept n here answer free =>
    refine ok.mainMove rfl (by simp [lowestFree_none free]) (fun d same => ?_) fun fd d other owner => ?_
    · cases same
      exact .accepting rfl
    · exact owner.released (by simp [here]) (by simp [here]) (by simp [here]) rfl rfl rfl rfl
  | @accepted n here =>
    refine ok.mainMove rfl (by simp [fds.accepting n here]) (fun d same => ?_) fun fd d other owner => ?_
    · cases same
      exact .setup rfl
    · exact owner.released (by simp [here, Ne.symm other]) (by simp [here]) (by simp [here]) rfl rfl rfl rfl
  | @notAccepted n here =>
    refine ok.mainMove rfl (by simp [fds.accepting n here]) (by simp) fun fd d other owner => ?_
    exact owner.released (by simp [here, Ne.symm other]) (by simp [here]) (by simp [here]) rfl rfl rfl rfl
  | @setup n k here =>
    refine ⟨ok.standard, fun fd d there => ?_⟩
    cases ok.owned fd d there with
    | standard low => exact .standard low
    | @client c connected mine =>
      have old : c ≠ s.nextClientId := by
        refine Nat.ne_of_lt (inv.clients.born c fun absent => ?_)
        simp [absent, WorkerPc.connected] at connected
      have same : ((s.addClient n k).setMain (.spawn s.nextClientId)).conn c = s.conn c := by simp [old]
      rw [← same]
      exact .client connected (by simpa [old] using mine)
    | accepting held => simp [here] at held
    | @setup k' held =>
      obtain ⟨rfl, rfl⟩ : n = fd ∧ k = k' := by simpa [here] using held
      have same : ((s.addClient n k).setMain (.spawn s.nextClientId)).conn s.nextClientId = k := by simp
      nth_rewrite 2 [← same]
      exact .spawn rfl (by simp)
    | spawn held => simp [here] at held
    | scheduler member => exact .scheduler member
  | @setupFailed n k here =>
    refine ok.mainMove rfl (by simp [(fds.setup n k here).1]) (by simp) fun fd d other owner => ?_
    exact owner.released (by simp [here]) (by simp [here, Ne.symm other]) (by simp [here]) rfl rfl rfl rfl
  | @spawn n here =>
    refine ⟨ok.standard, fun fd d there => ?_⟩
    cases ok.owned fd d there with
    | standard low => exact .standard low
    | @client c connected mine =>
      refine .client (c := c) ?_ mine
      by_cases same : c = n
      · simp [same, WorkerPc.connected]
      · simpa [same] using connected
    | accepting held | setup held => simp [here] at held
    | @spawn c held mine =>
      obtain rfl : n = c := by simpa [here] using held
      exact .client (c := n) (by simp [WorkerPc.connected]) mine
    | scheduler member => exact .scheduler member
  | @spawnFailed n here =>
    refine ok.mainMove rfl (by simp [(fds.spawn n here).1]) (by simp) fun fd d other owner => ?_
    refine owner.released (by simp [here]) (by simp [here]) (fun c there => ?_) rfl rfl rfl rfl
    obtain rfl : n = c := by simpa [here] using there
    exact Ne.symm other

theorem step_accounted (ok : Accounted s) (inv : Inv s) (fds : FdsOk s) (taken : Step s e t) : Accounted t := by
  cases taken with
  | sched taken => exact schedStep_accounted ok fds taken
  | worker taken => exact workerStep_accounted ok fds taken
  | main taken => exact mainStep_accounted ok inv fds taken

theorem run_accounted {ok : State → Event → Prop} (run : ServerRun ok s) : Accounted s := by
  refine run.invariant_of (J := fun s => Inv s ∧ FdsOk s) (fun run => ⟨run_inv run, run_fds run⟩) ⟨?_, ?_⟩
    fun inv _ ok _ taken => step_accounted ok inv.1 inv.2 (step_cases taken)
  · intro fd low
    simp [State.initial, low]
  · intro fd d here
    simp only [State.initial, Option.ite_none_right_eq_some, Option.some.injEq] at here
    exact here.2 ▸ .standard here.1

/-- The table is what the program points of the threads say, and nothing else. -/
theorem Accounted.iff (ok : Accounted s) (fds : FdsOk s) : s.fds fd = some d ↔ Owner s fd d := by
  refine ⟨ok.owned fd d, fun owner => ?_⟩
  cases owner with
  | standard low => exact ok.standard fd low
  | client connected mine => exact mine ▸ fds.client _ connected
  | accepting here => exact fds.accepting fd here
  | setup here => exact (fds.setup _ _ here).1
  | spawn here mine => exact mine ▸ (fds.spawn _ here).1
  | scheduler member => exact fds.pipes fd member

/-! ### How many there are -/

def State.clients (s : State) : Finset ClientId :=
  (Finset.range s.nextClientId).filter fun c => (s.worker c).connected = true

/-- What the accept loop has on the way to a worker, from the call of `accept` on. -/
def State.incoming (s : State) : Finset Fd :=
  match s.main with
  | .accept => ∅
  | .accepting fd | .setup fd _ => {fd}
  | .spawn c => {(s.context c).clientFd}

def State.inUse (s : State) : Finset Fd :=
  Finset.range 5 ∪ s.clients.image (fun c => (s.context c).clientFd) ∪ s.incoming ∪ s.pc.pipeEnds.toFinset

theorem mem_clients (inv : Inv s) : c ∈ s.clients ↔ (s.worker c).connected = true := by
  simp only [State.clients, Finset.mem_filter, Finset.mem_range, and_iff_right_iff_imp]
  intro connected
  refine inv.clients.born c fun absent => ?_
  simp [absent, WorkerPc.connected] at connected

theorem incoming_owner (member : fd ∈ s.incoming) : ∃ d, d ≠ .other ∧ d ≠ .pipe ∧ Owner s fd d := by
  unfold State.incoming at member
  split at member
  · simp at member
  · obtain rfl := Finset.mem_singleton.mp member
    exact ⟨_, by simp, by simp, .accepting ‹_›⟩
  · obtain rfl := Finset.mem_singleton.mp member
    exact ⟨_, by simp, by simp, .setup ‹_›⟩
  · obtain rfl := Finset.mem_singleton.mp member
    exact ⟨_, by simp, by simp, .spawn ‹_› rfl⟩

theorem mem_inUse (inv : Inv s) : fd ∈ s.inUse ↔ ∃ d, Owner s fd d := by
  simp only [State.inUse, Finset.mem_union, Finset.mem_range, Finset.mem_image, List.mem_toFinset]
  constructor
  · rintro (((low | ⟨c, member, rfl⟩) | member) | member)
    · exact ⟨_, .standard low⟩
    · exact ⟨_, .client ((mem_clients inv).mp member) rfl⟩
    · obtain ⟨d, -, -, owner⟩ := incoming_owner member
      exact ⟨d, owner⟩
    · exact ⟨_, .scheduler member⟩
  · rintro ⟨d, owner⟩
    cases owner with
    | standard low => exact .inl (.inl (.inl low))
    | client connected mine => exact .inl (.inl (.inr ⟨_, (mem_clients inv).mpr connected, mine⟩))
    | accepting here | setup here => exact .inl (.inr (by simp [State.incoming, here]))
    | spawn here mine => exact .inl (.inr (by simp [State.incoming, here, mine]))
    | scheduler member => exact .inr member

theorem incoming_apart (fds : FdsOk s) (connected : (s.worker c).connected = true) :
    (s.context c).clientFd ∉ s.incoming := by
  unfold State.incoming
  split
  · simp
  · simpa using fds.apartOfAccepting ‹_› (fds.client c connected) (by simp)
  · simpa using (fds.setup _ _ ‹_›).2 c connected
  · simpa using (fds.spawn _ ‹_›).2 c connected

theorem card_inUse (fds : FdsOk s) (accounted : Accounted s) (inv : Inv s) :
    s.inUse.card = 5 + s.clients.card + s.incoming.card + s.pc.pipeEnds.length := by
  have denotes : ∀ {fd d}, Owner s fd d → s.fds fd = some d := (accounted.iff fds).mpr
  have high : ∀ {fd d}, Owner s fd d → d ≠ .other → 5 ≤ fd := fun {fd d} owner other => by
    refine Nat.le_of_not_lt fun low => accounted.apart low (n := fd) ?_ rfl
    simpa [denotes owner] using other
  have injective : Set.InjOn (fun c => (s.context c).clientFd) s.clients := fun c member c' member' same =>
    fds.distinct c c' ((mem_clients inv).mp member) ((mem_clients inv).mp member') same
  have clients : ∀ fd ∈ s.clients.image fun c => (s.context c).clientFd, ∃ c, (s.worker c).connected = true ∧
      (s.context c).clientFd = fd := fun fd member => by
    obtain ⟨c, here, mine⟩ := Finset.mem_image.mp member
    exact ⟨c, (mem_clients inv).mp here, mine⟩
  have low : Disjoint (Finset.range 5) (s.clients.image fun c => (s.context c).clientFd) := by
    refine Finset.disjoint_left.mpr fun fd standard member => ?_
    obtain ⟨c, connected, mine⟩ := clients fd member
    exact absurd (Finset.mem_range.mp standard) (Nat.not_lt_of_le (high (.client connected mine) (by simp)))
  have coming : Disjoint (Finset.range 5 ∪ s.clients.image fun c => (s.context c).clientFd) s.incoming := by
    refine Finset.disjoint_left.mpr fun fd member incoming => ?_
    rcases Finset.mem_union.mp member with standard | member
    · obtain ⟨d, other, -, owner⟩ := incoming_owner incoming
      exact absurd (Finset.mem_range.mp standard) (Nat.not_lt_of_le (high owner other))
    · obtain ⟨c, connected, rfl⟩ := clients fd member
      exact incoming_apart fds connected incoming
  have pipes : Disjoint (Finset.range 5 ∪ (s.clients.image fun c => (s.context c).clientFd) ∪ s.incoming)
      s.pc.pipeEnds.toFinset := by
    refine Finset.disjoint_left.mpr fun fd member pipe => ?_
    have pipe := fds.pipes fd (List.mem_toFinset.mp pipe)
    rcases Finset.mem_union.mp member with member | incoming
    · rcases Finset.mem_union.mp member with standard | member
      · simp [accounted.standard fd (Finset.mem_range.mp standard)] at pipe
      · obtain ⟨c, connected, mine⟩ := clients fd member
        simp [denotes (.client connected mine)] at pipe
    · obtain ⟨d, -, other, owner⟩ := incoming_owner incoming
      exact other (Option.some.inj ((denotes owner).symm.trans pipe))
  rw [State.inUse, Finset.card_union_of_disjoint pipes, Finset.card_union_of_disjoint coming,
    Finset.card_union_of_disjoint low, Finset.card_range, Finset.card_image_of_injOn injective,
    List.toFinset_card_of_nodup fds.apart]

theorem incoming_card : s.incoming.card ≤ 1 := by
  unfold State.incoming
  split <;> simp

theorem pipeEnds_length (pc : SchedPc) : pc.pipeEnds.length ≤ 2 := by
  cases pc <;> simp [SchedPc.pipeEnds]

/-! ### Which numbers are taken -/

theorem lowestFree_le {fds : Fd → Option Descriptor} {used : Finset Fd} (all : ∀ n, (fds n).isSome = true → n ∈ used)
    (lowest : lowestFree fds fd = true) : fd ≤ used.card := by
  simp only [lowestFree, Bool.and_eq_true, List.all_eq_true, List.mem_range] at lowest
  have below : Finset.range fd ⊆ used := fun n member => all n (lowest.2 n (Finset.mem_range.mp member))
  simpa using Finset.card_le_card below

theorem update_opens {fds : Fd → Option Descriptor} {n : Fd} {new : Option Descriptor} (free : fds fd = none)
    (opened : (Function.update fds n new fd).isSome = true) : fd = n := by
  by_contra other
  simp [other, free] at opened

/-- Only `accept` and `pipe` take numbers, `pipe` two of them. -/
theorem step_opens (fds : FdsOk s) (taken : Step s e t) (free : s.fds fd = none) (opened : (t.fds fd).isSome = true) :
    s.main = .accept ∧ lowestFree s.fds fd = true ∨
      ∃ p r, s.pc = .pipe p ∧ lowestFree s.fds r = true ∧
        (fd = r ∨ lowestFree (Function.update s.fds r (some .pipe)) fd = true) := by
  cases taken with
  | sched taken =>
    cases taken with
    | @pipe p r w here answer first second =>
      refine .inr ⟨p, r, here, first, ?_⟩
      by_cases same : fd = r
      · exact .inl same
      · have free : Function.update s.fds r (some .pipe) fd = none := by simpa [same] using free
        exact .inr (update_opens free opened ▸ second)
    | @forkFailed p r w here =>
      have ends : ∀ n ∈ [r, w], fd ≠ n := fun n member same => by
        simp [same, fds.pipes n (by rw [here]; exact member)] at free
      simp [ends r (by simp), ends w (by simp), free] at opened
    | @closeWrite p r w here =>
      obtain rfl := update_opens free opened
      simp at opened
    | @closeRead p r here =>
      obtain rfl := update_opens free opened
      simp at opened
    | _ => simp [free] at opened
  | worker taken =>
    cases taken with
    | close here =>
      obtain rfl := update_opens free opened
      simp at opened
    | _ => simp [free] at opened
  | main taken =>
    cases taken with
    | accept here answer lowest => exact .inl ⟨here, update_opens free opened ▸ lowest⟩
    | accepted here =>
      obtain rfl := update_opens free opened
      simp [fds.accepting _ here] at free
    | notAccepted | setupFailed | spawnFailed =>
      obtain rfl := update_opens free opened
      simp at opened
    | _ => simp [free] at opened

theorem opened_le (fds : FdsOk s) (used : ∀ n, n ∈ s.inUse ↔ (s.fds n).isSome = true)
    (card : s.inUse.card = 5 + s.clients.card + s.incoming.card + s.pc.pipeEnds.length) (taken : Step s e t)
    (free : s.fds fd = none) (opened : (t.fds fd).isSome = true) : fd ≤ 7 + s.clients.card := by
  have all : ∀ n, (s.fds n).isSome = true → n ∈ s.inUse := fun n => (used n).mpr
  have coming := incoming_card (s := s)
  rcases step_opens fds taken free opened with ⟨here, lowest⟩ | ⟨p, r, here, first, same | lowest⟩
  · have none : s.incoming.card = 0 := by simp [State.incoming, here]
    have ends := pipeEnds_length s.pc
    have most : s.inUse.card ≤ 7 + s.clients.card := by omega
    exact Nat.le_trans (lowestFree_le all lowest) most
  all_goals have none : s.pc.pipeEnds.length = 0 := by simp [here, SchedPc.pipeEnds]
  · have most : s.inUse.card ≤ 7 + s.clients.card := by omega
    exact same ▸ Nat.le_trans (lowestFree_le all first) most
  · have more : ∀ n, (Function.update s.fds r (some .pipe) n).isSome = true → n ∈ insert r s.inUse := fun n there => by
      by_cases same : n = r
      · simp [same]
      · exact Finset.mem_insert_of_mem (all n (by simpa [same] using there))
    have larger := Finset.card_insert_le r s.inUse
    have most : (insert r s.inUse).card ≤ 7 + s.clients.card := by omega
    exact Nat.le_trans (lowestFree_le more lowest) most

/-- Every descriptor in use has one owner, so there are at most eight more than connected clients, and a step takes
no number further up than that. -/
theorem run_descriptors (run : ServerRun Machine.always s) :
    (∀ fd d, s.fds fd = some d ↔ Owner s fd d) ∧ (∀ fd, fd ∈ s.inUse ↔ (s.fds fd).isSome = true) ∧
    s.inUse.card = 5 + s.clients.card + s.incoming.card + s.pc.pipeEnds.length ∧
    s.incoming.card ≤ 1 ∧ s.pc.pipeEnds.length ≤ 2 ∧
    ∀ e t fd, step s e = some t → s.fds fd = none → (t.fds fd).isSome = true → fd ≤ 7 + s.clients.card := by
  have fds := run_fds run
  have used : ∀ fd, fd ∈ s.inUse ↔ (s.fds fd).isSome = true := fun fd => by
    simp only [mem_inUse (run_inv run), Option.isSome_iff_exists, (run_accounted run).iff fds]
  have card := card_inUse fds (run_accounted run) (run_inv run)
  refine ⟨fun fd d => (run_accounted run).iff fds, used, card, incoming_card, pipeEnds_length s.pc, ?_⟩
  intro e t fd taken free opened
  exact opened_le fds used card (step_cases taken) free opened

/-- `accept` waits with the number 6, and the pipe of a command gets the two behind it. -/
theorem run_descriptors_running : ∃ s, ServerRun Machine.always s ∧ s.pc.pipeEnds = [7, 8] ∧ s.incoming = {6} ∧
    s.clients = {1} ∧ s.inUse.card = 9 := by
  obtain ⟨s, run, seen⟩ := serverRun_by Machine.always
    (Event.connect 5 ++ [.main { accept := some 6 }] ++ Event.submit 1 "ls" ++ Event.schedule 7 ++
      [.sched { pipe := some (7, 8) }])
    (fun s => s.pc.pipeEnds = [7, 8] ∧ s.incoming = {6} ∧ s.clients = {1}) (by decide +kernel)
  obtain ⟨pipe, incoming, clients⟩ := of_decide_eq_true seen
  refine ⟨s, run, pipe, incoming, clients, ?_⟩
  rw [(run_descriptors run).2.2.1, pipe, incoming, clients]
  rfl

end MyShell
