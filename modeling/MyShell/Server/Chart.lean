import MyShell.Server.Accounting
import MyShell.Trace
import Mathlib.Data.List.Chain

/-! # The chart of a run

The trace that the summaries print is a chart of who has had the processor: an entry for each dispatch that
used up time, with its client and the time used until its end. -/

namespace MyShell

open State

/-! ### The trace of a list of entries -/

def drawTrace (pairs : List (Int × Int)) : CString :=
  pairs.foldl (fun trace pair => schedulerAppendTrace trace pair.1 pair.2) []

variable {pairs : List (Int × Int)} {pair : Int × Int}

theorem drawTrace_append : drawTrace (pairs ++ [pair]) = schedulerAppendTrace (drawTrace pairs) pair.1 pair.2 := by
  simp [drawTrace]

/-- The trace shows the entries up to the `k`th, and leaves out the rest when it is full. -/
structure Shows (trace : CString) (pairs : List (Int × Int)) (k : Nat) : Prop where
  within : k ≤ pairs.length
  text : trace = renderTrace (pairs.take k)
  full : k < pairs.length → 4064 ≤ trace.length

theorem drawTrace_shows (pairs : List (Int × Int)) : ∃ k, Shows (drawTrace pairs) pairs k := by
  induction pairs using List.reverseRecOn with
  | nil => exact ⟨0, Nat.le_refl 0, rfl, nofun⟩
  | append_singleton pairs pair ih =>
    obtain ⟨k, shows⟩ := ih
    have earlier : (pairs ++ [pair]).take k = pairs.take k := List.take_append_of_le_length shows.within
    rw [drawTrace_append, schedulerAppendTrace]
    split <;> rename_i room
    · have all : k = pairs.length := by
        by_contra other
        have full := shows.full (Nat.lt_of_le_of_ne shows.within other)
        omega
      refine ⟨k + 1, by simp [all], ?_, fun below => by simp [all] at below⟩
      have whole : (pairs ++ [pair]).take (k + 1) = pairs ++ [pair] := List.take_of_length_le (by simp [all])
      have text : drawTrace pairs = renderTrace pairs := by rw [shows.text, all, List.take_length]
      rw [whole, renderTrace_append, text]
      rfl
    · refine ⟨k, by simp [Nat.le_succ_of_le shows.within], by rw [earlier]; exact shows.text, fun _ => by omega⟩

/-! ### The chart -/

/-- The entries of the dispatches, newest first: who ran, and the time used in all until then. -/
def chart : List Dispatch → List (Int × Int)
  | [] => []
  | d :: older =>
    if d.units > 0 then chart older ++ [((d.picked.clientId : Int), ((d :: older).map (·.units)).sum)] else chart older

/-- The dispatch that is under way has no entry yet. -/
def SchedPc.undrawn : SchedPc → Bool
  | .setCurrent _ | .clearPreempt _ | .logStart _ | .slice _ | .update _ _ | .check _ | .appendTrace _ _ => true
  | _ => false

def State.drawn (s : State) : List Dispatch := if s.pc.undrawn then s.dispatches.tail else s.dispatches

def SchedPc.begun : SchedPc → Option Int
  | .slice r | .update r _ | .check r | .appendTrace r _ => some r.timeBeforeRun
  | _ => none

def SchedPc.opening : SchedPc → Bool
  | .setCurrent _ | .clearPreempt _ | .logStart _ => true
  | _ => false

structure ChartOk (s : State) : Prop where
  total : s.sched.totalTimeUsed = (s.dispatches.map (·.units)).sum
  nonneg : ∀ n ∈ s.dispatches.map (·.units), 0 ≤ n
  unused : s.pc.opening = true → ∀ d ∈ s.dispatches.head?, d.units = 0
  begun : ∀ before, s.pc.begun = some before → before = (s.dispatches.tail.map (·.units)).sum
  trace : s.trace = drawTrace (chart s.drawn)
  printed : ∀ text, .trace text ∈ s.log → ∃ pairs, pairs <+: chart s.drawn ∧ text = drawTrace pairs

variable {s t : State} {a : Answer} {c : ClientId} {e : Event} {p : Ptr}

def Dispatch.stamp (d : Dispatch) : Int × ClientId := (d.units, d.picked.clientId)

theorem units_of_stamps {ds ds' : List Dispatch} (same : ds'.map Dispatch.stamp = ds.map Dispatch.stamp) :
    ds'.map (·.units) = ds.map (·.units) := by
  have first := congrArg (List.map Prod.fst) same
  simpa [List.map_map, Function.comp_def, Dispatch.stamp] using first

theorem chart_of_stamps {ds ds' : List Dispatch} (same : ds'.map Dispatch.stamp = ds.map Dispatch.stamp) :
    chart ds' = chart ds := by
  induction ds generalizing ds' with
  | nil => rw [List.map_eq_nil_iff.mp same]
  | cons d older ih =>
    obtain ⟨d', older', rfl, stamp, rest⟩ := List.map_eq_cons_iff.mp same
    obtain ⟨units, client⟩ := Prod.mk.inj stamp
    simp only [chart, List.map_cons, units, client, ih rest, units_of_stamps rest]

theorem stamps_modifyHead {f : Dispatch → Dispatch} (kept : ∀ d, (f d).stamp = d.stamp) (ds : List Dispatch) :
    (ds.modifyHead f).map Dispatch.stamp = ds.map Dispatch.stamp := by
  cases ds with
  | nil => rfl
  | cons d older => simp [kept]

theorem step_printed (taken : Step s e t) {text : CString} (printed : .trace text ∈ t.log) :
    .trace text ∈ s.log ∨ text = s.trace := by
  cases taken with
  | sched taken =>
    cases taken with
    | idle =>
      simp only [setPc_log, printSummary_log] at printed
      split at printed
      · simpa using printed
      · exact .inl printed
    | _ => exact .inl (by simpa using printed)
  | worker taken => cases taken <;> exact .inl (by simpa using printed)
  | main taken => cases taken <;> exact .inl (by simpa using printed)

namespace ChartOk

theorem printed_later (ok : ChartOk s) (taken : Step s e t) (grown : chart s.drawn <+: chart t.drawn) :
    ∀ text, .trace text ∈ t.log → ∃ pairs, pairs <+: chart t.drawn ∧ text = drawTrace pairs := by
  intro text printed
  rcases step_printed taken printed with before | now
  · obtain ⟨pairs, part, same⟩ := ok.printed text before
    exact ⟨pairs, part.trans grown, same⟩
  · exact ⟨chart s.drawn, grown, now.trans ok.trace⟩

theorem move (ok : ChartOk s) (taken : Step s e t) (total : t.sched.totalTimeUsed = s.sched.totalTimeUsed)
    (stamps : t.dispatches.map Dispatch.stamp = s.dispatches.map Dispatch.stamp)
    (opening : t.pc.opening = true → s.pc.opening = true) (begun : ∀ before, t.pc.begun = some before → s.pc.begun = some before)
    (undrawn : t.pc.undrawn = s.pc.undrawn) (trace : t.trace = s.trace) : ChartOk t := by
  have tail : t.dispatches.tail.map Dispatch.stamp = s.dispatches.tail.map Dispatch.stamp := by
    rw [List.map_tail, List.map_tail, stamps]
  have drawn : chart t.drawn = chart s.drawn := by
    unfold State.drawn
    rw [undrawn]
    split
    · exact chart_of_stamps tail
    · exact chart_of_stamps stamps
  refine ⟨?_, ?_, fun starting => ?_, fun before known => ?_, ?_, ok.printed_later taken (drawn ▸ List.prefix_rfl)⟩
  · rw [total, ok.total, units_of_stamps stamps]
  · rw [units_of_stamps stamps]
    exact ok.nonneg
  · have unused := ok.unused (opening starting)
    have units : (t.dispatches.map (·.units)).head? = (s.dispatches.map (·.units)).head? := by rw [units_of_stamps stamps]
    intro d member
    rw [List.head?_map, List.head?_map, Option.mem_def.mp member] at units
    obtain ⟨d', member', same⟩ := Option.map_eq_some_iff.mp units.symm
    exact same.symm.trans (unused d' member')
  · rw [ok.begun before (begun before known), units_of_stamps tail]
  · rw [trace, ok.trace, drawn]

end ChartOk

theorem schedStep_chart (ok : ChartOk s) (dispatches : DispatchesOk s) (picked : PickedOk s) (fresh : Fresh s)
    (taken : SchedStep s a t) : ChartOk t := by
  have move := ok.move (t := t) (.sched taken)
  have printed := ok.printed_later (t := t) (.sched taken)
  cases taken with
  | init here =>
    obtain ⟨sched, none⟩ := fresh here
    have empty : s.trace = [] := by rw [ok.trace, State.drawn, here, none]; rfl
    exact move (by simp [sched]) rfl nofun nofun (by rw [here]; rfl) (by simp [empty])
  | @dequeue p id removed rest here found =>
    have drawn : chart (State.drawn ((s.dequeued removed rest).setPc (.setCurrent p))) = chart s.drawn := by
      simp [State.drawn, here, SchedPc.undrawn]
    refine ⟨by simp [ok.total], ?_, fun _ => by simp, nofun, ?_, printed (drawn ▸ List.prefix_rfl)⟩
    · simpa using ok.nonneg
    · rw [drawn]
      exact ok.trace
  | @logShell p event here =>
    have unused := ok.unused (by rw [here]; rfl)
    have drawn : chart (State.drawn ((s.schedulerLogDecision event p).setPc (.pipe p))) = chart s.drawn := by
      cases ds : s.dispatches with
      | nil => simp [State.drawn, here, SchedPc.undrawn, ds]
      | cons d older =>
        have none : d.units = 0 := unused d (by rw [ds]; rfl)
        simp [State.drawn, here, SchedPc.undrawn, ds, chart, none]
    refine ⟨ok.total, ok.nonneg, nofun, nofun, ?_, printed (drawn ▸ List.prefix_rfl)⟩
    rw [drawn]
    exact ok.trace
  | @logDemo p event quantum here =>
    have unused := ok.unused (by rw [here]; rfl)
    have drawn : State.drawn ((s.schedulerLogDecision event p).setPc (.slice ⟨p, 0, quantum, s.sched.totalTimeUsed⟩)) = s.drawn := by
      simp [State.drawn, here, SchedPc.undrawn]
    refine ⟨ok.total, ok.nonneg, nofun, fun before known => ?_, ?_, printed (drawn ▸ List.prefix_rfl)⟩
    · cases known
      show s.sched.totalTimeUsed = (s.dispatches.tail.map (·.units)).sum
      rw [ok.total]
      cases ds : s.dispatches with
      | nil => rfl
      | cons d older => simp [unused d (by rw [ds]; rfl)]
    · rw [drawn]
      exact ok.trace
  | @update r done here =>
    obtain ⟨d, older, ds, -⟩ := dispatches.running r.task (by rw [here]; rfl)
    have total : s.sched.totalTimeUsed = d.units + (older.map (·.units)).sum := by rw [ok.total, ds]; rfl
    have before := ok.begun r.timeBeforeRun (by rw [here]; rfl)
    have after : (afterUpdate r done).opening = false ∧ (afterUpdate r done).begun = some r.timeBeforeRun ∧
        (afterUpdate r done).undrawn = true := by
      cases done <;> exact ⟨rfl, rfl, rfl⟩
    generalize units : (if (s.task r.task).remainingTime > 0 then (1 : Int) else 0) = n
    have drawn : State.drawn (((s.schedulerUpdateTaskAfterExecution r.task 1).onDispatch fun d =>
        { d with units := d.units + n }).setPc (afterUpdate r done)) = s.drawn := by
      have undrawn : s.pc.undrawn = true := by rw [here]; rfl
      simp [State.drawn, undrawn, after.2.2, ds]
    rw [units] at printed
    have nonneg := ok.nonneg
    rw [ds] at nonneg
    obtain ⟨now, then_⟩ := List.forall_mem_cons.mp nonneg
    refine ⟨?_, ?_, fun starts => ?_, fun before' known => ?_, ?_, printed (drawn ▸ List.prefix_rfl)⟩
    · simp [total, ds, units]
      omega
    · have more : 0 ≤ n := by rw [← units]; split <;> decide
      simp only [setPc_dispatches, onDispatch_dispatches, schedulerUpdateTaskAfterExecution, modifySched_dispatches,
        modifyTask_dispatches, ds, List.modifyHead_cons, List.map_cons, units]
      exact List.forall_mem_cons.mpr ⟨Int.add_nonneg now more, then_⟩
    · cases after.1.symm.trans starts
    · rw [← Option.some.inj (after.2.1.symm.trans known), before]
      simp [ds]
    · rw [drawn]
      exact ok.trace
  | @appendTrace r o trace here text =>
    obtain ⟨d, older, ds, running⟩ := dispatches.running r.task (by rw [here]; rfl)
    have total : s.sched.totalTimeUsed = d.units + (older.map (·.units)).sum := by rw [ok.total, ds]; rfl
    have before := ok.begun r.timeBeforeRun (by rw [here]; rfl)
    have client : d.picked.clientId = (s.task r.task).clientId := by
      rw [← running.task]
      exact ((picked d (by rw [ds]; exact List.mem_cons_self)).2.clientId).symm
    have drawn : State.drawn ((s.setTrace trace).setPc (.countRound r.task o)) = d :: older := by
      simp [State.drawn, SchedPc.undrawn, ds]
    have undrawn : s.drawn = older := by simp [State.drawn, here, SchedPc.undrawn, ds]
    have old := ok.trace
    rw [undrawn] at old printed
    rw [ds, List.tail_cons] at before
    have grown : chart older <+: chart (d :: older) := by
      rw [chart]
      split
      · exact List.prefix_append _ _
      · exact List.prefix_rfl
    refine ⟨ok.total, ok.nonneg, nofun, nofun, ?_, printed (drawn ▸ grown)⟩
    rw [drawn, chart]
    show trace = _
    by_cases used : d.units > 0
    · rw [if_pos used, drawTrace_append, ← old, client, text, if_pos (by omega), total]
      rfl
    · rw [if_neg used, text, if_neg (by omega), old]
  | @check r here =>
    have after : (afterCheck r s.preemptFlag).opening = false ∧ (afterCheck r s.preemptFlag).begun = some r.timeBeforeRun ∧
        (afterCheck r s.preemptFlag).undrawn = true := by
      unfold afterCheck
      split
      · exact ⟨rfl, rfl, rfl⟩
      · split <;> exact ⟨rfl, rfl, rfl⟩
    refine move rfl rfl (fun starts => ?_) (fun before known => ?_) (by rw [here]; exact after.2.2) rfl
    · cases after.1.symm.trans starts
    · rw [here]
      exact after.2.1.symm.trans known
  | @countRound p o here =>
    have after : (afterQuantum p o).opening = false ∧ (afterQuantum p o).begun = none ∧ (afterQuantum p o).undrawn = false := by
      cases o <;> exact ⟨rfl, rfl, rfl⟩
    refine move rfl rfl (fun starts => ?_) (fun before known => ?_) (by rw [here]; exact after.2.2) rfl
    · cases after.1.symm.trans starts
    · cases after.2.1.symm.trans known
  | _ =>
    have here := ‹s.pc = _›
    refine move (by simp) (by first | rfl | exact stamps_modifyHead (by exact fun _ => rfl) _) ?_ ?_ ?_ (by simp) <;>
      simp [here, SchedPc.opening, SchedPc.begun, SchedPc.undrawn]

theorem step_chart (ok : ChartOk s) (dispatches : DispatchesOk s) (picked : PickedOk s) (fresh : Fresh s)
    (taken : Step s e t) : ChartOk t := by
  cases taken with
  | sched taken => exact schedStep_chart ok dispatches picked fresh taken
  | worker taken =>
    have frame := taken.frame
    exact ok.move (.worker taken) (by rw [frame.sched]) (by rw [frame.dispatches]) (by rw [frame.pc]; exact id)
      (fun _ known => frame.pc ▸ known) (by rw [frame.pc]) frame.trace
  | main taken =>
    have frame := taken.frame
    exact ok.move (.main taken) (by rw [frame.sched]) (by rw [frame.dispatches]) (by rw [frame.pc]; exact id)
      (fun _ known => frame.pc ▸ known) (by rw [frame.pc]) frame.trace

theorem run_chartOk (run : ServerRun Machine.always s) : ChartOk s := by
  refine run.invariant_of (J := fun s => DispatchesOk s ∧ PickedOk s ∧ Fresh s)
    (fun run => ⟨run_dispatches run, run_picked run, run_fresh run⟩) ⟨rfl, nofun, nofun, nofun, rfl, nofun⟩
    fun known _ ok _ taken => ?_
  obtain ⟨dispatches, picked, fresh⟩ := known
  exact step_chart ok dispatches picked fresh (step_cases taken)

/-! ### Reading the chart -/

/-- The times of the chart rise by the quantum at most, and the last is the time used in all. -/
theorem chart_times {ds : List Dispatch} (units : UnitsOk ds) (nonneg : ∀ n ∈ ds.map (·.units), 0 ≤ n) :
    List.IsChain (fun before now : Int => before < now ∧ now ≤ before + 7) (0 :: (chart ds).map Prod.snd) ∧
      (0 :: (chart ds).map Prod.snd).getLast? = some (ds.map (·.units)).sum := by
  induction ds with
  | nil => exact ⟨List.IsChain.singleton _, rfl⟩
  | cons d older ih =>
    obtain ⟨now, then_⟩ := List.forall_mem_cons.mp nonneg
    obtain ⟨rises, last⟩ := ih units.2 then_
    have quantum : (quantumAfter older d.task : Int) ≤ 7 := by
      unfold quantumAfter
      split <;> decide
    have bounded := Int.le_trans units.1 quantum
    rw [chart]
    split <;> rename_i used
    · rw [List.map_append, ← List.cons_append]
      refine ⟨List.isChain_append.mpr ⟨rises, List.IsChain.singleton _, fun x member y member' => ?_⟩, List.getLast?_concat⟩
      obtain rfl : (older.map (·.units)).sum = x := Option.some.inj (last.symm.trans member)
      obtain rfl : ((d :: older).map (·.units)).sum = y := by simpa using member'
      rw [List.map_cons, List.sum_cons]
      omega
    · have none : d.units = 0 := Int.le_antisymm (Int.not_lt.mp used) now
      rw [List.map_cons, List.sum_cons, none, Int.zero_add]
      exact ⟨rises, last⟩

theorem drawn_units (run : ServerRun Machine.always s) : UnitsOk s.drawn ∧ ∀ n ∈ s.drawn.map (·.units), 0 ≤ n := by
  have units := (run_quanta run).units
  have nonneg := (run_chartOk run).nonneg
  unfold State.drawn
  split
  · cases ds : s.dispatches with
    | nil => exact ⟨trivial, nofun⟩
    | cons d older =>
      rw [ds] at units nonneg
      exact ⟨units.2, (List.forall_mem_cons.mp nonneg).2⟩
  · exact ⟨units, nonneg⟩

/-- The trace is the chart of the run, as far as there is room, and a summary prints what was drawn by then:
every dispatch that used up time has its entry, in the order in which they ran, and the times add up. -/
theorem run_chart (run : ServerRun Machine.always s) :
    (∃ k, Shows s.trace (chart s.drawn) k) ∧
    (∀ text, .trace text ∈ s.log → ∃ pairs k, pairs <+: chart s.drawn ∧ Shows text pairs k) ∧
    List.IsChain (fun before now : Int => before < now ∧ now ≤ before + 7) (0 :: (chart s.drawn).map Prod.snd) ∧
    (s.pc.undrawn = false → (0 :: (chart s.drawn).map Prod.snd).getLast? = some s.sched.totalTimeUsed) := by
  have ok := run_chartOk run
  obtain ⟨units, nonneg⟩ := drawn_units run
  obtain ⟨rises, last⟩ := chart_times units nonneg
  refine ⟨ok.trace ▸ drawTrace_shows _, fun text printed => ?_, rises, fun all => ?_⟩
  · obtain ⟨pairs, part, rfl⟩ := ok.printed text printed
    obtain ⟨k, shows⟩ := drawTrace_shows pairs
    exact ⟨pairs, k, part, shows⟩
  · rw [last, ok.total, State.drawn, if_neg (by simp [all])]

/-- A demo of 5 seconds runs twice. -/
theorem run_chart_demo : ∃ s, ServerRun Machine.always s ∧ chart s.drawn = [(1, 3), (1, 5)] ∧
    s.trace = "P1-(3)-P1-(5)".toList ∧ ∃ k, Shows s.trace (chart s.drawn) k := by
  obtain ⟨s, run, seen⟩ := serverRun_by Machine.always
    (Event.connect 5 ++ Event.submit 1 "demo 5" ++ Event.schedule 46)
    (fun s => chart s.drawn = [(1, 3), (1, 5)] ∧ s.trace = "P1-(3)-P1-(5)".toList) (by decide +kernel)
  obtain ⟨drawn, trace⟩ := of_decide_eq_true seen
  exact ⟨s, run, drawn, trace, (run_chart run).1⟩

end MyShell
