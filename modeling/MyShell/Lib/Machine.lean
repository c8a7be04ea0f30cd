import Mathlib.Algebra.GroupWithZero.Nat
import Mathlib.Order.Basic

/-! # Runs of a step function

`step s e` is the state after the event `e` in the state `s`, and `none` when `e` cannot happen
there. `Run step ok s t` says that some run leads from `s` to `t` and that every step of it meets
the condition `ok`; `follow` finds such a run by executing a list of events. -/

namespace Machine

variable {σ : Type u} {ε : Type v} {step : σ → ε → Option σ} {ok : σ → ε → Prop} {s t u : σ}

/-- A run from `s` whose steps all meet the condition `ok`. -/
inductive Run (step : σ → ε → Option σ) (ok : σ → ε → Prop) (s : σ) : σ → Prop where
  | refl : Run step ok s s
  | next {t u : σ} {e : ε} : Run step ok s t → ok t e → step t e = some u → Run step ok s u

abbrev always (_ : σ) (_ : ε) : Prop := True

abbrev Reach (step : σ → ε → Option σ) (s t : σ) : Prop := Run step always s t

theorem Run.trans (first : Run step ok s t) (second : Run step ok t u) : Run step ok s u := by
  induction second with
  | refl => exact first
  | next _ met taken ih => exact .next ih met taken

theorem Run.strengthen {ok' : σ → ε → Prop} (more : ∀ {t e}, Run step ok s t → ok' t e) (run : Run step ok s t) :
    Run step ok' s t := by
  induction run with
  | refl => exact .refl
  | next before _ taken ih => exact ih.next (more before) taken

/-- What holds at the start and is kept by every step that meets the condition holds at the end. -/
theorem Run.invariant {I : σ → Prop} (start : I s)
    (keep : ∀ {t e u}, I t → ok t e → step t e = some u → I u) (run : Run step ok s t) : I t := by
  induction run with
  | refl => exact start
  | next _ met taken ih => exact keep ih met taken

/-- An invariant whose step lemma rests on one that is known to hold along the run. -/
theorem Run.invariant_of {I J : σ → Prop} (known : ∀ {t}, Run step ok s t → J t) (start : I s)
    (keep : ∀ {t e u}, J t → J u → I t → ok t e → step t e = some u → I u)
    (run : Run step ok s t) : I t := by
  induction run with
  | refl => exact start
  | next before met taken ih => exact keep (known before) (known (before.next met taken)) ih met taken

theorem Run.descends {α : Type w} [Preorder α] {I P : σ → Prop} {μ : σ → α}
    (known : ∀ {t e u}, I t → step t e = some u → I u) (back : ∀ {t e u}, I t → step t e = some u → P u → P t)
    (lower : ∀ {t e u}, I t → step t e = some u → P t → P u → μ u ≤ μ t)
    (run : Run step ok s t) (inv : I s) (last : P t) : μ t ≤ μ s := by
  have both : I t ∧ (P t → μ t ≤ μ s) := by
    refine run.invariant (I := fun t => I t ∧ (P t → μ t ≤ μ s)) ⟨inv, fun _ => le_rfl⟩ fun held _ taken => ?_
    obtain ⟨inv, below⟩ := held
    refine ⟨known inv taken, fun lasts => ?_⟩
    have before := back inv taken lasts
    exact (lower inv taken before lasts).trans (below before)
  exact both.2 last

/-- A map that carries steps into steps, as long as an invariant holds, carries runs into runs. -/
theorem Run.simulates {τ : Type w} {step' : τ → ε → Option τ} {abs : σ → τ} {I : σ → Prop} (start : I s)
    (keep : ∀ {t e u}, I t → step t e = some u → I u)
    (simulated : ∀ {t e u}, I t → step t e = some u → step' (abs t) e = some (abs u))
    (run : Reach step s t) : I t ∧ Reach step' (abs s) (abs t) := by
  induction run with
  | refl => exact ⟨start, .refl⟩
  | next _ _ taken ih =>
    obtain ⟨held, before⟩ := ih
    exact ⟨keep held taken, before.next trivial (simulated held taken)⟩

/-- A run with its steps in order, each as the state before it and its event. -/
inductive Path (step : σ → ε → Option σ) (s : σ) : List (σ × ε) → σ → Prop where
  | refl : Path step s [] s
  | next {steps : List (σ × ε)} {t u : σ} {e : ε} :
      Path step s steps t → step t e = some u → Path step s (steps ++ [(t, e)]) u

theorem Path.invariant {I : List (σ × ε) → σ → Prop} {steps : List (σ × ε)} (start : I [] s)
    (keep : ∀ {steps t e u}, I steps t → step t e = some u → I (steps ++ [(t, e)]) u) (path : Path step s steps t) :
    I steps t := by
  induction path with
  | refl => exact start
  | next _ taken ih => exact keep ih taken

theorem Path.trans {first second : List (σ × ε)} (path : Path step s first t) (rest : Path step t second u) :
    Path step s (first ++ second) u := by
  induction rest with
  | refl => simpa using path
  | next _ taken ih =>
    rw [← List.append_assoc]
    exact ih.next taken

theorem Path.project {τ : Type w} {ε' : Type x} {step' : τ → ε' → Option τ} (abs : σ → τ) (label : ε → Option ε')
    {steps : List (σ × ε)} (kept : ∀ {t e u e'}, step t e = some u → label e = some e' → step' (abs t) e' = some (abs u))
    (silent : ∀ {t e u}, step t e = some u → label e = none → abs u = abs t) (path : Path step s steps t) :
    Path step' (abs s) (steps.filterMap fun x => (label x.2).map (abs x.1, ·)) (abs t) := by
  induction path with
  | refl => exact .refl
  | @next _ t u e _ taken ih =>
    rw [List.filterMap_append]
    cases seen : label e with
    | none => simpa [seen, silent taken seen] using ih
    | some e' => simpa [seen] using ih.next (kept taken seen)

theorem Run.path (run : Run step ok s t) : ∃ steps, Path step s steps t ∧ ∀ x ∈ steps, ok x.1 x.2 := by
  induction run with
  | refl => exact ⟨[], .refl, List.forall_mem_nil _⟩
  | @next t u e _ met taken ih =>
    obtain ⟨steps, path, before⟩ := ih
    refine ⟨steps ++ [(t, e)], path.next taken, List.forall_mem_append.mpr ⟨before, ?_⟩⟩
    simpa using met

theorem Path.reach {steps : List (σ × ε)} (path : Path step s steps t) : Reach step s t := by
  induction path with
  | refl => exact .refl
  | next _ taken ih => exact ih.next trivial taken

theorem Path.passes {steps : List (σ × ε)} {x : σ × ε} (path : Path step s steps t) (member : x ∈ steps) :
    Reach step s x.1 := by
  induction path with
  | refl => cases member
  | next before _ ih =>
    rcases List.mem_append.mp member with earlier | last
    · exact ih earlier
    · rw [List.mem_singleton.mp last]
      exact before.reach

/-- The counted steps of a path are paid from the potential at its start and from what its steps grant. -/
theorem Path.potential {I : σ → Prop} {potential : σ → Nat} {counted : σ → ε → Bool} {grant : σ → ε → Nat}
    {steps : List (σ × ε)} (inv : I s) (keep : ∀ {t e u}, I t → step t e = some u → I u)
    (paid : ∀ {t e u}, I t → step t e = some u →
      (if counted t e then 1 else 0) + potential u ≤ potential t + grant t e)
    (path : Path step s steps t) :
    steps.countP (fun x => counted x.1 x.2) + potential t ≤
      potential s + (steps.map fun x => grant x.1 x.2).sum := by
  have both : I t ∧ steps.countP (fun x => counted x.1 x.2) + potential t ≤
      potential s + (steps.map fun x => grant x.1 x.2).sum := by
    induction path with
    | refl => exact ⟨inv, by simp⟩
    | next _ taken ih =>
      obtain ⟨held, before⟩ := ih
      have here := paid held taken
      refine ⟨keep held taken, ?_⟩
      simp only [List.countP_append, List.countP_singleton, List.map_append, List.sum_append, List.map_singleton,
        List.sum_singleton]
      omega
  exact both.2

/-- Execute a list of events, each of which has to meet the condition and to be possible. -/
def follow (step : σ → ε → Option σ) (ok : σ → ε → Prop) [∀ s e, Decidable (ok s e)] (s : σ) :
    List ε → Option σ
  | [] => some s
  | e :: rest => if ok s e then (step s e).bind (follow step ok · rest) else none

theorem run_of_follow [∀ s e, Decidable (ok s e)] {events : List ε}
    (executed : follow step ok s events = some t) : Run step ok s t := by
  induction events generalizing s with
  | nil => cases executed; exact .refl
  | cons e rest ih =>
    simp only [follow] at executed
    split at executed
    · rename_i met
      obtain ⟨mid, taken, executed⟩ := Option.bind_eq_some_iff.mp executed
      exact (Run.next .refl met taken).trans (ih executed)
    · cases executed

theorem exists_run [∀ s e, Decidable (ok s e)] (events : List ε) {test : σ → Bool}
    (passed : (follow step ok s events).any test = true) : ∃ t, Run step ok s t ∧ test t = true := by
  obtain ⟨t, executed, seen⟩ := (Option.any_eq_true ..).mp passed
  exact ⟨t, run_of_follow executed, seen⟩

def trail (step : σ → ε → Option σ) (s : σ) : List ε → List (σ × ε)
  | [] => []
  | e :: rest => (s, e) :: (step s e).elim [] (trail step · rest)

theorem path_of_follow {events : List ε} [∀ s e, Decidable (ok s e)] (executed : follow step ok s events = some t) :
    Path step s (trail step s events) t := by
  induction events generalizing s with
  | nil => cases executed; exact .refl
  | cons e rest ih =>
    simp only [follow] at executed
    split at executed
    · obtain ⟨mid, taken, executed⟩ := Option.bind_eq_some_iff.mp executed
      simp only [trail, taken, Option.elim_some]
      exact (Path.refl.next taken).trans (ih executed)
    · cases executed

end Machine
