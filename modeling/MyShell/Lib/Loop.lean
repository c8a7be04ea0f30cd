/-! # Loops, as functions on their variables that go on or leave with a result -/

namespace Loop

inductive Next (σ : Type u) (ρ : Type v) where
  | again (s : σ)
  | leave (r : ρ)

variable {σ : Type u} {ρ : Type v} {body : σ → Next σ ρ} {s s' : σ} {r r' : ρ} {n m : Nat}

def run (body : σ → Next σ ρ) : Nat → σ → Option ρ
  | 0, _ => none
  | n + 1, s =>
    match body s with
    | .again s' => run body n s'
    | .leave r => some r

theorem run_leave (left : body s = .leave r) : run body (n + 1) s = some r := by
  simp [run, left]

theorem run_again (goesOn : body s = .again s') : run body (n + 1) s = run body n s' := by
  simp [run, goesOn]

theorem run_mono (returned : run body n s = some r) (more : n ≤ m) : run body m s = some r := by
  induction n generalizing s m with
  | zero => cases returned
  | succ n ih =>
    obtain ⟨m, rfl⟩ : ∃ k, m = k + 1 := ⟨m - 1, by omega⟩
    cases once : body s with
    | again s' =>
      rw [run_again once] at returned ⊢
      exact ih returned (by omega)
    | leave r' =>
      rw [run_leave once] at returned ⊢
      exact returned

theorem run_unique (first : run body n s = some r) (second : run body m s = some r') : r = r' := by
  have one := run_mono first (Nat.le_max_left n m)
  have two := run_mono second (Nat.le_max_right n m)
  exact Option.some.inj (one.symm.trans two)

end Loop
