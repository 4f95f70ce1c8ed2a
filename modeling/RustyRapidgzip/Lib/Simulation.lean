import Mathlib.Data.List.Basic
import Mathlib.Tactic.Common

/-!
# Sequences of calls on two state machines

A machine answers a call and moves to its next state, or refuses the call. Whatever one machine
answers, another one answers too when a relation between their states survives every call.
-/

namespace Simulation

variable {σ τ ω α : Type*}

/-- Make the calls in order. A refused call refuses the sequence. -/
def run (step : σ → ω → Option (α × σ)) : σ → List ω → Option (List α × σ)
  | s, [] => some ([], s)
  | s, op :: ops =>
    match step s op with
    | none => none
    | some (a, s') => (run step s' ops).map fun r => (a :: r.1, r.2)

/-- The first call of an accepted sequence is accepted, and so are the calls after it. -/
theorem run_cons_inv {step : σ → ω → Option (α × σ)} {s s' : σ} {op : ω} {ops : List ω}
    {answers : List α} (h : run step s (op :: ops) = some (answers, s')) :
    ∃ a s₁ rest, step s op = some (a, s₁) ∧ run step s₁ ops = some (rest, s') ∧
      answers = a :: rest := by
  unfold run at h
  cases hstep : step s op with
  | none => simp [hstep] at h
  | some next =>
    obtain ⟨a, s₁⟩ := next
    rw [hstep] at h
    obtain ⟨⟨rest, s₂⟩, hrest, heq⟩ := Option.map_eq_some_iff.mp h
    simp only [Prod.mk.injEq] at heq
    obtain ⟨rfl, rfl⟩ := heq
    exact ⟨a, s₁, rest, rfl, hrest, rfl⟩

/-- One call after the other. -/
theorem run_cons {step : σ → ω → Option (α × σ)} {s s₁ s' : σ} {op : ω} {ops : List ω} {a : α}
    {rest : List α} (hstep : step s op = some (a, s₁)) (hrest : run step s₁ ops = some (rest, s')) :
    run step s (op :: ops) = some (a :: rest, s') := by
  simp only [run, hstep, hrest, Option.map_some]

/-- A relation that survives every call the abstract machine accepts carries over to sequences:
the concrete machine accepts them too, with the same answers. -/
theorem run_simulates {step : σ → ω → Option (α × σ)} {astep : τ → ω → Option (α × τ)}
    (R : σ → τ → Prop) {s : σ} {t t' : τ} {ops : List ω} {answers : List α}
    (hrun : run astep t ops = some (answers, t')) (hR : R s t)
    (hstep : ∀ s t op a t', R s t → astep t op = some (a, t') →
      ∃ s', step s op = some (a, s') ∧ R s' t') :
    ∃ s', run step s ops = some (answers, s') ∧ R s' t' := by
  induction ops generalizing s t answers with
  | nil =>
    cases hrun
    exact ⟨s, rfl, hR⟩
  | cons op ops ih =>
    obtain ⟨a, t₁, rest, hop, hrest, rfl⟩ := run_cons_inv hrun
    obtain ⟨s₁, hs₁, hR₁⟩ := hstep s t op a t₁ hR hop
    obtain ⟨s', hs', hR'⟩ := ih hrest hR₁
    exact ⟨s', run_cons hs₁ hs', hR'⟩

end Simulation
