import Mathlib.Logic.Basic
import Mathlib.Tactic.Common

/-!
# Loops that break with a result

A loop body either continues with a new state, breaks with a result, or fails.
`iterate` runs it for a bounded number of rounds. The rules below carry a property of
runs from the rounds to the loop; a decreasing measure shows that the bound is never
what ends a run.
-/

namespace Loop

variable {ε σ ρ : Type*}

/-- Run a loop body until it breaks. `inl` continues the loop and `inr` leaves it;
`out` reports that all rounds were used. -/
def iterate (out : ε) (body : σ → Except ε (σ ⊕ ρ)) : ℕ → σ → Except ε ρ
  | 0, _ => .error out
  | fuel + 1, s =>
    match body s with
    | .error e => .error e
    | .ok (.inl s') => iterate out body fuel s'
    | .ok (.inr r) => .ok r

variable {out : ε} {body : σ → Except ε (σ ⊕ ρ)}

/-- A continuing round uses one unit of fuel. -/
theorem iterate_continue {fuel : ℕ} {s s' : σ} (h : body s = .ok (.inl s')) :
    iterate out body (fuel + 1) s = iterate out body fuel s' := by
  simp [iterate, h]

/-- A breaking round ends the loop. -/
theorem iterate_break {fuel : ℕ} {s : σ} {r : ρ} (h : body s = .ok (.inr r)) :
    iterate out body (fuel + 1) s = .ok r := by
  simp [iterate, h]

/-- A failing round ends the loop. -/
theorem iterate_fail {fuel : ℕ} {s : σ} {e : ε} (h : body s = .error e) :
    iterate out body (fuel + 1) s = .error e := by
  simp [iterate, h]

/-- A loop that ends has one result, with any rounds in which it ends. -/
theorem iterate_unique {fuel fuel' : ℕ} {s : σ} {r r' : ρ} (h : iterate out body fuel s = .ok r)
    (h' : iterate out body fuel' s = .ok r') : r = r' := by
  induction fuel generalizing s fuel' with
  | zero => cases h
  | succ fuel ih =>
    cases fuel' with
    | zero => cases h'
    | succ fuel' =>
      rw [iterate] at h h'
      cases hround : body s with
      | error e =>
        rw [hround] at h
        cases h
      | ok next =>
        rw [hround] at h h'
        cases next with
        | inl s' => exact ih h h'
        | inr r'' =>
          cases h
          cases h'
          rfl

/-- A body that does on mapped states what another does on the states runs as the other. -/
theorem iterate_map {σ' ρ' : Type*} {body' : σ' → Except ε (σ' ⊕ ρ')} {f : σ → σ'} {g : ρ → ρ'}
    (hbody : ∀ s, body' (f s) = (body s).map (Sum.map f g)) (fuel : ℕ) (s : σ) :
    iterate out body' fuel (f s) = (iterate out body fuel s).map g := by
  induction fuel generalizing s with
  | zero => rfl
  | succ fuel ih =>
    have hround := hbody s
    cases hres : body s with
    | error e =>
      rw [hres] at hround
      rw [iterate_fail hround, iterate_fail hres]
      rfl
    | ok next =>
      rw [hres] at hround
      cases next with
      | inl s' => rw [iterate_continue hround, iterate_continue hres, ih]
      | inr r =>
        rw [iterate_break hround, iterate_break hres]
        rfl

/-- A body that breaks with a function of what another breaks with. -/
theorem iterate_map_result {ρ' : Type*} {body' : σ → Except ε (σ ⊕ ρ')} {g : ρ → ρ'}
    (hbody : ∀ s, body' s = (body s).map (Sum.map id g)) (fuel : ℕ) (s : σ) :
    iterate out body' fuel s = (iterate out body fuel s).map g :=
  iterate_map (f := id) hbody fuel s

/-- What a round does to a property `P` of runs from a state: a result or a failure has it, and
a continuing round decreases a measure and hands the property back. -/
def RoundKeeps (Inv : σ → Prop) (P : σ → Except ε ρ → Prop) (measure : σ → ℕ) (s : σ) :
    Except ε (σ ⊕ ρ) → Prop
  | .error e => P s (.error e)
  | .ok (.inr r) => P s (.ok r)
  | .ok (.inl s') => Inv s' ∧ measure s' < measure s ∧ ∀ r, P s' r → P s r

/-- With rounds enough for the measure, a property that every round keeps holds of the run. -/
theorem iterate_rule {Inv : σ → Prop} {P : σ → Except ε ρ → Prop} (measure : σ → ℕ)
    (hbody : ∀ s, Inv s → RoundKeeps Inv P measure s (body s)) {fuel : ℕ} {s : σ} (hs : Inv s)
    (hfuel : measure s < fuel) : P s (iterate out body fuel s) := by
  induction fuel generalizing s with
  | zero => omega
  | succ fuel ih =>
    have hround := hbody s hs
    cases hres : body s with
    | error e =>
      rw [hres] at hround
      rwa [iterate_fail hres]
    | ok next =>
      rw [hres] at hround
      cases next with
      | inl s' =>
        obtain ⟨hs', hlt, hback⟩ := hround
        rw [iterate_continue hres]
        exact hback _ (ih hs' (by omega))
      | inr r =>
        rwa [iterate_break hres]

/-- The state in which a loop ends: the last one that a round started from. -/
def last (body : σ → Except ε (σ ⊕ ρ)) : ℕ → σ → σ
  | 0, s => s
  | fuel + 1, s =>
    match body s with
    | .ok (.inl s') => last body fuel s'
    | _ => s

/-- What every continuing round hands on still holds in the state in which a loop ends. -/
theorem last_induction {P : σ → Prop} (hnext : ∀ s s', P s → body s = .ok (.inl s') → P s')
    (fuel : ℕ) {s : σ} (hs : P s) : P (last body fuel s) := by
  induction fuel generalizing s with
  | zero => exact hs
  | succ fuel ih =>
    unfold last
    split
    · next s' hbody => exact ih (hnext s s' hs hbody)
    · exact hs

end Loop
