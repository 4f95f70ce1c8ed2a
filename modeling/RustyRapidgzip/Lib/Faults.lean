import RustyRapidgzip.Lib.Iterate
import Mathlib.Logic.Relation

/-!
# Programs that may fault

A program that checks its accesses stops with a fault where an access is out of bounds. Seen
through a view, it does what a program without the checks does, unless it faults. A loop
faults exactly where it comes to a state whose round does.
-/

/-- How a program stops that may fault: by a fault, or with an error of its own. -/
inductive Stop (ε : Type*) where
  | fault
  | error (e : ε)
  deriving DecidableEq, Repr

namespace Stop

universe u

variable {ε ε' : Type*} {σ σ' ρ ρ' τ τ' υ υ' : Type u}

/-- A program that never faults, as one that may. -/
def lift (r : Except ε τ) : Except (Stop ε) τ := r.mapError .error

/-- The errors of another type. A fault stays a fault. -/
def mapError (g : ε → ε') : Except (Stop ε) τ → Except (Stop ε') τ
  | .ok a => .ok a
  | .error .fault => .error .fault
  | .error (.error e) => .error (.error (g e))

/-- A value is lifted to itself. -/
@[simp] theorem lift_ok (a : τ) : lift (.ok a : Except ε τ) = .ok a := rfl

/-- An error is lifted to the program's own error. -/
@[simp] theorem lift_error (e : ε) : lift (.error e : Except ε τ) = .error (.error e) := rfl

/-- A result is not a fault. -/
theorem ok_ne_fault (a : τ) : (.ok a : Except (Stop ε) τ) ≠ .error .fault := by
  intro h
  cases h

/-- A refusal is not a fault. -/
theorem error_ne_fault (e : ε) : (.error (.error e) : Except (Stop ε) τ) ≠ .error .fault := by
  intro h
  cases h

/-- A total result does not fault. -/
theorem lift_ne_fault (r : Except ε τ) : lift r ≠ .error .fault := by
  cases r with
  | error e => exact error_ne_fault e
  | ok a => exact ok_ne_fault a

/-- The result is another one through a view, unless it is a fault. -/
inductive Tracks (view : τ → τ') : Except (Stop ε) τ → Except ε τ' → Prop
  | fault (r' : Except ε τ') : Tracks view (.error .fault) r'
  | ok (a : τ) : Tracks view (.ok a) (.ok (view a))
  | error (e : ε) : Tracks view (.error (.error e)) (.error e)

section Results

variable {view : τ → τ'} {view' : υ → υ'} {r : Except (Stop ε) τ} {r' : Except ε τ'}

/-- A program that never faults tracks itself through a view. -/
theorem tracks_lift (view : τ → τ') (r : Except ε τ) : Tracks view (lift r) (r.map view) := by
  cases r with
  | error e => exact .error e
  | ok a => exact .ok a

/-- For a result there is the result of the other program. -/
theorem Tracks.ok_eq {a : τ} (h : Tracks view r r') (hr : r = .ok a) : r' = .ok (view a) := by
  cases h with
  | ok _ =>
    cases hr
    rfl
  | _ => cases hr

/-- For an error of its own there is the same error. -/
theorem Tracks.error_eq {e : ε} (h : Tracks view r r') (hr : r = .error (.error e)) :
    r' = .error e := by
  cases h with
  | error _ =>
    cases hr
    rfl
  | _ => cases hr

/-- Without a fault there is a result for a result. -/
theorem Tracks.exists_ok {b : τ'} (h : Tracks view r r') (hr : r ≠ .error .fault)
    (hr' : r' = .ok b) : ∃ a, r = .ok a ∧ view a = b := by
  cases h with
  | fault _ => exact absurd rfl hr
  | ok a =>
    cases hr'
    exact ⟨a, rfl, rfl⟩
  | error _ => cases hr'

/-- Without a fault the result is the other one. -/
theorem Tracks.eq_lift (h : Tracks view r r') (hr : r ≠ .error .fault) :
    r.map view = lift r' := by
  cases h with
  | fault _ => exact absurd rfl hr
  | _ => rfl

/-- What is done next tracks, where it does for every value. -/
theorem Tracks.bind {k : τ → Except (Stop ε) υ} {k' : τ' → Except ε υ'} (h : Tracks view r r')
    (hk : ∀ a, r = .ok a → Tracks view' (k a) (k' (view a))) :
    Tracks view' (r >>= k) (r' >>= k') := by
  cases h with
  | fault _ => exact .fault _
  | ok a => exact hk a rfl
  | error e => exact .error e

/-- Errors of another type track as well. -/
theorem Tracks.map_error (g : ε → ε') (h : Tracks view r r') :
    Tracks view (mapError g r) (r'.mapError g) := by
  cases h with
  | fault _ => exact .fault _
  | ok a => exact .ok a
  | error e => exact .error (g e)

/-- The errors that are renamed are not the faults. -/
theorem mapError_eq_fault {g : ε → ε'} : mapError g r = .error .fault ↔ r = .error .fault := by
  rcases r with (_ | e) | a <;> simp [mapError]

/-- Two programs in a row fault where the first one does, or else the second one. -/
theorem bind_eq_fault {k : τ → Except (Stop ε) υ} :
    r >>= k = .error .fault ↔ r = .error .fault ∨ ∃ a, r = .ok a ∧ k a = .error .fault := by
  cases r with
  | error e => simp [Bind.bind, Except.bind]
  | ok a => simp [Bind.bind, Except.bind]

/-- Where nothing done next faults, the program faults where the first part does. -/
theorem bind_eq_fault_of_total {k : τ → Except (Stop ε) υ} (hk : ∀ a, k a ≠ .error .fault) :
    r >>= k = .error .fault ↔ r = .error .fault := by
  rw [bind_eq_fault]
  apply or_iff_left
  rintro ⟨a, -, hfault⟩
  exact hk a hfault

/-- A part that never faults leaves the fault to what is done next. -/
theorem lift_bind_eq_fault {k : τ → Except (Stop ε) υ} {p : Except ε τ} :
    lift p >>= k = .error .fault ↔ ∃ a, p = .ok a ∧ k a = .error .fault := by
  cases p with
  | error e => simp [Bind.bind, Except.bind]
  | ok a => simp [Bind.bind, Except.bind]

end Results

/-! ## Loops -/

open Loop

/-- The states that a loop comes to. -/
def Comes (body : σ → Except ε (σ ⊕ ρ)) : σ → σ → Prop :=
  Relation.ReflTransGen fun s s' => body s = .ok (.inl s')

/-- A loop ends with the error of a state that it comes to, and with no other one. -/
theorem iterate_eq_error_iff {out e : ε} {body : σ → Except ε (σ ⊕ ρ)} {fuel : ℕ} {s : σ}
    (hout : iterate out body fuel s ≠ .error out) :
    iterate out body fuel s = .error e ↔ ∃ t, Comes body s t ∧ body t = .error e := by
  induction fuel generalizing s with
  | zero => exact absurd rfl hout
  | succ fuel ih =>
    cases hround : body s with
    | error e' =>
      rw [iterate_fail hround]
      constructor
      · intro h
        cases h
        exact ⟨s, .refl, hround⟩
      · rintro ⟨t, hcomes, ht⟩
        rcases hcomes.cases_head with rfl | ⟨s', hnext, -⟩
        · rw [hround] at ht
          cases ht
          rfl
        · rw [hround] at hnext
          cases hnext
    | ok next =>
      cases next with
      | inl s' =>
        rw [iterate_continue hround] at hout ⊢
        rw [ih hout]
        constructor
        · rintro ⟨t, hcomes, ht⟩
          exact ⟨t, .head hround hcomes, ht⟩
        · rintro ⟨t, hcomes, ht⟩
          rcases hcomes.cases_head with rfl | ⟨s'', hnext, hrest⟩
          · rw [hround] at ht
            cases ht
          · rw [hround] at hnext
            cases hnext
            exact ⟨t, hrest, ht⟩
      | inr r =>
        rw [iterate_break hround]
        refine ⟨nofun, ?_⟩
        rintro ⟨t, hcomes, ht⟩
        rcases hcomes.cases_head with rfl | ⟨s', hnext, -⟩
        · rw [hround] at ht
          cases ht
        · rw [hround] at hnext
          cases hnext

section Loops

variable {out : ε} {view : σ → σ'} {viewR : ρ → ρ'} {body : σ → Except (Stop ε) (σ ⊕ ρ)}
  {body' : σ' → Except ε (σ' ⊕ ρ')}

/-- A loop whose rounds track another one's tracks it. -/
theorem tracks_iterate (hbody : ∀ s, Tracks (Sum.map view viewR) (body s) (body' (view s)))
    (fuel : ℕ) (s : σ) :
    Tracks viewR (iterate (.error out) body fuel s) (iterate out body' fuel (view s)) := by
  induction fuel generalizing s with
  | zero => exact .error out
  | succ fuel ih =>
    have hround := hbody s
    unfold iterate
    revert hround
    generalize body s = r
    generalize body' (view s) = r'
    intro hround
    cases hround with
    | fault _ => exact .fault _
    | error e => exact .error e
    | ok next =>
      cases next with
      | inl s' => exact ih s'
      | inr r => exact .ok r

/-- Where the other loop does not run out of rounds, a loop faults exactly where it comes to a
state whose round does. -/
theorem Tracks.iterate_eq_fault_iff {fuel : ℕ} {s : σ}
    (hbody : ∀ s, Tracks (Sum.map view viewR) (body s) (body' (view s)))
    (hout : iterate out body' fuel (view s) ≠ .error out) :
    iterate (.error out) body fuel s = .error .fault ↔
      ∃ t, Comes body s t ∧ body t = .error .fault :=
  iterate_eq_error_iff fun h => hout ((tracks_iterate hbody fuel s).error_eq h)

end Loops

end Stop
