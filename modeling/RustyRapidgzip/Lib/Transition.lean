import Mathlib.Logic.Relation
import Mathlib.Tactic.Common

/-!
# Runs of a transition system

What holds at the start and is kept by every step holds in every reachable state; the same goes
for what holds of a state and of what its run has emitted. A goal is
inevitable when every run reaches it, whatever step it takes: it is enough that some step
is possible as long as the goal is not reached, and that every step lowers a measure.
-/

namespace Transition

variable {σ τ ε : Type*} {Step : σ → σ → Prop} {Goal : σ → Prop}

/-- The states that some run leads to. -/
abbrev Reaches (Step : σ → σ → Prop) : σ → σ → Prop := Relation.ReflTransGen Step

/-- An invariant holds in every reachable state. -/
theorem Reaches.invariant (Inv : σ → Prop) {s s' : σ} (h : Reaches Step s s')
    (hkeeps : ∀ s s', Inv s → Step s s' → Inv s') (hs : Inv s) : Inv s' := by
  induction h with
  | refl => exact hs
  | tail _ hstep ih => exact hkeeps _ _ ih hstep

/-- A run stays one when more steps are allowed. -/
theorem Reaches.mono {Step' : σ → σ → Prop} {s s' : σ} (h : Reaches Step s s')
    (hstep : ∀ s s', Step s s' → Step' s s') : Reaches Step' s s' := by
  induction h with
  | refl => exact .refl
  | tail _ hlast ih => exact ih.tail (hstep _ _ hlast)

/-- A run, with what its steps emit. -/
inductive Trace (Step : σ → σ → Prop) (emits : σ → σ → List ε) (s : σ) : List ε → σ → Prop
  | refl : Trace Step emits s [] s
  | tail {es : List ε} {s' s'' : σ} (htrace : Trace Step emits s es s') (hstep : Step s' s'') :
      Trace Step emits s (es ++ emits s' s'') s''

/-- A trace leads to a state that is reached. -/
theorem Trace.reaches {emits : σ → σ → List ε} {es : List ε} {s s' : σ}
    (h : Trace Step emits s es s') : Reaches Step s s' := by
  induction h with
  | refl => exact .refl
  | tail _ hstep ih => exact ih.tail hstep

/-- Every run emits something. -/
theorem Reaches.exists_trace (emits : σ → σ → List ε) {s s' : σ} (h : Reaches Step s s') :
    ∃ es, Trace Step emits s es s' := by
  induction h with
  | refl => exact ⟨[], .refl⟩
  | tail _ hstep ih =>
    obtain ⟨es, htrace⟩ := ih
    exact ⟨_, htrace.tail hstep⟩

/-- An invariant of the states and of what was emitted before them. -/
theorem Trace.invariant {emits : σ → σ → List ε} (Inv : List ε → σ → Prop) {es : List ε} {s s' : σ}
    (h : Trace Step emits s es s')
    (hkeeps : ∀ es s₁ s₂, Reaches Step s s₁ → Inv es s₁ → Step s₁ s₂ → Inv (es ++ emits s₁ s₂) s₂)
    (hs : Inv [] s) : Inv es s' := by
  induction h with
  | refl => exact hs
  | tail htrace hstep ih => exact hkeeps _ _ _ htrace.reaches ih hstep

/-- Every run reaches the goal, and none ends before. -/
inductive Inevitable (Step : σ → σ → Prop) (Goal : σ → Prop) : σ → Prop
  | here {s : σ} (hgoal : Goal s) : Inevitable Step Goal s
  | ahead {s : σ} (hlive : ∃ s', Step s s') (hnext : ∀ s', Step s s' → Inevitable Step Goal s') :
      Inevitable Step Goal s

/-- A system that can step until it reaches the goal, and lowers a measure in each step. -/
theorem inevitable_of_measure (Inv : σ → Prop) (measure : σ → ℕ)
    (hkeeps : ∀ s s', Inv s → Step s s' → Inv s')
    (hlower : ∀ s s', Inv s → Step s s' → measure s' < measure s)
    (hlive : ∀ s, Inv s → Goal s ∨ ∃ s', Step s s') {s : σ} (hs : Inv s) :
    Inevitable Step Goal s := by
  induction hn : measure s using Nat.strongRecOn generalizing s with
  | ind n ih =>
    rcases hlive s hs with hgoal | hstep
    · exact .here hgoal
    · refine .ahead hstep fun s' hs' => ?_
      have hlt := hlower s s' hs hs'
      exact ih (measure s') (by omega) (hkeeps s s' hs hs') rfl

/-- A system that lowers a measure in each step comes to a state without one. -/
theorem exists_terminal (measure : σ → ℕ) (hlower : ∀ s s', Step s s' → measure s' < measure s)
    (s : σ) : ∃ s', Reaches Step s s' ∧ ∀ t, ¬Step s' t := by
  induction hn : measure s using Nat.strongRecOn generalizing s with
  | ind n ih =>
    by_cases hstep : ∃ s', Step s s'
    · obtain ⟨s', hs'⟩ := hstep
      have hlt := hlower s s' hs'
      obtain ⟨s'', hreach, hend⟩ := ih (measure s') (by omega) s' rfl
      exact ⟨s'', hreach.head hs', hend⟩
    · exact ⟨s, .refl, not_exists.mp hstep⟩

/-- The goal may be weakened. -/
theorem Inevitable.mono {Goal' : σ → Prop} {s : σ} (h : Inevitable Step Goal s)
    (hgoal : ∀ s, Goal s → Goal' s) : Inevitable Step Goal' s := by
  induction h with
  | here hs => exact .here (hgoal _ hs)
  | ahead hlive _ ih => exact .ahead hlive ih

/-- What is inevitable can be reached. -/
theorem Inevitable.exists_reaches {s : σ} (h : Inevitable Step Goal s) :
    ∃ s', Reaches Step s s' ∧ Goal s' := by
  induction h with
  | here hgoal => exact ⟨_, .refl, hgoal⟩
  | ahead hlive _ ih =>
    obtain ⟨s', hs'⟩ := hlive
    obtain ⟨s'', hreach, hgoal⟩ := ih s' hs'
    exact ⟨s'', hreach.head hs', hgoal⟩

/-- A run that cannot go on has come to what every run comes to, if that is where runs end. -/
theorem Inevitable.of_stuck {s s' : σ} (h : Inevitable Step Goal s) (hreach : Reaches Step s s')
    (hend : ∀ t t', Goal t → ¬Step t t') (hstuck : ∀ t, ¬Step s' t) : Goal s' := by
  induction hreach using Relation.ReflTransGen.head_induction_on with
  | refl =>
    cases h with
    | here hgoal => exact hgoal
    | ahead hlive _ => exact absurd hlive (not_exists.mpr hstuck)
  | head hstep _ ih =>
    cases h with
    | here hgoal => exact absurd hstep (hend _ _ hgoal)
    | ahead _ hnext => exact ih (hnext _ hstep)

/-- What every run reaches, a run reaches before a state of it or from there on. -/
theorem Inevitable.exists_beside {s s' : σ} (h : Inevitable Step Goal s)
    (hreach : Reaches Step s s') : ∃ t, Goal t ∧ (Reaches Step t s' ∨ Reaches Step s' t) := by
  induction hreach using Relation.ReflTransGen.head_induction_on with
  | refl =>
    obtain ⟨t, hreaches, hgoal⟩ := h.exists_reaches
    exact ⟨t, hgoal, Or.inr hreaches⟩
  | head hstep hrest ih =>
    cases h with
    | here hgoal => exact ⟨_, hgoal, Or.inl (hrest.head hstep)⟩
    | ahead _ hnext => exact ih (hnext _ hstep)

/-- A system that runs as a phase of another one: as long as it has not reached its goal, the
other one takes exactly its steps. -/
theorem Inevitable.phase {Step' : τ → τ → Prop} {Goal' : τ → Prop} {f : σ → τ} {s : σ}
    (Inv : σ → Prop) (h : Inevitable Step Goal s) (hkeeps : ∀ s s', Inv s → Step s s' → Inv s')
    (hforth : ∀ s s', ¬Goal s → Step s s' → Step' (f s) (f s'))
    (hback : ∀ s t, Inv s → Step' (f s) t → Goal s ∨ ∃ s', Step s s' ∧ t = f s')
    (hgoal : ∀ s, Inv s → Goal s → Inevitable Step' Goal' (f s)) (hs : Inv s) :
    Inevitable Step' Goal' (f s) := by
  induction h with
  | here hgoal' => exact hgoal _ hs hgoal'
  | @ahead s hlive _ ih =>
    obtain ⟨s', hs'⟩ := hlive
    by_cases hdone : Goal s
    · exact hgoal s hs hdone
    · refine .ahead ⟨f s', hforth s s' hdone hs'⟩ fun t ht => ?_
      obtain ⟨s'', hstep, rfl⟩ := (hback s t hs ht).resolve_left hdone
      exact ih s'' hstep (hkeeps s s'' hs hstep)

end Transition
