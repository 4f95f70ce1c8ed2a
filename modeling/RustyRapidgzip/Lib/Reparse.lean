import RustyRapidgzip.Lib.Iterate
import Mathlib.Data.List.Infix

/-!
# Parsing a buffer that grows

A parser is run on what a source has delivered so far, and again with more of it when the
input was cut off. If more input changes nothing but a cut-off, the loop ends with what the
parser makes of all the input at once, however the source delivers it.
-/

namespace Reparse

variable {α β ε ε' σ ρ : Type*}

/-- More input changes no result but `short`. -/
def Stable (parse : List α → Except ε' β) (short : ε') : Prop :=
  ∀ input input', input <+: input' → parse input ≠ .error short → parse input' = parse input

/-- One attempt: finish, ask for more input, or fail. -/
def round [DecidableEq ε'] (parse : List α → Except ε' β) (short : ε') (fail : ε' → ε)
    (buffered : σ → List α) (refill : σ → Except ε σ) (finish : σ → β → ρ) (s : σ) :
    Except ε (σ ⊕ ρ) :=
  match parse (buffered s) with
  | .ok b => .ok (.inr (finish s b))
  | .error e => if e = short then (refill s).map .inl else .error (fail e)

/-- A source delivers what is pending, the buffered part first. It reports a cut-off only when
everything is buffered. -/
structure Delivers (Good : σ → Prop) (buffered pending : σ → List α) (left : σ → ℕ)
    (refill : σ → Except ε σ) (cut : ε) : Prop where
  buffered_prefix : ∀ s, Good s → buffered s <+: pending s
  refill_cases : ∀ s, Good s → (refill s = .error cut ∧ pending s = buffered s) ∨
    ∃ s', refill s = .ok s' ∧ Good s' ∧ pending s' = pending s ∧ left s' < left s

/-- What the loop returns: the result of the parser on everything that is pending. -/
def Returns (Good : σ → Prop) (pending : σ → List α) (buffered : σ → List α)
    (parse : List α → Except ε' β) (fail : ε' → ε) (finish : σ → β → ρ) (s : σ)
    (r : Except ε ρ) : Prop :=
  match parse (pending s) with
  | .ok b => ∃ s', r = .ok (finish s' b) ∧ Good s' ∧ pending s' = pending s ∧
      parse (buffered s') = .ok b
  | .error e => r = .error (fail e)

variable [DecidableEq ε'] {parse : List α → Except ε' β} {short : ε'} {fail : ε' → ε}
  {Good : σ → Prop} {buffered pending : σ → List α} {left : σ → ℕ} {refill : σ → Except ε σ}
  {finish : σ → β → ρ}

/-- Parsing the growing buffer is parsing all of the input. -/
theorem returns_iterate (hstable : Stable parse short)
    (hdelivers : Delivers Good buffered pending left refill (fail short)) (out : ε) {fuel : ℕ}
    {s : σ} (hgood : Good s) (hfuel : left s < fuel) :
    Returns Good pending buffered parse fail finish s
      (Loop.iterate out (round parse short fail buffered refill finish) fuel s) := by
  refine Loop.iterate_rule left (fun s (hgood : Good s) => ?_) hgood hfuel
  have hprefix := hdelivers.buffered_prefix s hgood
  unfold round
  cases hparse : parse (buffered s) with
  | ok b =>
    have hsame := hstable _ _ hprefix (by rw [hparse]; simp)
    simp only [Loop.RoundKeeps, Returns, hsame, hparse]
    exact ⟨s, rfl, hgood, rfl, hparse⟩
  | error e =>
    by_cases hshort : e = short
    · subst hshort
      simp only [if_true]
      rcases hdelivers.refill_cases s hgood with ⟨herr, hall⟩ | ⟨s', hok, hgood', hpending, hleft⟩
      · rw [herr]
        simp only [Except.map, Loop.RoundKeeps, Returns, hall, hparse]
      · rw [hok]
        refine ⟨hgood', hleft, fun r hr => ?_⟩
        unfold Returns at hr ⊢
        rwa [hpending] at hr
    · have hsame := hstable _ _ hprefix (by
        rw [hparse]
        simpa using hshort)
      simp only [if_neg hshort, Loop.RoundKeeps, Returns, hsame, hparse]

end Reparse
