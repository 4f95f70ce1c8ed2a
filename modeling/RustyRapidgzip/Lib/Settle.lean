import RustyRapidgzip.Lib.Iterate

/-!
# Running again with more input

A computation over an input that is still growing either ends or reports that it ran
out of input. It settles if what it ends with does not change when more input arrives.
Settling is closed under sequencing and under loops.
-/

namespace Loop

variable {ε α α' β β' : Type}

/-- The first run, on less input, ran out of input, or the second run ends alike: with
the same error, or with a result that `L` relates to the first one's. -/
def Settles (starved : ε) (L : α → α' → Prop) : Except ε α → Except ε α' → Prop
  | .error e, r => e = starved ∨ r = .error e
  | .ok a, r => ∃ a', r = .ok a' ∧ L a a'

namespace Settles

variable {starved : ε} {L : α → α' → Prop} {M : β → β' → Prop}

/-- Two values that are related settle. -/
theorem pure {a : α} {a' : α'} (h : L a a') : Settles starved L (.ok a) (.ok a') := ⟨a', rfl, h⟩

/-- Two failures with one error settle. -/
theorem fail (e : ε) : Settles starved L (.error e) (.error e) := Or.inr rfl

/-- Running out of input settles nothing. -/
theorem starve (r : Except ε α') : Settles starved L (.error starved) r := Or.inl rfl

/-- One computation after another. -/
theorem bind {r : Except ε α} {r' : Except ε α'} {f : α → Except ε β} {f' : α' → Except ε β'}
    (h : Settles starved L r r') (hf : ∀ a a', L a a' → Settles starved M (f a) (f' a')) :
    Settles starved M (r >>= f) (r' >>= f') := by
  cases r with
  | error e =>
    rcases h with rfl | rfl
    · exact starve _
    · exact fail e
  | ok a =>
    obtain ⟨a', rfl, hL⟩ := h
    exact hf a a' hL

/-- The relation of the values may be weakened. -/
theorem mono {L' : α → α' → Prop} {r : Except ε α} {r' : Except ε α'}
    (h : Settles starved L r r') (hL : ∀ a a', L a a' → L' a a') : Settles starved L' r r' := by
  cases r with
  | error e => exact h
  | ok a =>
    obtain ⟨a', rfl, ha⟩ := h
    exact ⟨a', rfl, hL a a' ha⟩

/-- A loop whose rounds settle, and whose first run has rounds enough. -/
theorem iterate {out : ε} {body : α → Except ε (α ⊕ β)} {body' : α' → Except ε (α' ⊕ β')}
    (hbody : ∀ a a', L a a' → Settles starved (Sum.LiftRel L M) (body a) (body' a'))
    {fuel fuel' : ℕ} (hfuel : fuel ≤ fuel') {a : α} {a' : α'} (ha : L a a')
    (hends : Loop.iterate out body fuel a ≠ .error out) :
    Settles starved M (Loop.iterate out body fuel a) (Loop.iterate out body' fuel' a') := by
  induction fuel generalizing a a' fuel' with
  | zero => exact absurd rfl hends
  | succ fuel ih =>
    obtain ⟨fuel', rfl⟩ : ∃ k, fuel' = k + 1 := ⟨fuel' - 1, by omega⟩
    have hround := hbody a a' ha
    cases hres : body a with
    | error e =>
      rw [hres] at hround
      rw [iterate_fail hres]
      rcases hround with rfl | hres'
      · exact starve _
      · rw [iterate_fail hres']
        exact fail e
    | ok next =>
      rw [hres] at hround
      obtain ⟨next', hres', hnext⟩ := hround
      cases hnext with
      | inl hL =>
        rw [iterate_continue hres] at hends ⊢
        rw [iterate_continue hres']
        exact ih (by omega) hL hends
      | inr hM =>
        rw [iterate_break hres, iterate_break hres']
        exact pure hM

end Settles

end Loop
