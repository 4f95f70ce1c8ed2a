import RustyRapidgzip.Lib.Iterate
import Mathlib.Logic.Relation

/-!
# Computations that record what they do

A computation records the accesses it makes and then returns or fails; what it recorded stays. The
result alone is the one of the plain computation. A monitor follows the records in a state of its
own and says of each whether it is allowed there. The rules below show of a computation that all
its records are allowed, together with what holds when it returns.
-/

/-- A computation that may fail, and its records. -/
structure Traced (ω ε α : Type) where
  log : List ω
  result : Except ε α

namespace Traced

variable {ω ε α β σ ρ : Type}

/-- Computations run one after the other, and so do their logs; a failure ends both. -/
instance : Monad (Traced ω ε) where
  pure a := ⟨[], .ok a⟩
  bind x f :=
    match x.result with
    | .error e => ⟨x.log, .error e⟩
    | .ok a => ⟨x.log ++ (f a).log, (f a).result⟩

/-- Record an access. -/
def tell (access : ω) : Traced ω ε Unit := ⟨[access], .ok ()⟩

/-- Record accesses in order. -/
def tellAll (accesses : List ω) : Traced ω ε Unit := ⟨accesses, .ok ()⟩

/-- A computation without records. -/
def lift (r : Except ε α) : Traced ω ε α := ⟨[], r⟩

/-- A failure. -/
def fail (e : ε) : Traced ω ε α := lift (.error e)

/-- A pure computation returns its value. -/
@[simp] theorem result_pure (a : α) : (pure a : Traced ω ε α).result = .ok a := rfl

/-- Telling an access returns nothing. -/
@[simp] theorem result_tell (access : ω) : (tell access : Traced ω ε Unit).result = .ok () := rfl

/-- Telling accesses returns nothing. -/
@[simp] theorem result_tellAll (accesses : List ω) :
    (tellAll accesses : Traced ω ε Unit).result = .ok () := rfl

/-- A lifted computation returns what it returned before. -/
@[simp] theorem result_lift (r : Except ε α) : (lift r : Traced ω ε α).result = r := rfl

/-- A failure is the result. -/
@[simp] theorem result_fail (e : ε) : (fail e : Traced ω ε α).result = .error e := rfl

/-- A pure computation makes no access. -/
@[simp] theorem log_pure (a : α) : (pure a : Traced ω ε α).log = [] := rfl

/-- Telling an access logs it. -/
@[simp] theorem log_tell (access : ω) : (tell access : Traced ω ε Unit).log = [access] := rfl

/-- A lifted computation makes no access. -/
@[simp] theorem log_lift (r : Except ε α) : (lift r : Traced ω ε α).log = [] := rfl

/-- The result of a sequence is the sequence of the results. -/
@[simp] theorem result_bind (x : Traced ω ε α) (f : α → Traced ω ε β) :
    (x >>= f).result = x.result >>= fun a => (f a).result := by
  obtain ⟨log, result⟩ := x
  cases result <;> rfl

/-- A success passes its value on. -/
theorem ok_bind (a : α) (f : α → Except ε β) : (Except.ok a >>= f) = f a := rfl

/-- A sequence whose first part returns records its parts in order. -/
theorem log_bind_ok {x : Traced ω ε α} {a : α} (h : x.result = .ok a) (f : α → Traced ω ε β) :
    (x >>= f).log = x.log ++ (f a).log := by
  obtain ⟨log, result⟩ := x
  simp only at h
  subst h
  rfl

/-- A sequence whose first part fails ends there. -/
theorem log_bind_error {x : Traced ω ε α} {e : ε} (h : x.result = .error e)
    (f : α → Traced ω ε β) : (x >>= f).log = x.log := by
  obtain ⟨log, result⟩ := x
  simp only at h
  subst h
  rfl

/-- The result of a branch is the branch of the results. -/
theorem result_ite {c : Prop} [Decidable c] (x y : Traced ω ε α) :
    (if c then x else y).result = if c then x.result else y.result := by
  split <;> rfl

/-- The same computation under other names of its records. -/
def relabel {ω' : Type} (f : ω → ω') (x : Traced ω ε α) : Traced ω' ε α :=
  ⟨x.log.map f, x.result⟩

/-- Renaming the accesses keeps the result. -/
@[simp] theorem result_relabel {ω' : Type} (f : ω → ω') (x : Traced ω ε α) :
    (x.relabel f).result = x.result := rfl

/-- Run a loop body until it breaks. -/
def iterate (out : ε) (body : σ → Traced ω ε (σ ⊕ ρ)) : ℕ → σ → Traced ω ε ρ
  | 0, _ => fail out
  | fuel + 1, s => do
    match ← body s with
    | .inl s' => iterate out body fuel s'
    | .inr r => pure r

/-- The result of a loop is the loop of the results. -/
theorem result_iterate (out : ε) (body : σ → Traced ω ε (σ ⊕ ρ)) (fuel : ℕ) (s : σ) :
    (iterate out body fuel s).result = Loop.iterate out (fun s => (body s).result) fuel s := by
  induction fuel generalizing s with
  | zero => rfl
  | succ fuel ih =>
    rw [iterate, Loop.iterate, result_bind]
    rcases (body s).result with e | s' | r
    · rfl
    · exact ih s'
    · rfl

end Traced

/-! ## Monitors -/

/-- A monitor: the state it is in after a record, and whether it allows the record. -/
structure Monitor (γ ω : Type) where
  next : γ → ω → γ
  Allows : γ → ω → Prop

namespace Monitor

variable {γ ω ε α β σ ρ : Type} {m : Monitor γ ω} {g : γ}

/-- The state after the records. -/
def after (m : Monitor γ ω) (g : γ) (log : List ω) : γ := log.foldl m.next g

/-- The monitor allows all records. -/
def Accepts (m : Monitor γ ω) : γ → List ω → Prop
  | _, [] => True
  | g, access :: log => m.Allows g access ∧ m.Accepts (m.next g access) log

/-- A log that goes on moves the monitor on. -/
theorem after_append (m : Monitor γ ω) (g : γ) (log more : List ω) :
    m.after g (log ++ more) = m.after (m.after g log) more := List.foldl_append

/-- A log is accepted where both of its parts are, one after the other. -/
theorem accepts_append (m : Monitor γ ω) (g : γ) (log more : List ω) :
    m.Accepts g (log ++ more) ↔ m.Accepts g log ∧ m.Accepts (m.after g log) more := by
  induction log generalizing g with
  | nil => exact ⟨fun h => ⟨trivial, h⟩, And.right⟩
  | cons access log ih =>
    rw [List.cons_append, Accepts, Accepts, ih, and_assoc]
    rfl

/-- A monitor without a state allows the records with a property. -/
def each (P : ω → Prop) : Monitor Unit ω := ⟨fun _ _ => (), fun _ => P⟩

/-- A monitor without a state accepts the logs each of whose accesses is allowed. -/
theorem accepts_each (P : ω → Prop) (g : Unit) (log : List ω) :
    (each P).Accepts g log ↔ ∀ access ∈ log, P access := by
  induction log generalizing g with
  | nil => simp [Accepts]
  | cons access log ih =>
    rw [Accepts, ih, List.forall_mem_cons]
    rfl

section Relabel

variable {ω' : Type} {f : ω' → ω} (hnext : ∀ g access, m.next g (f access) = g)

include hnext

/-- Accesses that keep the state leave it as it is. -/
theorem after_map (log : List ω') : m.after g (log.map f) = g := by
  rw [after]
  induction log with
  | nil => rfl
  | cons access log ih => rw [List.map_cons, List.foldl_cons, hnext, ih]

/-- A log is accepted each of whose accesses is allowed in the state that stays. -/
theorem accepts_map {log : List ω'} (hallows : ∀ access ∈ log, m.Allows g (f access)) :
    m.Accepts g (log.map f) := by
  induction log with
  | nil => trivial
  | cons access log ih =>
    obtain ⟨hfirst, hrest⟩ := List.forall_mem_cons.mp hallows
    rw [List.map_cons, Accepts, hnext]
    exact ⟨hfirst, ih hrest⟩

end Relabel

/-- All records of a computation are allowed, and `Q` holds of its result and the state then. -/
def Ensures (m : Monitor γ ω) (g : γ) (x : Traced ω ε α) (Q : α → γ → Prop) : Prop :=
  m.Accepts g x.log ∧ ∀ a, x.result = .ok a → Q a (m.after g x.log)

namespace Ensures

variable {x : Traced ω ε α} {Q Q' : α → γ → Prop}

/-- A pure computation ensures what holds of its value. -/
theorem pure {a : α} (h : Q a g) : m.Ensures g (pure a : Traced ω ε α) Q := by
  refine ⟨trivial, ?_⟩
  rintro _ ⟨⟩
  exact h

/-- A computation that makes no access ensures what holds of its result. -/
theorem lift {r : Except ε α} (h : ∀ a, r = .ok a → Q a g) :
    m.Ensures g (Traced.lift r : Traced ω ε α) Q := ⟨trivial, h⟩

/-- A failure ensures everything. -/
theorem fail (e : ε) : m.Ensures g (Traced.fail e : Traced ω ε α) Q := ⟨trivial, nofun⟩

/-- An allowed access moves the monitor on. -/
theorem tell {access : ω} {Q : Unit → γ → Prop} (hallows : m.Allows g access)
    (h : Q () (m.next g access)) : m.Ensures g (Traced.tell access : Traced ω ε Unit) Q := by
  refine ⟨⟨hallows, trivial⟩, ?_⟩
  rintro _ ⟨⟩
  exact h

/-- Accesses that are accepted move the monitor on. -/
theorem tellAll {accesses : List ω} {Q : Unit → γ → Prop} (haccepts : m.Accepts g accesses)
    (h : Q () (m.after g accesses)) :
    m.Ensures g (Traced.tellAll accesses : Traced ω ε Unit) Q := by
  refine ⟨haccepts, ?_⟩
  rintro _ ⟨⟩
  exact h

/-- What is ensured may be weakened. -/
theorem mono (h : m.Ensures g x Q) (hQ : ∀ a g', Q a g' → Q' a g') : m.Ensures g x Q' :=
  ⟨h.1, fun a ha => hQ a _ (h.2 a ha)⟩

/-- What is known of the result besides. -/
theorem of_result {R : α → Prop} (h : m.Ensures g x Q) (hR : ∀ a, x.result = .ok a → R a) :
    m.Ensures g x fun a g' => Q a g' ∧ R a :=
  ⟨h.1, fun a ha => ⟨h.2 a ha, hR a ha⟩⟩

/-- One computation after the other. -/
theorem bind {f : α → Traced ω ε β} {R : β → γ → Prop} (hx : m.Ensures g x Q)
    (hf : ∀ a g', Q a g' → m.Ensures g' (f a) R) : m.Ensures g (x >>= f) R := by
  obtain ⟨haccepts, hresult⟩ := hx
  cases hres : x.result with
  | error e =>
    refine ⟨by rwa [Traced.log_bind_error hres], fun b hb => ?_⟩
    rw [Traced.result_bind, hres] at hb
    cases hb
  | ok a =>
    obtain ⟨hnext, hend⟩ := hf a _ (hresult a hres)
    rw [Ensures, Traced.log_bind_ok hres, accepts_append, after_append, Traced.result_bind, hres]
    exact ⟨⟨haccepts, hnext⟩, hend⟩

/-- Records that leave the monitor where it is. -/
theorem relabel {ω' : Type} {P : ω' → Prop} {f : ω' → ω} {y : Traced ω' ε α} {R : α → Prop}
    (hnext : ∀ g access, m.next g (f access) = g)
    (hallows : ∀ access, P access → m.Allows g (f access))
    (hy : (each P).Ensures () y fun a _ => R a) :
    m.Ensures g (y.relabel f) fun a g' => R a ∧ g' = g := by
  obtain ⟨haccepts, hresult⟩ := hy
  rw [accepts_each] at haccepts
  refine ⟨?_, fun a ha => ⟨hresult a ha, after_map hnext y.log⟩⟩
  exact accepts_map hnext fun access hmem => hallows access (haccepts access hmem)

/-- What a round that goes on leaves is what the next round starts from, whatever the number of
rounds. -/
theorem iterate {out : ε} {body : σ → Traced ω ε (σ ⊕ ρ)} {Inv : σ → γ → Prop}
    {R : ρ → γ → Prop}
    (hbody : ∀ s g, Inv s g → m.Ensures g (body s) fun r g' => Sum.elim (Inv · g') (R · g') r)
    (fuel : ℕ) {s : σ} (hs : Inv s g) : m.Ensures g (Traced.iterate out body fuel s) R := by
  induction fuel generalizing s g with
  | zero => exact fail out
  | succ fuel ih =>
    refine bind (hbody s g hs) fun r g' hr => ?_
    cases r with
    | inl s' => exact ih hr
    | inr r => exact pure hr

end Ensures

end Monitor
