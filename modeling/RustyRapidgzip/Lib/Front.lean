import RustyRapidgzip.Lib.Pool
import RustyRapidgzip.Lib.Transition

/-!
# The front of a pipeline

A feeder hands a list of messages to a pool of workers. Before each one it takes a slot of a
counting semaphore, which the end of the pipeline gives back. As long as results are taken
and the semaphore is open, every message arrives.
-/

namespace Threads

open Transition

/-- A counting semaphore that can be shut down. -/
structure Semaphore where
  inFlight : ℕ
  max : ℕ
  shutdown : Bool
  deriving DecidableEq, Repr

namespace Semaphore

/-- Take a slot. The flag is false after a shutdown; `none` blocks. -/
def acquire (g : Semaphore) : Option (Bool × Semaphore) :=
  if g.shutdown then some (false, g)
  else if g.inFlight < g.max then some (true, { g with inFlight := g.inFlight + 1 })
  else none

/-- Give a slot back. -/
def release (g : Semaphore) : Semaphore := { g with inFlight := g.inFlight - 1 }

/-- Let all further calls of `acquire` return false. -/
def close (g : Semaphore) : Semaphore := { g with shutdown := true }

end Semaphore

/-- The semaphore of a pipeline, if it has one. -/
abbrev Slots : Type := Option Semaphore

namespace Slots

/-- Without a semaphore there is always a slot. -/
def acquire : Slots → Option (Bool × Slots)
  | none => some (true, none)
  | some g => g.acquire.map fun r => (r.1, some r.2)

/-- Give a slot back. -/
def release (slots : Slots) : Slots := slots.map Semaphore.release

/-- Close the slots, if there are any. -/
def close (slots : Slots) : Slots := slots.map Semaphore.close

/-- The semaphore has not been shut down. -/
def Open (slots : Slots) : Prop := ∀ g, slots = some g → g.shutdown = false

/-- As many slots are in use as were taken and not given back. -/
def Counts (slots : Slots) (taken released : ℕ) : Prop :=
  ∀ g, slots = some g → g.inFlight + released = taken ∧ g.inFlight ≤ g.max ∧ 0 < g.max

/-- A slot is acquired where there are no limits, or where one is free. -/
theorem acquire_some_true {slots slots' : Slots} (h : slots.acquire = some (true, slots')) :
    (slots = none ∧ slots' = none) ∨ ∃ g, slots = some g ∧ g.shutdown = false ∧
      g.inFlight < g.max ∧ slots' = some { g with inFlight := g.inFlight + 1 } := by
  cases slots with
  | none =>
    cases h
    exact Or.inl ⟨rfl, rfl⟩
  | some g =>
    simp only [acquire, Semaphore.acquire] at h
    split at h
    · cases h
    · next hopen =>
      split at h
      · next hlt =>
        cases h
        exact Or.inr ⟨g, rfl, by simpa using hopen, hlt, rfl⟩
      · cases h

/-- An acquire is turned away where the slots are closed. -/
theorem acquire_some_false {slots slots' : Slots} (h : slots.acquire = some (false, slots')) :
    ∃ g, slots = some g ∧ g.shutdown = true := by
  cases slots with
  | none => cases h
  | some g =>
    simp only [acquire, Semaphore.acquire] at h
    split at h
    · next hclosed => exact ⟨g, rfl, hclosed⟩
    · split at h <;> cases h

/-- An acquire waits where all slots are taken. -/
theorem acquire_none {slots : Slots} (h : slots.acquire = none) :
    ∃ g, slots = some g ∧ g.shutdown = false ∧ g.max ≤ g.inFlight := by
  cases slots with
  | none => cases h
  | some g =>
    simp only [acquire, Semaphore.acquire] at h
    split at h
    · cases h
    · next hopen =>
      split at h
      · cases h
      · next hfull => exact ⟨g, rfl, by simpa using hopen, Nat.le_of_not_lt hfull⟩

/-- A slot that is acquired is one more that was taken. -/
theorem Counts.acquire {slots slots' : Slots} {taken released : ℕ}
    (h : slots.Counts taken released) (hslot : slots.acquire = some (true, slots')) :
    slots'.Counts (taken + 1) released := by
  rcases acquire_some_true hslot with ⟨-, rfl⟩ | ⟨g, rfl, -, hlt, rfl⟩
  · simp [Counts]
  · rintro g' ⟨⟩
    obtain ⟨hcount, -, hmax⟩ := h g rfl
    exact ⟨by simp only; omega, hlt, hmax⟩

/-- A slot that is in use can be given back. -/
theorem Counts.release {slots : Slots} {taken released : ℕ} (h : slots.Counts taken released)
    (hlt : released < taken) : slots.release.Counts taken (released + 1) := by
  intro g' hg'
  obtain ⟨g, rfl, rfl⟩ := Option.map_eq_some_iff.mp hg'
  obtain ⟨hcount, hle, hmax⟩ := h g rfl
  exact ⟨by simp only [Semaphore.release]; omega, by simp only [Semaphore.release]; omega, hmax⟩

/-- Slots that are given back stay open. -/
theorem Open.release {slots : Slots} (h : slots.Open) : slots.release.Open := by
  intro g' hg'
  obtain ⟨g, rfl, rfl⟩ := Option.map_eq_some_iff.mp hg'
  exact h g rfl

/-- Slots that are open turn nobody away and stay open. -/
theorem Open.acquire {slots slots' : Slots} {flag : Bool} (h : slots.Open)
    (hslot : slots.acquire = some (flag, slots')) : flag = true ∧ slots'.Open := by
  cases flag with
  | false =>
    obtain ⟨g, rfl, hclosed⟩ := acquire_some_false hslot
    rw [h g rfl] at hclosed
    cases hclosed
  | true =>
    rcases acquire_some_true hslot with ⟨-, rfl⟩ | ⟨g, rfl, hopen, -, rfl⟩
    · exact ⟨rfl, by simp [Open]⟩
    · refine ⟨rfl, ?_⟩
      rintro g' ⟨⟩
      exact hopen

end Slots

namespace Slots

/-- How many of `n` messages can still take a slot. -/
def free (n : ℕ) : Slots → ℕ
  | none => n
  | some g => if g.shutdown then 0 else min n (g.max - g.inFlight)

/-- A slot that is acquired is one free slot less. -/
theorem free_acquire {slots slots' : Slots} {n : ℕ} (h : slots.acquire = some (true, slots')) :
    slots.free (n + 1) = 1 + slots'.free n := by
  rcases acquire_some_true h with ⟨rfl, rfl⟩ | ⟨g, rfl, hopen, hlt, rfl⟩
  · simp only [free]
    omega
  · simp only [free, hopen, Bool.false_eq_true, if_false]
    omega

/-- Closing frees no slot. -/
theorem free_close_le {slots : Slots} {n : ℕ} : slots.close.free n ≤ slots.free n := by
  cases slots with
  | none => exact le_rfl
  | some g => exact Nat.zero_le _

/-- Of no slots none is free. -/
@[simp] theorem free_zero {slots : Slots} : slots.free 0 = 0 := by
  cases slots with
  | none => rfl
  | some g => simp [free]

end Slots

/-- A feeder takes a slot, sends a message, or has stopped; the list is what it has not taken a
slot for, or not sent when it stopped. -/
inductive Feeder (α : Type*) where
  | acquire (rest : List α)
  | send (a : α) (rest : List α)
  | stopped (rest : List α)

namespace Feeder

variable {α : Type*}

/-- The messages that are not sent yet. -/
def pending : Feeder α → List α
  | .acquire rest => rest
  | .send a rest => a :: rest
  | .stopped rest => rest

/-- The feeder has stopped. -/
def Stopped (f : Feeder α) : Prop := ∃ rest, f = .stopped rest

/-- The steps that are left, with `k` for each message that is sent. -/
def weight (k : ℕ) : Feeder α → ℕ
  | .acquire rest => 1 + (k + 2) * rest.length
  | .send _ rest => 1 + (k + 1) + (k + 2) * rest.length
  | .stopped _ => 0

/-- The messages that the feeder still sends when no slot is given back. -/
def toCome (slots : Slots) : Feeder α → ℕ
  | .acquire rest => slots.free rest.length
  | .send _ rest => 1 + slots.free rest.length
  | .stopped _ => 0

/-- The feeder has taken a slot for the first `taken` messages of a list. -/
def At (items : List α) (taken : ℕ) : Feeder α → Prop
  | .acquire rest => rest = items.drop taken
  | .send a rest => ∃ sent, taken = sent + 1 ∧ a :: rest = items.drop sent
  | .stopped rest => ∃ sent, sent ≤ taken ∧ rest = items.drop sent

end Feeder

/-- A feeder and its pool. The number of slots taken so far is a history variable. -/
structure Front (n : ℕ) (α β : Type*) where
  feeder : Feeder α
  slots : Slots
  admitted : ℕ
  pool : Pool n α β

namespace Front

variable {n : ℕ} {α β : Type*}

/-- The feeder has all messages. -/
def start (n : ℕ) (β : Type*) (items : List α) (slots : Slots) : Front n α β :=
  ⟨.acquire items, slots, 0, Pool.start n α β⟩

/-- A step of the feeder or of a worker. `spare` says that someone else holds a receiver of the
workers' channel, and `taken` that their results have a receiver. -/
inductive Step (work : α → β → Prop) (capIn capOut : ℕ) (spare taken : Prop) :
    Front n α β → Front n α β → Prop
  | acquire {f : Front n α β} {a : α} {rest : List α} {slots : Slots}
      (hfeeder : f.feeder = .acquire (a :: rest)) (hslot : f.slots.acquire = some (true, slots)) :
      Step work capIn capOut spare taken f
        { f with feeder := .send a rest, slots := slots, admitted := f.admitted + 1 }
  | refuse {f : Front n α β} {a : α} {rest : List α} {slots : Slots}
      (hfeeder : f.feeder = .acquire (a :: rest))
      (hslot : f.slots.acquire = some (false, slots)) :
      Step work capIn capOut spare taken f { f with feeder := .stopped (a :: rest) }
  | finish {f : Front n α β} (hfeeder : f.feeder = .acquire []) :
      Step work capIn capOut spare taken f { f with feeder := .stopped [] }
  | send {f : Front n α β} {a : α} {rest : List α} (hfeeder : f.feeder = .send a rest)
      (hlistening : spare ∨ ¬f.pool.Stopped) (hroom : f.pool.input.length < capIn) :
      Step work capIn capOut spare taken f
        { f with feeder := .acquire rest, pool := f.pool.put a }
  | lost {f : Front n α β} {a : α} {rest : List α} (hfeeder : f.feeder = .send a rest)
      (hspare : ¬spare) (hstopped : f.pool.Stopped) :
      Step work capIn capOut spare taken f { f with feeder := .stopped (a :: rest) }
  | work {f : Front n α β} {pool : Pool n α β}
      (hpool : f.pool.Step work capOut (¬f.feeder.Stopped) taken pool) :
      Step work capIn capOut spare taken f { f with pool := pool }

variable {f f' : Front n α β} {work : α → β → Prop} {capIn capOut : ℕ} {spare taken : Prop}
  {P : α → Prop} {Q : β → Prop} {items : List α} {released : ℕ}

/-- A step stays one when more results are possible. -/
theorem Step.mono {work' : α → β → Prop} (h : Step work capIn capOut spare taken f f')
    (hwork : ∀ a b, work a b → work' a b) : Step work' capIn capOut spare taken f f' := by
  cases h with
  | acquire hfeeder hslot => exact .acquire hfeeder hslot
  | refuse hfeeder hslot => exact .refuse hfeeder hslot
  | finish hfeeder => exact .finish hfeeder
  | send hfeeder hlistening hroom => exact .send hfeeder hlistening hroom
  | lost hfeeder hspare hstopped => exact .lost hfeeder hspare hstopped
  | work hpool => exact .work (hpool.mono hwork)

/-- The feeder and all workers have stopped. -/
def Finished (f : Front n α β) : Prop := f.feeder.Stopped ∧ f.pool.Stopped

/-- After the end nothing happens. -/
theorem Finished.not_step (h : f.Finished) : ¬Step work capIn capOut spare taken f f' := by
  obtain ⟨⟨rest, hfeeder⟩, hstopped⟩ := h
  intro hstep
  cases hstep with
  | work hpool =>
    cases hpool with
    | take hw _ _ => simp [hstopped _] at hw
    | close hw _ _ => simp [hstopped _] at hw
    | give hw _ _ => simp [hstopped _] at hw
    | drop hw _ => simp [hstopped _] at hw
  | acquire hf _ => simp [hfeeder] at hf
  | refuse hf _ => simp [hfeeder] at hf
  | finish hf => simp [hfeeder] at hf
  | send hf _ _ => simp [hfeeder] at hf
  | lost hf _ _ => simp [hfeeder] at hf

/-- The feeder waits for a slot, and no message is under way to it from behind. -/
def Blocked (f : Front n α β) : Prop :=
  (∃ a rest, f.feeder = .acquire (a :: rest)) ∧
    (∃ g, f.slots = some g ∧ g.shutdown = false ∧ g.max ≤ g.inFlight) ∧
    (∀ i b, f.pool.workers i ≠ .send b) ∧ (f.pool.Stopped ∨ f.pool.input = [])

/-- When results have room or no receiver, a front that cannot step is finished or waits for a
slot. -/
theorem step_or_waits (hwork : ∀ a, ∃ b, work a b) (hin : 0 < capIn)
    (hroom : taken → f.pool.output.length < capOut)
    (hspare : spare → f.pool.Stopped → f.feeder.Stopped) :
    (∃ f', Step work capIn capOut spare taken f f') ∨ f.Finished ∨ f.Blocked := by
  rcases f.pool.step_or_quiet hwork capOut (¬f.feeder.Stopped) taken with ⟨pool, hpool⟩ | hquiet
  · exact Or.inl ⟨_, .work hpool⟩
  have hidle := hquiet.idle hroom
  have hsend (i : Fin n) (b : β) : f.pool.workers i ≠ .send b := by
    rcases hidle i with h | ⟨h, -⟩ <;> simp [h]
  have hinput : f.pool.Stopped ∨ f.pool.input = [] := by
    by_cases hstopped : f.pool.Stopped
    · exact Or.inl hstopped
    · obtain ⟨i, hi⟩ := not_forall.mp hstopped
      exact Or.inr ((hidle i).resolve_left hi).2.1
  cases hfeeder : f.feeder with
  | acquire rest =>
    cases rest with
    | nil => exact Or.inl ⟨_, .finish hfeeder⟩
    | cons a rest =>
      cases hslot : f.slots.acquire with
      | none =>
        exact Or.inr (Or.inr ⟨⟨a, rest, hfeeder⟩, Slots.acquire_none hslot, hsend, hinput⟩)
      | some r =>
        obtain ⟨flag, slots⟩ := r
        cases flag with
        | false => exact Or.inl ⟨_, .refuse hfeeder hslot⟩
        | true => exact Or.inl ⟨_, .acquire hfeeder hslot⟩
  | send a rest =>
    by_cases hstopped : f.pool.Stopped
    · by_cases hs : spare
      · obtain ⟨_, h⟩ := hspare hs hstopped
        rw [hfeeder] at h
        cases h
      · exact Or.inl ⟨_, .lost hfeeder hs hstopped⟩
    · refine Or.inl ⟨_, .send hfeeder (Or.inr hstopped) ?_⟩
      rw [hinput.resolve_left hstopped]
      exact hin
  | stopped rest =>
    refine Or.inr (Or.inl ⟨⟨rest, hfeeder⟩, fun i => ?_⟩)
    exact (hidle i).resolve_right fun h => h.2.2 ⟨rest, hfeeder⟩

/-- Some message of the front has its property. -/
def Carries (P : α → Prop) (Q : β → Prop) (f : Front n α β) : Prop :=
  (∃ a ∈ f.feeder.pending, P a) ∨ f.pool.Carries P Q

/-- As long as results are taken, no message is lost. -/
theorem Step.carries (hstep : Step work capIn capOut spare taken f f') (htaken : taken)
    (hwork : ∀ a b, P a → work a b → Q b) (h : f.Carries P Q) : f'.Carries P Q := by
  cases hstep with
  | acquire hfeeder _ => rwa [Carries, hfeeder] at h
  | refuse hfeeder _ => rwa [Carries, hfeeder] at h
  | finish hfeeder => rwa [Carries, hfeeder] at h
  | @send a rest hfeeder _ _ =>
    rw [Carries, hfeeder] at h
    rcases h with ⟨a', ha', hP⟩ | h
    · rcases List.mem_cons.mp ha' with rfl | ha'
      · exact Or.inr (Pool.carries_put hP)
      · exact Or.inl ⟨a', ha', hP⟩
    · exact Or.inr h.put
  | lost hfeeder _ _ => rwa [Carries, hfeeder] at h
  | work hstep => exact h.imp id fun h => hstep.carries htaken hwork h

/-- The feeder has come as far in the list of the messages as it has taken slots, and what is in
the pool comes from those messages. -/
structure Tracks (work : α → β → Prop) (items : List α) (f : Front n α β) : Prop where
  at_items : f.feeder.At items f.admitted
  every : f.pool.Every (· ∈ items.take f.admitted) fun b => ∃ a ∈ items.take f.admitted, work a b

/-- A front that has just started tracks its items. -/
theorem tracks_start {slots : Slots} : (start n β items slots).Tracks work items :=
  ⟨rfl, Pool.every_start⟩

/-- Every step keeps track of the items, and none is taken back. -/
theorem Step.tracks (hstep : Step work capIn capOut spare taken f f')
    (h : f.Tracks work items) : f'.Tracks work items ∧ f.admitted ≤ f'.admitted := by
  obtain ⟨hat, hevery⟩ := h
  cases hstep with
  | acquire hfeeder hslot =>
    rw [hfeeder] at hat
    have hmem {a : α} (ha : a ∈ items.take f.admitted) : a ∈ items.take (f.admitted + 1) :=
      (List.take_prefix_take_left (Nat.le_succ _)).subset ha
    exact ⟨⟨⟨_, rfl, hat⟩, hevery.mono (fun _ => hmem) fun _ ⟨a, ha, hab⟩ => ⟨a, hmem ha, hab⟩⟩,
      Nat.le_succ _⟩
  | refuse hfeeder _ =>
    rw [hfeeder] at hat
    exact ⟨⟨⟨_, le_rfl, hat⟩, hevery⟩, le_rfl⟩
  | finish hfeeder =>
    rw [hfeeder] at hat
    exact ⟨⟨⟨_, le_rfl, hat⟩, hevery⟩, le_rfl⟩
  | @send a rest hfeeder _ _ =>
    rw [hfeeder] at hat
    obtain ⟨sent, hsent, hrest⟩ := hat
    have hget : items[sent]? = some a := by
      rw [← List.head?_drop, ← hrest, List.head?_cons]
    have hmem : a ∈ items.take f.admitted := by
      refine List.mem_iff_getElem?.mpr ⟨sent, ?_⟩
      rw [List.getElem?_take_of_lt (by omega), hget]
    refine ⟨⟨?_, hevery.put hmem⟩, le_rfl⟩
    simp only [Feeder.At]
    rw [hsent, ← List.drop_drop, ← hrest]
    rfl
  | lost hfeeder _ _ =>
    rw [hfeeder] at hat
    obtain ⟨sent, hsent, hrest⟩ := hat
    exact ⟨⟨⟨sent, hsent ▸ Nat.le_succ sent, hrest⟩, hevery⟩, le_rfl⟩
  | work hstep => exact ⟨⟨hat, hstep.every (fun a b ha hab => ⟨a, ha, hab⟩) hevery⟩, le_rfl⟩

/-- The feeder takes slots, and nobody else does. -/
theorem Step.counts (hstep : Step work capIn capOut spare taken f f')
    (h : f.slots.Counts f.admitted released) : f'.slots.Counts f'.admitted released := by
  cases hstep with
  | acquire _ hslot => exact h.acquire hslot
  | refuse _ _ => exact h
  | finish _ => exact h
  | send _ _ _ => exact h
  | lost _ _ _ => exact h
  | work _ => exact h

/-- No step of the front closes the slots. -/
theorem Step.open (hstep : Step work capIn capOut spare taken f f') (h : f.slots.Open) :
    f'.slots.Open := by
  cases hstep with
  | acquire _ hslot => exact (h.acquire hslot).2
  | refuse _ _ => exact h
  | finish _ => exact h
  | send _ _ _ => exact h
  | lost _ _ _ => exact h
  | work _ => exact h

/-- A semaphore that has been shut down lets no feeder through, and stays so. -/
theorem Step.shut (hstep : Step work capIn capOut spare taken f f')
    (h : ∀ g, f.slots = some g → g.shutdown = true) :
    ∀ g, f'.slots = some g → g.shutdown = true := by
  cases hstep with
  | acquire _ hslot =>
    intro g hg
    rcases Slots.acquire_some_true hslot with ⟨-, rfl⟩ | ⟨g', hg', hopen, -, -⟩
    · cases hg
    · rw [h g' hg'] at hopen
      cases hopen
  | refuse _ _ => exact h
  | finish _ => exact h
  | send _ _ _ => exact h
  | lost _ _ _ => exact h
  | work _ => exact h

/-- A worker stops only after the feeder, and the feeder only at the end of its messages. -/
structure Complete (f : Front n α β) : Prop where
  drained : f.pool.Drained (¬f.feeder.Stopped)
  rest_eq : ∀ rest, f.feeder = .stopped rest → rest = []

/-- A front that has just started still has all of its items to feed. -/
theorem complete_start {slots : Slots} : (start n β items slots).Complete :=
  ⟨Pool.drained_start, fun rest hrest => by cases hrest⟩

/-- While results are taken no step loses an item. -/
theorem Step.complete (hstep : Step work capIn capOut spare taken f f') (hn : 0 < n)
    (htaken : taken) (hopen : f.slots.Open) (h : f.Complete) : f'.Complete := by
  have hkeep {g : Front n α β} (hfed : ¬f.feeder.Stopped)
      (hworkers : g.pool.workers = f.pool.workers)
      (hrest : ∀ rest, g.feeder = .stopped rest → rest = []) : g.Complete :=
    ⟨fun i hi => absurd (hworkers ▸ hi) (h.drained.running hfed i), hrest⟩
  cases hstep with
  | acquire hf _ => exact hkeep (by simp [hf, Feeder.Stopped]) rfl (by simp)
  | refuse _ hslot => cases (hopen.acquire hslot).1
  | finish hf => exact hkeep (by simp [hf, Feeder.Stopped]) rfl (by simp)
  | send hf _ _ => exact hkeep (by simp [hf, Feeder.Stopped]) rfl (by simp)
  | lost hf _ hstopped =>
    have hfed : ¬f.feeder.Stopped := by simp [hf, Feeder.Stopped]
    exact absurd (hstopped ⟨0, hn⟩) (h.drained.running hfed _)
  | work hstep => exact ⟨hstep.drained htaken h.drained, h.rest_eq⟩

/-- As long as results are taken and messages have a receiver, a worker stops only after the
feeder. -/
theorem Step.drained (hstep : Step work capIn capOut spare taken f f') (hspare : spare)
    (htaken : taken) (h : f.pool.Drained (¬f.feeder.Stopped)) :
    f'.pool.Drained (¬f'.feeder.Stopped) := by
  cases hstep with
  | acquire hf _ => exact h.of_running (by simp [hf, Feeder.Stopped])
  | refuse hf _ => exact h.of_running (by simp [hf, Feeder.Stopped])
  | finish hf => exact h.of_running (by simp [hf, Feeder.Stopped])
  | send hf _ _ =>
    exact fun i hi => absurd hi (h.running (by simp [hf, Feeder.Stopped]) i)
  | lost _ hlost _ => exact absurd hspare hlost
  | work hstep => exact hstep.drained htaken h

/-- When the workers have stopped and all results are taken, no message is left. -/
theorem Complete.not_carries (h : f.Complete) (hn : 0 < n) (hstopped : f.pool.Stopped)
    (houtput : f.pool.output = []) : ¬f.Carries P Q := by
  have hfed := (h.drained ⟨0, hn⟩ (hstopped _)).2
  obtain ⟨rest, hrest⟩ := not_not.mp hfed
  rintro (⟨a, ha, -⟩ | hcarries)
  · rw [hrest, h.rest_eq rest hrest] at ha
    cases ha
  · exact h.drained.not_carries hn hstopped houtput hcarries

/-- The steps that are left, with `k` for each result that is taken. -/
def weight (k : ℕ) (f : Front n α β) : ℕ := f.feeder.weight (k + 2) + f.pool.weight k

/-- Every step of the front makes it lighter. -/
theorem Step.weight_lt (k : ℕ) (hstep : Step work capIn capOut spare taken f f') :
    f'.weight k < f.weight k := by
  cases hstep with
  | acquire hfeeder _ =>
    simp only [weight, hfeeder, Feeder.weight, List.length_cons, Nat.mul_succ]
    omega
  | refuse hfeeder _ =>
    simp only [weight, hfeeder, Feeder.weight]
    omega
  | finish hfeeder =>
    simp only [weight, hfeeder, Feeder.weight]
    omega
  | send hfeeder _ _ =>
    simp only [weight, hfeeder, Feeder.weight, Pool.weight_put]
    omega
  | lost hfeeder _ _ =>
    simp only [weight, hfeeder, Feeder.weight]
    omega
  | work hstep =>
    have := hstep.weight_lt k
    simp only [weight]
    omega

/-! ## When nobody takes the results -/

/-- What the front still puts behind its pool when no slot is given back. -/
def toCome (f : Front n α β) : ℕ := f.feeder.toCome f.slots + f.pool.load

/-- With a receiver for its messages and its results, the front keeps what is to come. -/
theorem Step.toCome_eq (hstep : Step work capIn capOut spare taken f f') (hspare : spare)
    (htaken : taken) : f'.toCome = f.toCome := by
  cases hstep with
  | acquire hfeeder hslot =>
    simp only [toCome, hfeeder, Feeder.toCome, List.length_cons, Slots.free_acquire hslot]
  | refuse hfeeder hslot =>
    obtain ⟨g, hg, hclosed⟩ := Slots.acquire_some_false hslot
    simp only [toCome, hfeeder, Feeder.toCome, hg, Slots.free, hclosed, if_true]
  | finish hfeeder => simp [toCome, hfeeder, Feeder.toCome]
  | send hfeeder _ _ =>
    simp only [toCome, hfeeder, Feeder.toCome, Pool.load_put]
    omega
  | lost _ hlost _ => exact absurd hspare hlost
  | work hstep => simp only [toCome, hstep.load_eq htaken]

/-- Closing the semaphore lets nothing more come. -/
theorem toCome_close_le : ({ f with slots := f.slots.close } : Front n α β).toCome ≤ f.toCome := by
  have hfree {k : ℕ} : f.slots.close.free k ≤ f.slots.free k := Slots.free_close_le
  simp only [toCome]
  cases f.feeder with
  | acquire rest => exact Nat.add_le_add_right hfree _
  | send a rest => exact Nat.add_le_add_right (Nat.add_le_add_left hfree _) _
  | stopped rest => exact le_rfl

/-- The results stay within the capacity of their channel. -/
theorem Step.output_le (hstep : Step work capIn capOut spare taken f f')
    (h : f.pool.output.length ≤ capOut) : f'.pool.output.length ≤ capOut := by
  cases hstep with
  | work hstep => exact hstep.output_le h
  | _ => exact h

/-- A worker holds a result, and there is no room for it. -/
def Stuck (capOut : ℕ) (f : Front n α β) : Prop :=
  capOut ≤ f.pool.output.length ∧ ∃ i b, f.pool.workers i = .send b

/-- A front that is stuck stays stuck. -/
theorem Step.stuck (hstep : Step work capIn capOut spare taken f f') (htaken : taken)
    (h : f.Stuck capOut) : f'.Stuck capOut := by
  obtain ⟨hfull, i, b, hw⟩ := h
  cases hstep with
  | work hstep =>
    exact ⟨hfull.trans hstep.le_output, i, b, hstep.keeps_send htaken hfull hw⟩
  | _ => exact ⟨hfull, i, b, hw⟩

/-- A front that is stuck has not finished. -/
theorem Stuck.not_finished (h : f.Stuck capOut) : ¬f.Finished := by
  rintro ⟨-, hstopped⟩
  obtain ⟨-, i, b, hw⟩ := h
  rw [hstopped i] at hw
  cases hw

/-- A front whose results all have room is not held up by them. -/
theorem step_or_finished (hwork : ∀ a, ∃ b, work a b) (hin : 0 < capIn)
    (hclosed : ∀ g, f.slots = some g → g.shutdown = true)
    (hdrained : f.pool.Stopped → f.feeder.Stopped) (hroom : f.toCome ≤ capOut) :
    (∃ f', Step work capIn capOut True True f f') ∨ f.Finished := by
  by_cases hlt : f.pool.output.length < capOut
  · have h : (∃ f', Step work capIn capOut True True f f') ∨ f.Finished ∨ f.Blocked :=
      step_or_waits hwork hin (fun _ => hlt) fun _ => hdrained
    rcases h with hstep | hfinished | hblocked
    · exact Or.inl hstep
    · exact Or.inr hfinished
    · obtain ⟨-, ⟨g, hg, hopen, -⟩, -⟩ := hblocked
      rw [hclosed g hg] at hopen
      cases hopen
  -- the channel is full: nothing else is to come
  rw [toCome] at hroom
  obtain ⟨-, hsend⟩ := Pool.load_le (p := f.pool) (by omega)
  have hload : f.pool.output.length ≤ f.pool.load := Nat.le_add_left _ _
  have hfeeder : f.feeder.toCome f.slots = 0 := by omega
  rcases f.pool.step_or_quiet hwork capOut (¬f.feeder.Stopped) True with ⟨pool, hpool⟩ | hquiet
  · exact Or.inl ⟨_, .work hpool⟩
  cases hf : f.feeder with
  | acquire rest =>
    cases rest with
    | nil => exact Or.inl ⟨_, .finish hf⟩
    | cons a rest =>
      cases hslots : f.slots with
      | none =>
        rw [hf, hslots] at hfeeder
        cases hfeeder
      | some g =>
        have hslot : f.slots.acquire = some (false, some g) := by
          simp [hslots, Slots.acquire, Semaphore.acquire, hclosed g hslots]
        exact Or.inl ⟨_, .refuse hf hslot⟩
  | send a rest =>
    rw [hf, Feeder.toCome] at hfeeder
    omega
  | stopped rest =>
    refine Or.inr ⟨⟨rest, hf⟩, fun i => ?_⟩
    rcases hquiet i with hi | ⟨-, -, hfed⟩ | ⟨⟨b, hi⟩, -⟩
    · exact hi
    · exact absurd ⟨rest, hf⟩ hfed
    · exact absurd hi (hsend i b)

/-- A front that cannot step, with more results to come than have room. -/
theorem stuck_of_toCome (hwork : ∀ a, ∃ b, work a b) (hn : 0 < n) (hin : 0 < capIn)
    (hend : ∀ f', ¬Step work capIn capOut True True f f')
    (hdrained : f.pool.Drained (¬f.feeder.Stopped)) (hle : f.pool.output.length ≤ capOut)
    (hmore : capOut < f.toCome) : f.Stuck capOut := by
  by_contra hstuck
  have hpool : ∀ pool, ¬f.pool.Step work capOut (¬f.feeder.Stopped) True pool := fun pool hpool =>
    hend _ (.work hpool)
  have hquiet := (f.pool.step_or_quiet hwork capOut (¬f.feeder.Stopped) True).resolve_left
    (not_exists.mpr hpool)
  have hsend : ∀ i b, f.pool.workers i ≠ .send b := fun i b hw => by
    rcases hquiet i with hi | ⟨hi, -⟩ | ⟨-, -, hfull⟩
    · simp [hw] at hi
    · simp [hw] at hi
    · exact hstuck ⟨hfull, i, b, hw⟩
  have hinput : f.pool.input = [] := by
    rcases hquiet ⟨0, hn⟩ with hi | ⟨-, hinput, -⟩ | ⟨⟨b, hi⟩, -⟩
    · exact (hdrained _ hi).1
    · exact hinput
    · exact absurd hi (hsend _ b)
  rw [toCome, Pool.load_eq hsend, hinput, List.length_nil, Nat.zero_add] at hmore
  suffices hfeeder : f.feeder.toCome f.slots = 0 by omega
  cases hf : f.feeder with
  | stopped rest => rfl
  | send a rest =>
    have hrunning : ¬f.pool.Stopped := fun hstopped =>
      hdrained.running (by simp [hf, Feeder.Stopped]) ⟨0, hn⟩ (hstopped _)
    exact absurd (.send hf (Or.inr hrunning) (by rw [hinput]; exact hin)) (hend _)
  | acquire rest =>
    cases rest with
    | nil => exact absurd (.finish hf) (hend _)
    | cons a rest =>
      cases hslot : f.slots.acquire with
      | none =>
        obtain ⟨g, hg, hopen, hfull⟩ := Slots.acquire_none hslot
        simp only [Feeder.toCome, hg, Slots.free, hopen, Bool.false_eq_true, if_false]
        omega
      | some r =>
        obtain ⟨flag, slots⟩ := r
        cases flag with
        | false => exact absurd (.refuse hf hslot) (hend _)
        | true => exact absurd (.acquire hf hslot) (hend _)

/-- The result of the first message may come before the feeder takes a slot for the next one. -/
theorem exists_first_result {slots slots' : Slots} {a : α} {rest : List α} {b : β} (hn : 0 < n)
    (hslot : slots.acquire = some (true, slots')) (hwork : work a b) (hin : 0 < capIn)
    (hout : 0 < capOut) (htaken : taken) :
    ∃ f, Reaches (Step work capIn capOut spare taken) (start n β (a :: rest) slots) f ∧
      f.pool.output = [b] := by
  have hrunning : ¬(Pool.start n α β).Stopped := fun h => by cases h ⟨0, hn⟩
  have hacquire : Reaches (Step work capIn capOut spare taken) (start n β (a :: rest) slots)
      ⟨.send a rest, slots', 1, Pool.start n α β⟩ := .tail .refl (.acquire rfl hslot)
  have hsend := hacquire.tail (.send rfl (Or.inr hrunning) hin)
  have htake := hsend.tail (.work (.take (i := ⟨0, hn⟩) rfl rfl hwork))
  have hholds : ((Pool.start n α β).setWorker ⟨0, hn⟩ (.send b)).workers ⟨0, hn⟩ = .send b := by
    rw [Pool.setWorker_workers, Function.update_self]
  have hgive := htake.tail (.work (.give hholds htaken hout))
  exact ⟨_, hgive, rfl⟩

end Front

end Threads
