import RustyRapidgzip.Lib.Front
import RustyRapidgzip.Lib.Transition

/-!
# The ledger of a semaphore

Numbered messages take a slot in order, and leave in order. When a slot is given back for each
message that leaves, and for at most one more, the semaphore counts the messages that have
taken a slot and not given it back, and the ones that have not left are numbered without a gap.
-/

namespace Threads

/-- A message takes a slot or leaves, or a slot is given back. -/
inductive SlotEvent where
  | acquire (id : ℕ)
  | deliver (id : ℕ)
  | release
  deriving DecidableEq, Repr

namespace SlotEvent

/-- The messages that have taken a slot. -/
def admitted (es : List SlotEvent) : List ℕ :=
  es.filterMap fun
    | .acquire id => some id
    | _ => none

/-- The messages that have left. -/
def delivered (es : List SlotEvent) : List ℕ :=
  es.filterMap fun
    | .deliver id => some id
    | _ => none

/-- How many slots were given back. -/
def released (es : List SlotEvent) : ℕ := es.count .release

/-- The messages that have taken a slot and not left. -/
def outstanding (es : List SlotEvent) : List ℕ :=
  (admitted es).filter fun id => id ∉ delivered es

variable {es es' : List SlotEvent}

/-- Events that follow admit behind the ones before them. -/
@[simp] theorem admitted_append : admitted (es ++ es') = admitted es ++ admitted es' :=
  List.filterMap_append

/-- Events that follow deliver behind the ones before them. -/
@[simp] theorem delivered_append : delivered (es ++ es') = delivered es ++ delivered es' :=
  List.filterMap_append

/-- Events that follow add to what was released. -/
@[simp] theorem released_append : released (es ++ es') = released es + released es' :=
  List.count_append

end SlotEvent

open SlotEvent

/-- The semaphore counts the messages `0, …, taken - 1`, of which those below `nextId` have
left. -/
structure Ledger (max nextId taken : ℕ) (slots : Slots) (es : List SlotEvent) : Prop where
  slots_eq : ∃ g, slots = some g ∧ g.max = max ∧ g.inFlight + released es = taken ∧
    g.inFlight ≤ max
  admitted_eq : admitted es = List.range taken
  delivered_eq : delivered es = List.range nextId
  le : nextId ≤ taken

/-- A slot that was in use is given back: the count goes down by one. -/
def Slots.GivesBack (slots slots' : Slots) : Prop :=
  ∃ g g', slots = some g ∧ slots' = some g' ∧ g'.inFlight + 1 = g.inFlight

section Ledger

variable {max nextId taken : ℕ} {slots slots' : Slots} {es : List SlotEvent}

/-- The books are empty at the start. -/
theorem ledger_start {max : ℕ} : Ledger max 0 0 (some ⟨0, max, false⟩) [] :=
  ⟨⟨_, rfl, rfl, rfl, Nat.zero_le _⟩, rfl, rfl, le_rfl⟩

/-- The next slot is booked under the next number. -/
theorem Ledger.acquire (h : Ledger max nextId taken slots es)
    (hslot : slots.acquire = some (true, slots')) :
    Ledger max nextId (taken + 1) slots' (es ++ [.acquire taken]) := by
  obtain ⟨⟨g, rfl, hmax, hcount, -⟩, hadmitted, hdelivered, hle⟩ := h
  rcases Slots.acquire_some_true hslot with ⟨hnone, -⟩ | ⟨g', hg', -, hlt, rfl⟩
  · cases hnone
  cases hg'
  refine ⟨⟨_, rfl, hmax, ?_, by simp only; omega⟩, ?_, ?_, by omega⟩
  · have hnone : released [.acquire taken] = 0 := rfl
    rw [released_append, hnone]
    simp only
    omega
  · rw [admitted_append, hadmitted, List.range_succ]
    rfl
  · rw [delivered_append, hdelivered]
    exact List.append_nil _

/-- Giving back a slot, of which at least one is in use. -/
theorem Ledger.release (h : Ledger max nextId taken slots es) (hlt : released es < taken) :
    Ledger max nextId taken slots.release (es ++ [.release]) ∧ slots.GivesBack slots.release := by
  obtain ⟨⟨g, rfl, hmax, hcount, hle⟩, hadmitted, hdelivered, hnext⟩ := h
  refine ⟨⟨⟨g.release, rfl, hmax, ?_, ?_⟩, ?_, ?_, hnext⟩, g, g.release, rfl, rfl, ?_⟩
  · have hone : released [.release] = 1 := rfl
    rw [released_append, hone]
    simp only [Semaphore.release]
    omega
  · simp only [Semaphore.release]
    omega
  · rw [admitted_append, hadmitted]
    exact List.append_nil _
  · rw [delivered_append, hdelivered]
    exact List.append_nil _
  · simp only [Semaphore.release]
    omega

/-- The next message leaves. -/
theorem Ledger.deliver (h : Ledger max nextId taken slots es) (hlt : nextId < taken) :
    Ledger max (nextId + 1) taken slots (es ++ [.deliver nextId]) := by
  obtain ⟨⟨g, rfl, hmax, hcount, hle⟩, hadmitted, hdelivered, -⟩ := h
  refine ⟨⟨g, rfl, hmax, ?_, hle⟩, ?_, ?_, hlt⟩
  · rw [released_append]
    exact hcount
  · rw [admitted_append, hadmitted]
    exact List.append_nil _
  · rw [delivered_append, hdelivered, List.range_succ]
    rfl

/-- Closing the slots books nothing. -/
theorem Ledger.close (h : Ledger max nextId taken slots es) :
    Ledger max nextId taken slots.close es := by
  obtain ⟨⟨g, rfl, hrest⟩, hadmitted, hdelivered, hle⟩ := h
  exact ⟨⟨g.close, rfl, hrest⟩, hadmitted, hdelivered, hle⟩

/-- What is in flight and what was released are what was admitted, and the limit holds. -/
theorem Ledger.in_flight (h : Ledger max nextId taken slots es) :
    ∃ g, slots = some g ∧ g.max = max ∧
      g.inFlight + released es = (admitted es).length ∧ g.inFlight ≤ max := by
  rw [h.admitted_eq, List.length_range]
  exact h.slots_eq

/-- The messages that have not left are numbered from the next one on. -/
theorem Ledger.outstanding_eq (h : Ledger max nextId taken slots es) :
    outstanding es = List.range' nextId ((admitted es).length - nextId) := by
  have hsplit : List.range taken = List.range nextId ++ List.range' nextId (taken - nextId) := by
    have happend := List.range'_append_1 (s := 0) (m := nextId) (n := taken - nextId)
    rw [Nat.zero_add, Nat.add_sub_cancel' h.le] at happend
    rw [List.range_eq_range', List.range_eq_range', happend]
  have hleft : (List.range nextId).filter (fun id => id ∉ List.range nextId) = [] :=
    List.filter_eq_nil_iff.mpr (by simp)
  have hrest : (List.range' nextId (taken - nextId)).filter (fun id => id ∉ List.range nextId) =
      List.range' nextId (taken - nextId) := by
    refine List.filter_eq_self.mpr fun id hmem => decide_eq_true ?_
    have hge := (List.mem_range'_1.mp hmem).1
    rw [List.mem_range]
    omega
  rw [outstanding, h.admitted_eq, h.delivered_eq, List.length_range, hsplit, List.filter_append,
    hleft, hrest, List.nil_append]

end Ledger

/-- The messages that a feeder takes a slot for in a step. -/
def Feeder.admits {α : Type*} (f f' : Feeder α) : List α :=
  match f, f' with
  | .acquire (a :: _), .send _ _ => [a]
  | _, _ => []

/-- A feeder that does not move admits nothing. -/
@[simp] theorem Feeder.admits_self {α : Type*} (f : Feeder α) : f.admits f = [] := by
  cases f with
  | acquire rest => cases rest <;> rfl
  | _ => rfl

namespace Front

variable {n : ℕ} {α β : Type*} {f f' : Front n α β} {work : α → β → Prop} {capIn capOut : ℕ}
  {spare taken : Prop} {items : List α} {max nextId : ℕ} {es : List SlotEvent}

/-- A step of the front enters the messages that it takes a slot for. -/
theorem Step.ledger (hstep : Step work capIn capOut spare taken f f') (id : α → ℕ)
    (hid : ∀ i a, items[i]? = some a → id a = i) (htracks : f.Tracks work items)
    (h : Ledger max nextId f.admitted f.slots es) :
    Ledger max nextId f'.admitted f'.slots
      (es ++ (f.feeder.admits f'.feeder).map fun a => .acquire (id a)) := by
  have hsame (hnone : f.feeder.admits f'.feeder = [])
      (hf : Ledger max nextId f'.admitted f'.slots es) : Ledger max nextId f'.admitted f'.slots
        (es ++ (f.feeder.admits f'.feeder).map fun a => .acquire (id a)) := by
    rwa [hnone, List.map_nil, List.append_nil]
  cases hstep with
  | @acquire a rest slots hfeeder hslot =>
    have hat := htracks.at_items
    rw [hfeeder, Feeder.At] at hat
    have hget : items[f.admitted]? = some a := by
      rw [← List.head?_drop, ← hat, List.head?_cons]
    simp only [hfeeder, Feeder.admits, List.map_cons, List.map_nil, hid _ _ hget]
    exact h.acquire hslot
  | refuse hfeeder _ => exact hsame (by rw [hfeeder]; rfl) h
  | finish hfeeder => exact hsame (by rw [hfeeder]; rfl) h
  | send hfeeder _ _ => exact hsame (by rw [hfeeder]; rfl) h
  | lost hfeeder _ _ => exact hsame (by rw [hfeeder]; rfl) h
  | work _ => exact hsame (Feeder.admits_self _) h

end Front

end Threads
