import Mathlib.Data.List.Basic
import Mathlib.Tactic.Common

/-!
# Work that is dealt out

A list of tasks is dealt to workers in turn. Each worker does its share, and the results are
written to their places one after the other. With any number of workers this is what one worker
makes of the tasks in order.
-/

namespace Scatter

variable {α β : Type*}

/-- `(start..stop).step_by(step)`. -/
def stepBy (start stop step : ℕ) : List ℕ :=
  List.range' start ((stop - start + (step - 1)) / step) step

/-- The shares of the workers. -/
def deal (workers count : ℕ) : List (List ℕ) :=
  (List.range workers).map fun i => stepBy i count workers

/-- What a worker makes of its share, if it has no index out of range. -/
def share (f : α → β) (tasks : List α) (indices : List ℕ) : Option (List (ℕ × β)) :=
  indices.mapM fun i => tasks[i]?.map fun t => (i, f t)

/-- `out[i] = b`, if the index is in range. -/
def write (out : List β) (w : ℕ × β) : Option (List β) :=
  if w.1 < out.length then some (out.set w.1 w.2) else none

/-- The tasks are dealt out, and the results are written over empty places. -/
def scatter (empty : β) (f : α → β) (tasks : List α) (workers : ℕ) : Option (List β) := do
  let shares ← (deal workers tasks.length).mapM (share f tasks)
  shares.flatten.foldlM write (List.replicate tasks.length empty)

section Deal

variable {start stop step i workers count : ℕ}

/-- The numbers that are stepped through are those of one remainder. -/
theorem mem_stepBy (hstep : 0 < step) :
    i ∈ stepBy start stop step ↔ start ≤ i ∧ i < stop ∧ step ∣ i - start := by
  rw [stepBy, List.mem_range']
  constructor
  · rintro ⟨k, hk, rfl⟩
    have hmul : (k + 1) * step ≤ stop - start + (step - 1) :=
      (Nat.le_div_iff_mul_le hstep).mp hk
    rw [Nat.succ_mul, Nat.mul_comm] at hmul
    refine ⟨Nat.le_add_right _ _, by omega, ?_⟩
    rw [Nat.add_sub_cancel_left]
    exact Nat.dvd_mul_right _ _
  · rintro ⟨hle, hlt, k, hk⟩
    refine ⟨k, ?_, by omega⟩
    apply (Nat.le_div_iff_mul_le hstep).mpr
    rw [Nat.succ_mul, Nat.mul_comm, ← hk]
    omega

/-- Every index is dealt to a worker. -/
theorem mem_flatten_deal (hworkers : 0 < workers) :
    i ∈ (deal workers count).flatten ↔ i < count := by
  simp only [deal, List.mem_flatten, List.mem_map, List.mem_range]
  constructor
  · rintro ⟨_, ⟨w, -, rfl⟩, hi⟩
    exact ((mem_stepBy hworkers).mp hi).2.1
  · intro hi
    refine ⟨_, ⟨i % workers, Nat.mod_lt i hworkers, rfl⟩, ?_⟩
    exact (mem_stepBy hworkers).mpr ⟨Nat.mod_le i workers, hi, Nat.dvd_sub_mod i⟩

end Deal

/-- A map whose results are all there. -/
theorem mapM_eq_some {γ : Type*} {g : α → Option γ} {h : α → γ} {l : List α}
    (heq : ∀ a ∈ l, g a = some (h a)) : l.mapM g = some (l.map h) := by
  induction l with
  | nil => rfl
  | cons a l ih =>
    rw [List.forall_mem_cons] at heq
    simp [heq.1, ih heq.2]

/-- Writes that agree with a list of values, and reach all places that do not have them yet, give
the list. The order of the writes does not matter. -/
theorem foldlM_write {values out : List β} {writes : List (ℕ × β)}
    (hlength : out.length = values.length) (hagree : ∀ w ∈ writes, values[w.1]? = some w.2)
    (hreach : ∀ i < values.length, out[i]? = values[i]? ∨ ∃ w ∈ writes, w.1 = i) :
    writes.foldlM write out = some values := by
  induction writes generalizing out with
  | nil =>
    have hsame : out = values := by
      apply List.ext_getElem? fun i => ?_
      by_cases hi : i < values.length
      · simpa using hreach i hi
      · rw [List.getElem?_eq_none (by omega), List.getElem?_eq_none (by omega)]
    rw [hsame]
    rfl
  | cons w writes ih =>
    rw [List.forall_mem_cons] at hagree
    obtain ⟨hi, -⟩ := List.getElem?_eq_some_iff.mp hagree.1
    have hwrite : write out w = some (out.set w.1 w.2) := if_pos (hlength ▸ hi)
    rw [List.foldlM_cons, hwrite]
    apply ih (by rw [List.length_set, hlength]) hagree.2
    intro i hlt
    by_cases hw : w.1 = i
    · left
      rw [← hw, List.getElem?_set_self (hlength ▸ hi), hagree.1]
    · rw [List.getElem?_set_ne hw]
      refine (hreach i hlt).imp_right ?_
      rintro ⟨w', hw', rfl⟩
      exact ⟨w', (List.mem_cons.mp hw').resolve_left fun h => hw (by rw [h]), rfl⟩

/-- Dealing the tasks out gives what each of them gives. -/
theorem scatter_eq (empty : β) (f : α → β) (tasks : List α) {workers : ℕ}
    (hworkers : 0 < workers) : scatter empty f tasks workers = some (tasks.map f) := by
  have hget {i : ℕ} (hi : i < tasks.length) :
      (tasks.map f)[i]? = some ((tasks.map f).getD i empty) := by
    rw [List.getD_eq_getElem?_getD, List.getElem?_eq_getElem (by rwa [List.length_map])]
    rfl
  have hindex {i : ℕ} (hi : i ∈ (deal workers tasks.length).flatten) : i < tasks.length :=
    (mem_flatten_deal hworkers).mp hi
  have hshare : ∀ indices ∈ deal workers tasks.length,
      share f tasks indices = some (indices.map fun i => (i, (tasks.map f).getD i empty)) := by
    intro indices hindices
    apply mapM_eq_some
    intro i hi
    have hvalue := hget (hindex (List.mem_flatten.mpr ⟨indices, hindices, hi⟩))
    rw [List.getElem?_map] at hvalue
    obtain ⟨t, ht, heq⟩ := Option.map_eq_some_iff.mp hvalue
    rw [ht, ← heq]
    rfl
  rw [scatter, mapM_eq_some hshare, Option.bind_eq_bind, Option.bind_some, ← List.map_flatten]
  apply foldlM_write
  · rw [List.length_replicate, List.length_map]
  · intro w hw
    obtain ⟨i, hi, rfl⟩ := List.mem_map.mp hw
    exact hget (hindex hi)
  · intro i hi
    right
    rw [List.length_map] at hi
    exact ⟨_, List.mem_map_of_mem ((mem_flatten_deal hworkers).mpr hi), rfl⟩

end Scatter
