import Mathlib.Data.List.Basic

/-!
# Reordering by number

Messages that arrive out of order wait in a map under their numbers, until the one that is
next in order is there.
-/

namespace Reorder

variable {α : Type*} (key : α → ℕ)

/-- Insert a message under its number, in place of an older one. -/
def insert (a : α) (m : List α) : List α := a :: m.filter fun b => key b ≠ key a

/-- Remove the message with a number. -/
def remove (i : ℕ) (m : List α) : Option (α × List α) :=
  (m.find? fun a => key a = i).map fun a => (a, m.filter fun b => key b ≠ i)

variable {key} {a b : α} {i j : ℕ} {m m' : List α}

/-- What is in the buffer after an insertion is the new element or was there before. -/
theorem mem_of_mem_insert (h : b ∈ insert key a m) : b = a ∨ b ∈ m := by
  rcases List.mem_cons.mp h with rfl | h
  · exact Or.inl rfl
  · exact Or.inr (List.mem_of_mem_filter h)

/-- A number that is there stays there. -/
theorem exists_mem_insert (h : ∃ b ∈ m, key b = i) : ∃ b ∈ insert key a m, key b = i := by
  obtain ⟨b, hb, rfl⟩ := h
  by_cases hkey : key b = key a
  · exact ⟨a, List.mem_cons_self, hkey.symm⟩
  · exact ⟨b, List.mem_cons_of_mem _ (List.mem_filter.mpr ⟨hb, by simpa using hkey⟩), rfl⟩

/-- The new element is in the buffer. -/
theorem mem_insert_self : a ∈ insert key a m := List.mem_cons_self

/-- An insertion adds at most one element. -/
theorem length_insert_le : (insert key a m).length ≤ m.length + 1 :=
  Nat.succ_le_succ (List.length_filter_le ..)

/-- Where nothing is removed, no element has the key. -/
theorem remove_eq_none (h : remove key i m = none) : ∀ a ∈ m, key a ≠ i := by
  rw [remove, Option.map_eq_none_iff, List.find?_eq_none] at h
  simpa using h

/-- What is removed was in the buffer, under its key. -/
theorem remove_eq_some (h : remove key i m = some (a, m')) : a ∈ m ∧ key a = i := by
  obtain ⟨b, hfind, hb⟩ := Option.map_eq_some_iff.mp h
  cases hb
  exact ⟨List.mem_of_find?_eq_some hfind, by simpa using List.find?_some hfind⟩

/-- What is left was in the buffer. -/
theorem mem_of_mem_remove (h : remove key i m = some (a, m')) (hb : b ∈ m') : b ∈ m := by
  obtain ⟨_, -, heq⟩ := Option.map_eq_some_iff.mp h
  cases heq
  exact List.mem_of_mem_filter hb

/-- Other numbers stay there. -/
theorem exists_mem_remove (h : remove key i m = some (a, m')) (hj : j ≠ i)
    (hmem : ∃ b ∈ m, key b = j) : ∃ b ∈ m', key b = j := by
  obtain ⟨b, hb, rfl⟩ := hmem
  obtain ⟨_, -, heq⟩ := Option.map_eq_some_iff.mp h
  cases heq
  exact ⟨b, List.mem_filter.mpr ⟨hb, by simpa using hj⟩, rfl⟩

/-- A removal makes the buffer shorter. -/
theorem length_remove_lt (h : remove key i m = some (a, m')) : m'.length < m.length := by
  obtain ⟨ha, hkey⟩ := remove_eq_some h
  obtain ⟨_, -, heq⟩ := Option.map_eq_some_iff.mp h
  cases heq
  exact List.length_filter_lt_length_iff_exists.mpr ⟨a, ha, by simpa using hkey⟩

end Reorder
