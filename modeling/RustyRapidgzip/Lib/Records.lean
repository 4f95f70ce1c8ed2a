import Mathlib.Data.List.Basic
import Mathlib.Order.Lattice
import Mathlib.Tactic.Common

/-!
# The records of a list

The entries that are greater than all before them. They are in strictly increasing order, and
in a list that is in order already they are all of its entries, each once.
-/

namespace Records

variable {α : Type*} [LinearOrder α]

/-- The entries that are greater than `last` and than all before them. -/
def records (last : α) : List α → List α
  | [] => []
  | b :: found => if last < b then b :: records b found else records last found

variable {last b : α} {found : List α}

/-- A record stands behind smaller entries only. -/
theorem mem_records : b ∈ records last found ↔
    last < b ∧ ∃ before after, found = before ++ b :: after ∧ ∀ a ∈ before, a < b := by
  induction found generalizing last with
  | nil => simp [records]
  | cons a found ih =>
    constructor
    · intro hb
      rw [records] at hb
      split at hb
      case isTrue hlt =>
        rcases List.mem_cons.mp hb with rfl | hb
        · exact ⟨hlt, [], found, rfl, by simp⟩
        · obtain ⟨hab, before, after, rfl, hbefore⟩ := ih.mp hb
          refine ⟨hlt.trans hab, a :: before, after, rfl, ?_⟩
          exact List.forall_mem_cons.mpr ⟨hab, hbefore⟩
      case isFalse hle =>
        obtain ⟨hlb, before, after, rfl, hbefore⟩ := ih.mp hb
        refine ⟨hlb, a :: before, after, rfl, ?_⟩
        exact List.forall_mem_cons.mpr ⟨(not_lt.mp hle).trans_lt hlb, hbefore⟩
    · rintro ⟨hlb, before, after, hsplit, hbefore⟩
      rw [records]
      cases before with
      | nil =>
        cases hsplit
        rw [if_pos hlb]
        exact List.mem_cons_self
      | cons a' before =>
        cases hsplit
        rw [List.forall_mem_cons] at hbefore
        split
        · exact List.mem_cons_of_mem _ (ih.mpr ⟨hbefore.1, before, after, rfl, hbefore.2⟩)
        · exact ih.mpr ⟨hlb, before, after, rfl, hbefore.2⟩

/-- A record is greater than what came before. -/
theorem lt_of_mem_records (h : b ∈ records last found) : last < b := (mem_records.mp h).1

/-- Every record was found. -/
theorem mem_of_mem_records (h : b ∈ records last found) : b ∈ found := by
  obtain ⟨-, before, after, rfl, -⟩ := mem_records.mp h
  exact List.mem_append_right before List.mem_cons_self

/-- The records are in strictly increasing order. -/
theorem pairwise_records : (last :: records last found).Pairwise (· < ·) := by
  induction found generalizing last with
  | nil => exact List.pairwise_singleton _ _
  | cons a found ih =>
    rw [records]
    split
    case isTrue hlt =>
      refine List.pairwise_cons.mpr ⟨fun b hb => ?_, ih⟩
      rcases List.mem_cons.mp hb with rfl | hb
      · exact hlt
      · exact hlt.trans (lt_of_mem_records hb)
    case isFalse _ => exact ih

/-- No entry is greater than all records. -/
theorem exists_le_records (h : b ∈ found) : ∃ r ∈ last :: records last found, b ≤ r := by
  induction found generalizing last with
  | nil => cases h
  | cons a found ih =>
    rw [records]
    rcases List.mem_cons.mp h with rfl | h
    · split
      · exact ⟨b, by simp, le_rfl⟩
      case isFalse hle => exact ⟨last, List.mem_cons_self, not_lt.mp hle⟩
    · split
      · obtain ⟨r, hr, hle⟩ := @ih a h
        exact ⟨r, List.mem_cons_of_mem _ hr, hle⟩
      · exact ih h

/-- In a list in order nothing is left out. -/
theorem mem_records_of_pairwise (hsorted : (last :: found).Pairwise (· ≤ ·)) (hlast : last < b) :
    b ∈ records last found ↔ b ∈ found := by
  refine ⟨mem_of_mem_records, fun hb => ?_⟩
  induction found generalizing last with
  | nil => cases hb
  | cons a found ih =>
    rw [List.pairwise_cons, List.forall_mem_cons] at hsorted
    obtain ⟨⟨hle, -⟩, hrest⟩ := hsorted
    rw [records]
    split
    case isTrue _ =>
      by_cases hab : a = b
      · rw [hab]
        exact List.mem_cons_self
      · have hmem := (List.mem_cons.mp hb).resolve_left (Ne.symm hab)
        have hlt := lt_of_le_of_ne ((List.pairwise_cons.mp hrest).1 b hmem) hab
        exact List.mem_cons_of_mem _ (ih hrest hlt hmem)
    case isFalse hnot =>
      have heq : last = a := le_antisymm hle (not_lt.mp hnot)
      rcases List.mem_cons.mp hb with rfl | hb
      · exact absurd hlast hnot
      · rw [heq] at hlast ⊢
        exact ih hrest hlast hb

end Records
