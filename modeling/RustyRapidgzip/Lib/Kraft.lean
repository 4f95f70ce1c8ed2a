import RustyRapidgzip.Lib.Canonical
import Mathlib.Data.Rat.Cast.Order
import Mathlib.Algebra.Order.Field.Rat
import Mathlib.Algebra.BigOperators.Group.List.Basic
import Mathlib.Tactic.FieldSimp
import Mathlib.Tactic.Ring

/-!
# Complete codes

The Kraft sum of code lengths is the share of all words that start with a codeword. A code of
at least two symbols is complete when its sum is one: then every word starts with a codeword.
The number of words of the greatest length that start with one measures the same sum.
-/

namespace Canonical

/-- The number of symbols that have a codeword. -/
def used (lens : List ℕ) : ℕ := lens.countP (0 < ·)

/-- The Kraft sum of the codewords. -/
def kraftSum (lens : List ℕ) : ℚ := ((lens.filter (0 < ·)).map (fun l => (1 / 2 : ℚ) ^ l)).sum

/-- A complete code, or one of fewer than two symbols. -/
def Complete (lens : List ℕ) : Prop := used lens < 2 ∨ kraftSum lens = 1

/-- Whether a code is complete can be decided. -/
instance (lens : List ℕ) : Decidable (Complete lens) := inferInstanceAs (Decidable (_ ∨ _))

/-- One codeword fills the words of a length that start with it. -/
theorem filled_cons (l : ℕ) (lens : List ℕ) (n : ℕ) :
    filled (l :: lens) n = filled lens n + if 0 < l ∧ l ≤ n then 2 ^ (n - l) else 0 := by
  induction n with
  | zero =>
    have hno : ¬(0 < l ∧ l ≤ 0) := by omega
    rw [if_neg hno, filled, filled]
  | succ n ih =>
    rw [filled, filled, ih, List.count_cons]
    simp only [beq_iff_eq]
    by_cases hle : 0 < l ∧ l ≤ n
    · have hne : ¬l = n + 1 := by omega
      have hle' : 0 < l ∧ l ≤ n + 1 := by omega
      have hsub : n + 1 - l = n - l + 1 := by omega
      rw [if_pos hle, if_neg hne, if_pos hle', hsub, pow_succ]
      omega
    · by_cases heq : l = n + 1
      · have hle' : 0 < l ∧ l ≤ n + 1 := by omega
        have hsub : n + 1 - l = 0 := by omega
        rw [if_neg hle, if_pos heq, if_pos hle', hsub, pow_zero]
        omega
      · have hno : ¬(0 < l ∧ l ≤ n + 1) := by omega
        rw [if_neg hle, if_neg heq, if_neg hno]
        omega

/-- The words of the greatest length measure the Kraft sum. -/
theorem kraftSum_eq {lens : List ℕ} {n : ℕ} (hlens : ∀ l ∈ lens, l ≤ n) :
    kraftSum lens = filled lens n / 2 ^ n := by
  induction lens with
  | nil =>
    have hnone : filled [] n = 0 := by
      clear hlens
      induction n with
      | zero => rfl
      | succ n ih => rw [filled, ih, List.count_nil]
    simp [kraftSum, hnone]
  | cons l lens ih =>
    have hle := hlens l List.mem_cons_self
    have hrest := ih fun k hk => hlens k (List.mem_cons_of_mem l hk)
    unfold kraftSum at hrest ⊢
    rw [filled_cons]
    by_cases hpos : 0 < l
    · have hpow : (1 / 2 : ℚ) ^ l = 2 ^ (n - l) / 2 ^ n := by
        rw [pow_sub₀ (2 : ℚ) two_ne_zero hle, one_div, inv_pow]
        field_simp
      rw [List.filter_cons_of_pos (by simpa using hpos), List.map_cons, List.sum_cons, hrest, hpow,
        if_pos ⟨hpos, hle⟩]
      push_cast
      ring
    · rw [List.filter_cons_of_neg (by simpa using hpos), hrest, if_neg (fun h => hpos h.1),
        Nat.add_zero]

/-- A code is complete when its codewords fill all the words of the greatest length. -/
theorem kraftSum_eq_one_iff {lens : List ℕ} {n : ℕ} (hlens : ∀ l ∈ lens, l ≤ n) :
    kraftSum lens = 1 ↔ filled lens n = 2 ^ n := by
  have hpow : (2 : ℚ) ^ n ≠ 0 := pow_ne_zero n two_ne_zero
  rw [kraftSum_eq hlens, div_eq_one_iff_eq hpow]
  exact_mod_cast Iff.rfl

/-- Lengths satisfy the Kraft inequality when their Kraft sum is at most one. -/
theorem kraftSum_le_one_iff {lens : List ℕ} {n : ℕ} (hlens : ∀ l ∈ lens, l ≤ n) :
    kraftSum lens ≤ 1 ↔ Kraft lens n := by
  have hpow : (0 : ℚ) < 2 ^ n := pow_pos two_pos n
  rw [kraftSum_eq hlens, div_le_one₀ hpow, Kraft]
  exact_mod_cast Iff.rfl

/-- The symbols that have a codeword, counted length by length. -/
theorem sum_count {lens : List ℕ} {n : ℕ} (hlens : ∀ l ∈ lens, l ≤ n) :
    ((List.range' 1 n).map lens.count).sum = used lens := by
  have hbelow (k : ℕ) : ((List.range' 1 k).map lens.count).sum =
      lens.countP (fun l => 0 < l ∧ l ≤ k) := by
    clear hlens
    induction k with
    | zero =>
      rw [List.range'_zero, List.map_nil, List.sum_nil, eq_comm, List.countP_eq_zero]
      intro l _ hl
      have hl' := of_decide_eq_true hl
      omega
    | succ k ih =>
      rw [List.range'_concat, List.map_append, List.sum_append, ih]
      simp only [List.map_cons, List.map_nil, List.sum_cons, List.sum_nil]
      clear ih
      induction lens with
      | nil => rfl
      | cons l lens ih =>
        simp only [List.countP_cons, List.count_cons, beq_iff_eq, decide_eq_true_eq] at ih ⊢
        split_ifs <;> omega
  rw [hbelow, used]
  refine List.countP_congr fun l hl => ?_
  have hle := hlens l hl
  simp [hle]

end Canonical
