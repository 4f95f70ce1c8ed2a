import RustyRapidgzip.Lib.Bits
import Mathlib.Data.List.Basic

/-!
# Loops over the set bits of a mask

A loop takes the lowest set bit of a mask and clears it, until no bit is set. It visits the set
bits in ascending order, each of them once.
-/

namespace Mask

open LsbBits

/-- The zeros below the lowest set bit of a word. -/
def trailingZeros : ℕ → ℕ → ℕ
  | 0, _ => 0
  | width + 1, m => if m.testBit 0 then 0 else trailingZeros width (m >>> 1) + 1

/-- The bits that the loop visits. -/
def setBits (width : ℕ) : ℕ → ℕ → List ℕ
  | 0, _ => []
  | rounds + 1, m =>
    if m = 0 then [] else trailingZeros width m :: setBits width rounds (m &&& (m - 1))

/-- The mask of two lists of bits. -/
theorem ofLsb_zipWith_and (as bs : List Bool) :
    ofLsb (List.zipWith (· && ·) as bs) = ofLsb as &&& ofLsb bs := by
  apply Nat.eq_of_testBit_eq
  intro i
  rw [Nat.testBit_and, testBit_ofLsb, testBit_ofLsb, testBit_ofLsb, List.getD_eq_getElem?_getD,
    List.getD_eq_getElem?_getD, List.getD_eq_getElem?_getD, List.getElem?_zipWith]
  cases as[i]? with
  | none => rfl
  | some a =>
    cases bs[i]? with
    | none => exact (Bool.and_false a).symm
    | some b => rfl

/-- Doubling adds a zero at the end. -/
theorem trailingZeros_double (width m : ℕ) :
    trailingZeros (width + 1) (2 * m) = trailingZeros width m + 1 := by
  have hbit : (2 * m).testBit 0 = false := by simp
  have hshift : (2 * m) >>> 1 = m := by rw [Nat.shiftRight_one]; omega
  rw [trailingZeros, hbit, hshift, if_neg Bool.false_ne_true]

/-- Clearing the lowest bit of an even mask. -/
theorem clear_double (m : ℕ) : 2 * m &&& (2 * m - 1) = 2 * (m &&& (m - 1)) := by
  cases m with
  | zero => rfl
  | succ m =>
    apply Nat.eq_of_testBit_eq
    intro i
    rw [Nat.add_sub_cancel, show 2 * (m + 1) - 1 = 2 * m + 1 by omega, Nat.testBit_and]
    cases i with
    | zero => simp
    | succ i =>
      have hodd : (2 * m + 1) / 2 = m := by omega
      have heven (a : ℕ) : 2 * a / 2 = a := by omega
      rw [Nat.testBit_succ, Nat.testBit_succ, Nat.testBit_succ, heven, heven, hodd,
        Nat.testBit_and]

/-- Clearing the lowest bit of an odd mask. -/
theorem clear_odd (m : ℕ) : 1 + 2 * m &&& (1 + 2 * m - 1) = 2 * m := by
  apply Nat.eq_of_testBit_eq
  intro i
  rw [Nat.add_sub_cancel_left, Nat.testBit_and]
  cases i with
  | zero => simp
  | succ i =>
    have hodd : (1 + 2 * m) / 2 = m := by omega
    have heven : 2 * m / 2 = m := by omega
    rw [Nat.testBit_succ, Nat.testBit_succ, heven, hodd, Bool.and_self]

/-- No bit of zero is set. -/
theorem setBits_zero (width rounds : ℕ) : setBits width rounds 0 = [] := by
  cases rounds with
  | zero => rfl
  | succ rounds => rw [setBits, if_pos rfl]

/-- The bits of an even mask are those of its half, one place up. -/
theorem setBits_double (width rounds m : ℕ) :
    setBits (width + 1) rounds (2 * m) = (setBits width rounds m).map (· + 1) := by
  induction rounds generalizing m with
  | zero => rfl
  | succ rounds ih =>
    rw [setBits, setBits, trailingZeros_double, clear_double, ih]
    by_cases hm : m = 0
    · subst hm
      rfl
    · rw [if_neg (by omega), if_neg hm]
      rfl

/-- The loop visits the set bits of a mask, in ascending order. -/
theorem setBits_ofLsb (bs : List Bool) {width rounds : ℕ} (hwidth : bs.length ≤ width)
    (hrounds : bs.length ≤ rounds) : setBits width rounds (ofLsb bs) = bs.findIdxs id := by
  induction bs generalizing width rounds with
  | nil => exact setBits_zero width rounds
  | cons b bs ih =>
    rw [List.length_cons] at hwidth hrounds
    obtain ⟨width, rfl⟩ := Nat.exists_eq_add_one_of_ne_zero (show width ≠ 0 by omega)
    obtain ⟨rounds, rfl⟩ := Nat.exists_eq_add_one_of_ne_zero (show rounds ≠ 0 by omega)
    rw [List.findIdxs_cons, List.findIdxs_start, ofLsb_cons]
    cases b with
    | false =>
      have hhalf := ih (show bs.length ≤ width by omega) (show bs.length ≤ rounds + 1 by omega)
      rw [Bool.toNat_false, Nat.zero_add, setBits_double, hhalf]
      rfl
    | true =>
      have hhalf := ih (show bs.length ≤ width by omega) (show bs.length ≤ rounds by omega)
      have hlow : trailingZeros (width + 1) (1 + 2 * ofLsb bs) = 0 := by
        rw [trailingZeros, if_pos (by simp)]
      rw [Bool.toNat_true, setBits, if_neg (by omega), clear_odd, setBits_double, hhalf, hlow]
      rfl

/-- A loop over the bits at odd places visits the odd places of the marked elements. -/
theorem findIdxs_odd {α : Type*} (p : α → Bool) (xs : List α) (s : ℕ) :
    (xs.flatMap fun x => [false, p x]).findIdxs id (2 * s) =
      (xs.findIdxs p s).map fun i => 2 * i + 1 := by
  induction xs generalizing s with
  | nil => rfl
  | cons x xs ih =>
    have hrest := ih (s + 1)
    rw [List.flatMap_cons, List.cons_append, List.cons_append, List.nil_append,
      List.findIdxs_cons, List.findIdxs_cons, List.findIdxs_cons,
      show 2 * s + 1 + 1 = 2 * (s + 1) by omega, hrest]
    by_cases hp : p x = true
    · simp [hp]
    · simp [hp]

end Mask
