import RustyRapidgzip.Lib.Lz
import Mathlib.Data.List.GetD

/-!
# Copies in a memory

A memory is a function from positions to values. The copy of a dictionary coder moves one element
after the other, so a copy that overlaps its source repeats the elements in between. Whatever keeps
the positions below the destination and repeats with the same distance is that copy. A copy by
chunks whose source lies below the destination may write past its end; that changes nothing below.
-/

namespace Memory

variable {α : Type*}

/-- One load and one store of `n` elements. -/
def move (m : ℕ → α) (src dst n : ℕ) : ℕ → α := fun i =>
  if dst ≤ i ∧ i < dst + n then m (src + (i - dst)) else m i

/-- Store one element. -/
def set (m : ℕ → α) (pos : ℕ) (v : α) : ℕ → α := fun i => if i = pos then v else m i

/-- Copy `n` elements, one after the other. -/
def copy : ℕ → (ℕ → α) → ℕ → ℕ → ℕ → α
  | 0, m, _, _ => m
  | n + 1, m, src, dst => copy n (set m dst (m src)) (src + 1) (dst + 1)

/-- The cell that was set holds the value. -/
theorem set_self (m : ℕ → α) (pos : ℕ) (v : α) : set m pos v pos = v := if_pos rfl

/-- The other cells are as they were. -/
theorem set_of_ne {m : ℕ → α} {pos i : ℕ} (v : α) (h : i ≠ pos) : set m pos v i = m i := if_neg h

/-! ## The copy, element by element -/

/-- A copy changes nothing outside its destination. -/
theorem copy_of_outside {n i : ℕ} (m : ℕ → α) (src : ℕ) {dst : ℕ} (h : i < dst ∨ dst + n ≤ i) :
    copy n m src dst i = m i := by
  induction n generalizing m src dst with
  | zero => rfl
  | succ n ih =>
    rw [copy, ih _ _ (by omega)]
    exact set_of_ne _ (by omega)

/-- A copy repeats the elements between its source and its destination. -/
theorem copy_add {n j : ℕ} (m : ℕ → α) {src dst : ℕ} (hlt : src < dst) (hj : j < n) :
    copy n m src dst (dst + j) = copy n m src dst (src + j) := by
  induction n generalizing m src dst j with
  | zero => omega
  | succ n ih =>
    rw [copy]
    cases j with
    | zero =>
      rw [Nat.add_zero dst, Nat.add_zero src, copy_of_outside _ _ (Or.inl (Nat.lt_succ_self dst)),
        copy_of_outside _ _ (Or.inl (by omega)), set_self, set_of_ne _ (by omega)]
    | succ j =>
      have hnext := ih (set m dst (m src)) (show src + 1 < dst + 1 by omega)
        (show j < n by omega)
      rwa [Nat.add_right_comm dst, Nat.add_right_comm src] at hnext

/-- What keeps the positions below the destination and repeats with its distance is the copy. -/
theorem eq_copy {m m' : ℕ → α} {src dst n : ℕ} (hlt : src < dst) (hbelow : ∀ i < dst, m' i = m i)
    (hperiod : ∀ j < n, m' (dst + j) = m' (src + j)) {i : ℕ} (hi : i < dst + n) :
    m' i = copy n m src dst i := by
  induction i using Nat.strongRecOn with
  | ind i ih =>
    by_cases hold : i < dst
    · rw [hbelow i hold, copy_of_outside _ _ (Or.inl hold)]
    · obtain ⟨j, rfl⟩ : ∃ j, i = dst + j := ⟨i - dst, by omega⟩
      rw [hperiod j (by omega), copy_add m hlt (by omega)]
      exact ih (src + j) (by omega) (by omega)

/-! ## Copies by chunks -/

/-- From `m` to `m'`, `n` elements have been copied from a source as it was, and nothing else has
changed below `dst` or from `dst + extent` on. -/
structure Copied (m m' : ℕ → α) (src dst n extent : ℕ) : Prop where
  below : ∀ i < dst, m' i = m i
  copied : ∀ j < n, m' (dst + j) = m (src + j)
  above : ∀ i, dst + extent ≤ i → m' i = m i

namespace Copied

variable {m m₁ m₂ : ℕ → α} {src dst : ℕ}

/-- Nothing is copied by no step. -/
theorem none (m : ℕ → α) (src dst : ℕ) : Copied m m src dst 0 0 :=
  ⟨fun _ _ => rfl, fun j hj => absurd hj (Nat.not_lt_zero j), fun _ _ => rfl⟩

/-- One chunk. -/
theorem chunk (m : ℕ → α) (src dst k : ℕ) : Copied m (move m src dst k) src dst k k where
  below i hi := by rw [move, if_neg (by omega)]
  copied j hj := by rw [move, if_pos (by omega), Nat.add_sub_cancel_left]
  above i hi := by rw [move, if_neg (by omega)]

/-- One element. -/
theorem one (m : ℕ → α) (src dst : ℕ) : Copied m (set m dst (m src)) src dst 1 1 where
  below i hi := set_of_ne _ (by omega)
  copied j hj := by
    obtain rfl : j = 0 := by omega
    exact set_self _ _ _
  above i hi := set_of_ne _ (by omega)

/-- A copy is also a copy of fewer elements, and one that may have written more. -/
theorem weaken {a b e e' : ℕ} (h : Copied m m₁ src dst a e) (hb : b ≤ a) (he : e ≤ e') :
    Copied m m₁ src dst b e' where
  below := h.below
  copied j hj := h.copied j (by omega)
  above i hi := h.above i (by omega)

/-- One copy goes on where another stopped. The source of both lies below the destination. -/
theorem append {a b e : ℕ} (h : Copied m m₁ src dst a a)
    (hnext : Copied m₁ m₂ (src + a) (dst + a) b e) (hsrc : src + a + b ≤ dst) :
    Copied m m₂ src dst (a + b) (a + e) where
  below i hi := by rw [hnext.below i (by omega), h.below i hi]
  copied j hj := by
    by_cases hja : j < a
    · rw [hnext.below _ (by omega), h.copied j hja]
    · obtain ⟨k, rfl⟩ : ∃ k, j = a + k := ⟨j - a, by omega⟩
      have hk := hnext.copied k (by omega)
      rw [Nat.add_assoc, Nat.add_assoc] at hk
      rw [hk, h.below _ (by omega)]
  above i hi := by rw [hnext.above i (by omega), h.above i (by omega)]

/-- A copy from below the destination is the copy element by element. -/
theorem eq_copy {n e : ℕ} (h : Copied m m₁ src dst n e) (hsrc : src + n ≤ dst) (hlt : src < dst)
    {i : ℕ} (hi : i < dst + n) : m₁ i = copy n m src dst i := by
  refine Memory.eq_copy hlt h.below (fun j hj => ?_) hi
  rw [h.copied j hj, h.below _ (by omega)]

end Copied

/-! ## Runs of one element -/

/-- From `m` to `m'`, `n` positions have been set to `v`, and nothing else. -/
structure Filled (m m' : ℕ → α) (v : α) (dst n : ℕ) : Prop where
  outside : ∀ i, i < dst ∨ dst + n ≤ i → m' i = m i
  filled : ∀ j < n, m' (dst + j) = v

namespace Filled

variable {m m₁ m₂ : ℕ → α} {v : α} {dst : ℕ}

/-- Nothing is filled by no step. -/
theorem none (m : ℕ → α) (v : α) (dst : ℕ) : Filled m m v dst 0 :=
  ⟨fun _ _ => rfl, fun j hj => absurd hj (Nat.not_lt_zero j)⟩

/-- One cell is filled by setting it. -/
theorem one (m : ℕ → α) (v : α) (dst : ℕ) : Filled m (set m dst v) v dst 1 where
  outside i hi := set_of_ne _ (by omega)
  filled j hj := by
    obtain rfl : j = 0 := by omega
    exact set_self _ _ _

/-- A run behind a run is a longer run. -/
theorem append {a b : ℕ} (h : Filled m m₁ v dst a) (hnext : Filled m₁ m₂ v (dst + a) b) :
    Filled m m₂ v dst (a + b) where
  outside i hi := by rw [hnext.outside i (by omega), h.outside i (by omega)]
  filled j hj := by
    by_cases hja : j < a
    · rw [hnext.outside _ (by omega), h.filled j hja]
    · obtain ⟨k, rfl⟩ : ∃ k, j = a + k := ⟨j - a, by omega⟩
      rw [← Nat.add_assoc]
      exact hnext.filled k (by omega)

/-- A run of the last element is the copy from distance one. -/
theorem eq_copy {src n : ℕ} (h : Filled m m₁ (m src) (src + 1) n) {i : ℕ} (hi : i < src + 1 + n) :
    m₁ i = copy n m src (src + 1) i := by
  refine Memory.eq_copy (Nat.lt_succ_self src) (fun i hi => h.outside i (Or.inl hi))
    (fun j hj => ?_) hi
  rw [h.filled j hj]
  cases j with
  | zero => exact (h.outside src (Or.inl (Nat.lt_succ_self src))).symm
  | succ j =>
    rw [show src + (j + 1) = src + 1 + j by omega]
    exact (h.filled j (by omega)).symm

end Filled

/-! ## Memories that hold a list -/

/-- The memory starts with the list. -/
def Holds (m : ℕ → α) (out : List α) : Prop := ∀ i < out.length, out[i]? = some (m i)

/-- A memory that agrees on the list's cells holds it too. -/
theorem Holds.of_eq {m m' : ℕ → α} {out : List α} (h : Holds m out)
    (heq : ∀ i < out.length, m' i = m i) : Holds m' out := by
  intro i hi
  rw [h i hi, heq i hi]

/-- A list is held by its own entries. -/
theorem holds_getD (out : List α) (d : α) : Holds (fun i => out.getD i d) out := by
  intro i hi
  simp only [List.getD_eq_getElem _ _ hi, List.getElem?_eq_getElem hi]

/-- Copying in the memory is copying at the end of the list. -/
theorem Holds.copy {m : ℕ → α} {out : List α} {d : ℕ} (n : ℕ) (h : Holds m out) (hd : 0 < d)
    (hle : d ≤ out.length) :
    Holds (Memory.copy n m (out.length - d) out.length) (Lz.copyBack out d n) := by
  have hlen := Lz.copyBack_length (n := n) hd hle
  obtain ⟨tail, htail⟩ := Lz.copyBack_extends out d n
  intro i hi
  induction i using Nat.strongRecOn with
  | ind i ih =>
    by_cases hold : i < out.length
    · rw [copy_of_outside _ _ (Or.inl hold), ← h i hold, ← htail, List.getElem?_append_left hold]
    · obtain ⟨j, rfl⟩ : ∃ j, i = out.length + j := ⟨i - out.length, by omega⟩
      rw [Lz.getElem?_copyBack hd hle (by omega), copy_add m (by omega) (by omega),
        ih (out.length + j - d) (by omega) (by omega)]
      congr 2
      omega

end Memory
