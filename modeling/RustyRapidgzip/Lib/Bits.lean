import Mathlib.Data.Nat.Bitwise
import Mathlib.Data.List.Basic
import Mathlib.Tactic.Ring

/-!
# Bit streams read least significant bit first

A list of bytes is read as one list of bits, the least significant bit of each
byte first. A reader keeps some of these bits in a machine word. `Accumulates`
says when a word, a count of valid bits and a byte position together stand for a
position in the stream. Bits above the count may already hold later stream bits.
-/

namespace LsbBits

/-- Bit `i` of a byte list; every bit past the end is clear. -/
def bitAt (bytes : List UInt8) (i : ℕ) : Bool :=
  (bytes.getD (i / 8) 0).toNat.testBit (i % 8)

/-- The bits of a byte list, the least significant bit of each byte first. -/
def bits (bytes : List UInt8) : List Bool :=
  (List.range (8 * bytes.length)).map (bitAt bytes)

/-- The number whose binary digits, from the least significant one, are the list. -/
def ofLsb : List Bool → ℕ
  | [] => 0
  | b :: bs => b.toNat + 2 * ofLsb bs

/-- The number a byte list denotes in little-endian order. -/
def leNat : List UInt8 → ℕ
  | [] => 0
  | b :: bs => b.toNat + 256 * leNat bs

/-- The number formed by the `n` bits from position `p`. -/
def peekAt (bytes : List UInt8) (p n : ℕ) : ℕ :=
  ofLsb (((bits bytes).drop p).take n)

/-! ## Bit lists -/

/-- A byte has eight bits. -/
@[simp] theorem bits_length (bytes : List UInt8) : (bits bytes).length = 8 * bytes.length := by
  simp [bits]

/-- The bits of a concatenation are the concatenated bits. -/
theorem bits_append (a b : List UInt8) : bits (a ++ b) = bits a ++ bits b := by
  apply List.ext_getElem
  · simp only [bits_length, List.length_append]
    omega
  · intro i h _
    have hi : i < 8 * a.length + 8 * b.length := by simpa [Nat.mul_add] using h
    by_cases hlt : i < 8 * a.length
    · rw [List.getElem_append_left (by simpa using hlt)]
      have hdiv : i / 8 < a.length := by omega
      simp [bits, bitAt, List.getElem?_append_left hdiv]
    · rw [List.getElem_append_right (by simpa using hlt)]
      have hdiv : a.length ≤ i / 8 := by omega
      have hq : (i - 8 * a.length) / 8 = i / 8 - a.length := by omega
      have hr : (i - 8 * a.length) % 8 = i % 8 := by omega
      simp [bits, bitAt, List.getElem?_append_right hdiv, hq, hr]

/-- Dropping whole bytes drops eight bits for each of them. -/
theorem bits_drop (bytes : List UInt8) (n : ℕ) :
    bits (bytes.drop n) = (bits bytes).drop (8 * n) := by
  by_cases hn : n ≤ bytes.length
  · have h := bits_append (bytes.take n) (bytes.drop n)
    rw [List.take_append_drop] at h
    rw [h, List.drop_left' (by simp [hn])]
  · rw [List.drop_of_length_le (by omega), List.drop_of_length_le (by simp; omega)]
    rfl

/-- No bits are the number zero. -/
@[simp] theorem ofLsb_nil : ofLsb [] = 0 := rfl

/-- The first bit is the lowest one. -/
@[simp] theorem ofLsb_cons (b : Bool) (bs : List Bool) :
    ofLsb (b :: bs) = b.toNat + 2 * ofLsb bs := rfl

/-- The digits of `ofLsb` are the entries of the list. -/
theorem testBit_ofLsb (bs : List Bool) (i : ℕ) : (ofLsb bs).testBit i = bs.getD i false := by
  induction bs generalizing i with
  | nil => simp
  | cons b bs ih =>
    cases i with
    | zero => cases b <;> simp
    | succ i =>
      have hdiv : (b.toNat + 2 * ofLsb bs) / 2 = ofLsb bs := by
        cases b <;> simp
        omega
      rw [ofLsb_cons, Nat.testBit_succ, hdiv, ih i]
      simp

/-- A list of `n` bits denotes a number below `2 ^ n`. -/
theorem ofLsb_lt (bs : List Bool) : ofLsb bs < 2 ^ bs.length := by
  induction bs with
  | nil => simp
  | cons b bs ih =>
    have hb : b.toNat ≤ 1 := Bool.toNat_le b
    rw [ofLsb_cons, List.length_cons, pow_succ]
    omega

/-- Appending more significant digits. -/
theorem ofLsb_append (a b : List Bool) : ofLsb (a ++ b) = ofLsb a + 2 ^ a.length * ofLsb b := by
  induction a with
  | nil => simp
  | cons x a ih =>
    rw [List.cons_append, ofLsb_cons, ofLsb_cons, ih, List.length_cons, pow_succ]
    ring

/-- Bit lists of one length are determined by their number. -/
theorem ofLsb_inj {a b : List Bool} (hlen : a.length = b.length) (h : ofLsb a = ofLsb b) :
    a = b := by
  apply List.ext_getElem hlen
  intro i ha hb
  have hbit := congrArg (fun n : ℕ => n.testBit i) h
  simpa [testBit_ofLsb, ha, hb] using hbit

/-- Every number below `2 ^ n` is read off `n` bits. -/
theorem exists_ofLsb {v n : ℕ} (h : v < 2 ^ n) :
    ∃ bs : List Bool, bs.length = n ∧ ofLsb bs = v := by
  refine ⟨(List.range n).map v.testBit, by simp, Nat.eq_of_testBit_eq fun i => ?_⟩
  rw [testBit_ofLsb, List.getD_eq_getElem?_getD, List.getElem?_map]
  by_cases hi : i < n
  · rw [List.getElem?_range hi]
    rfl
  · rw [List.getElem?_eq_none (by simpa using hi)]
    exact (Nat.testBit_lt_two_pow (h.trans_le (Nat.pow_le_pow_right two_pos (by omega)))).symm

/-- The low digits are those of the first entries. -/
theorem ofLsb_take (bs : List Bool) (n : ℕ) : ofLsb (bs.take n) = ofLsb bs % 2 ^ n := by
  by_cases hn : n ≤ bs.length
  · have hsplit := ofLsb_append (bs.take n) (bs.drop n)
    have hlt := ofLsb_lt (bs.take n)
    rw [List.length_take_of_le hn] at hsplit hlt
    rw [List.take_append_drop] at hsplit
    rw [hsplit, Nat.add_mul_mod_self_left, Nat.mod_eq_of_lt hlt]
  · have hlt := Nat.lt_of_lt_of_le (ofLsb_lt bs)
      (Nat.pow_le_pow_right (by decide : 0 < 2) (by omega : bs.length ≤ n))
    rw [List.take_of_length_le (by omega), Nat.mod_eq_of_lt hlt]

/-! ## Positions -/

/-- Behind the last byte all bits are zero. -/
theorem bitAt_of_le {bytes : List UInt8} {i : ℕ} (hi : 8 * bytes.length ≤ i) :
    bitAt bytes i = false := by
  have hdiv : bytes.length ≤ i / 8 := by omega
  simp [bitAt, hdiv]

/-- The digits of a peeked number are stream bits, clear from digit `n` on. -/
theorem testBit_peekAt (bytes : List UInt8) (p n i : ℕ) :
    (peekAt bytes p n).testBit i = (decide (i < n) && bitAt bytes (p + i)) := by
  rw [peekAt, testBit_ofLsb, List.getD_eq_getElem?_getD, List.getElem?_take]
  by_cases hi : i < n
  · rw [if_pos hi, List.getElem?_drop]
    by_cases hin : p + i < 8 * bytes.length
    · simp [bits, hi, hin]
    · have hfalse : bitAt bytes (p + i) = false := bitAt_of_le (by omega)
      simp [bits, hi, hin, hfalse]
  · simp [hi]

/-- A window of `n` bits is a number of `n` bits. -/
theorem peekAt_lt (bytes : List UInt8) (p n : ℕ) : peekAt bytes p n < 2 ^ n := by
  apply Nat.lt_of_lt_of_le (ofLsb_lt _)
  exact Nat.pow_le_pow_right (by decide) (by simp)

/-- A shorter peek is the low part of a longer one. -/
theorem peekAt_mod (bytes : List UInt8) (p : ℕ) {m n : ℕ} (h : m ≤ n) :
    peekAt bytes p n % 2 ^ m = peekAt bytes p m := by
  apply Nat.eq_of_testBit_eq
  intro i
  rw [Nat.testBit_mod_two_pow, testBit_peekAt, testBit_peekAt]
  by_cases hi : i < m
  · simp [hi, Nat.lt_of_lt_of_le hi h]
  · simp [hi]

/-! ## Little-endian numbers -/

/-- The digits of a little-endian number are the stream bits. -/
theorem testBit_leNat (bytes : List UInt8) (i : ℕ) : (leNat bytes).testBit i = bitAt bytes i := by
  induction bytes generalizing i with
  | nil => simp [leNat, bitAt]
  | cons b bs ih =>
    have hb : b.toNat < 2 ^ 8 := UInt8.toNat_lt b
    rw [leNat, show b.toNat + 256 * leNat bs = 2 ^ 8 * leNat bs + b.toNat by omega,
      Nat.testBit_two_pow_mul_add _ hb]
    by_cases hi : i < 8
    · have hdiv : i / 8 = 0 := by omega
      have hmod : i % 8 = i := by omega
      simp [hi, bitAt, hdiv, hmod]
    · have hdiv : i / 8 = (i - 8) / 8 + 1 := by omega
      have hmod : i % 8 = (i - 8) % 8 := by omega
      rw [if_neg hi, ih (i - 8), bitAt, bitAt, hdiv, hmod]
      simp

/-- The number of `n` bytes has `n` digits to the base 256. -/
theorem leNat_lt (bytes : List UInt8) : leNat bytes < 256 ^ bytes.length := by
  induction bytes with
  | nil => exact Nat.one_pos
  | cons b bs ih =>
    have hb : b.toNat < 256 := UInt8.toNat_lt b
    rw [leNat, List.length_cons, Nat.pow_succ]
    omega

/-- The bits of a window of bytes are the stream bits from its start. -/
theorem testBit_leNat_window (bytes : List UInt8) (pos n i : ℕ) (hi : i < 8 * n) :
    (leNat ((bytes.drop pos).take n)).testBit i = bitAt bytes (8 * pos + i) := by
  have hdiv : (8 * pos + i) / 8 = pos + i / 8 := by omega
  have hmod : (8 * pos + i) % 8 = i % 8 := by omega
  have hlt : i / 8 < n := by omega
  rw [testBit_leNat, bitAt, bitAt, hdiv, hmod]
  simp [hlt]

/-! ## Machine-word accumulators -/

/-- The word `buf` with `nbits` valid bits, taken from the bytes before `bytePos`,
stands for stream position `p`. A set bit of the word is always a set stream bit,
so bits above `nbits` are either clear or already right. -/
structure Accumulates (bytes : List UInt8) (p bytePos buf nbits : ℕ) : Prop where
  /-- Only bytes of the input have been loaded. -/
  bytePos_le : bytePos ≤ bytes.length
  /-- The position is the valid bits short of the loaded bytes. -/
  tell : p + nbits = 8 * bytePos
  /-- The valid bits fit a 64-bit word. -/
  nbits_le : nbits ≤ 64
  /-- The word is a 64-bit word. -/
  buf_lt : buf < 2 ^ 64
  /-- The valid bits are the stream bits from `p`. -/
  valid : ∀ i < nbits, buf.testBit i = bitAt bytes (p + i)
  /-- Every set bit is a set stream bit. -/
  stale : ∀ i, buf.testBit i = true → bitAt bytes (p + i) = true

namespace Accumulates

variable {bytes : List UInt8} {p bytePos buf nbits : ℕ}

/-- An empty accumulator stands at a byte boundary. -/
theorem empty (h : bytePos ≤ bytes.length) : Accumulates bytes (8 * bytePos) bytePos 0 0 where
  bytePos_le := h
  tell := by omega
  nbits_le := by decide
  buf_lt := by decide
  valid := by intro i hi; omega
  stale := by intro i hi; simp at hi

/-- An accumulated position never lies past the end of the stream. -/
theorem pos_le (h : Accumulates bytes p bytePos buf nbits) : p + nbits ≤ 8 * bytes.length := by
  have h₁ := h.tell
  have h₂ := h.bytePos_le
  omega

/-- Consuming valid bits advances the position. -/
theorem consume (h : Accumulates bytes p bytePos buf nbits) {k : ℕ} (hk : k ≤ nbits) :
    Accumulates bytes (p + k) bytePos (buf >>> k) (nbits - k) where
  bytePos_le := h.bytePos_le
  tell := by have := h.tell; omega
  nbits_le := by have := h.nbits_le; omega
  buf_lt := Nat.lt_of_le_of_lt (Nat.shiftRight_le _ _) h.buf_lt
  valid := by
    intro i hi
    rw [Nat.testBit_shiftRight, h.valid (k + i) (by omega), Nat.add_assoc]
  stale := by
    intro i hi
    rw [Nat.testBit_shiftRight] at hi
    rw [Nat.add_assoc]
    exact h.stale (k + i) hi

/-- The low digits of the word, within the valid bits, are the peeked number. -/
theorem mask (h : Accumulates bytes p bytePos buf nbits) {k : ℕ} (hk : k ≤ nbits) :
    buf % 2 ^ k = peekAt bytes p k := by
  apply Nat.eq_of_testBit_eq
  intro i
  rw [Nat.testBit_mod_two_pow, testBit_peekAt]
  by_cases hi : i < k
  · rw [h.valid i (by omega)]
  · simp [hi]

/-- OR-ing later stream bits in above the valid bits, and counting the whole bytes
among them as valid, stands for the same position. Bits already set are set again. -/
theorem refill (h : Accumulates bytes p bytePos buf nbits) {chunk bytePos' nbits' : ℕ}
    (hchunk : ∀ i, chunk.testBit i = true → bitAt bytes (8 * bytePos + i) = true)
    (hvalid : ∀ i, i + nbits < nbits' → chunk.testBit i = bitAt bytes (8 * bytePos + i))
    (hle : bytePos' ≤ bytes.length) (htell : p + nbits' = 8 * bytePos')
    (hnbits : nbits' ≤ 64) :
    Accumulates bytes p bytePos' (buf ||| (chunk <<< nbits) % 2 ^ 64) nbits' where
  bytePos_le := hle
  tell := htell
  nbits_le := hnbits
  buf_lt := Nat.or_lt_two_pow h.buf_lt (Nat.mod_lt _ (by decide))
  valid := by
    intro i hi
    have hpos := h.tell
    rw [Nat.testBit_or, Nat.testBit_mod_two_pow, Nat.testBit_shiftLeft]
    by_cases hlt : i < nbits
    · rw [h.valid i hlt]
      simp [Nat.not_le.mpr hlt]
    · have hge : nbits ≤ i := by omega
      have h64 : i < 64 := by omega
      have hstream : 8 * bytePos + (i - nbits) = p + i := by omega
      have hbit := hvalid (i - nbits) (by omega)
      rw [hstream] at hbit
      simp only [hge, h64, decide_true, Bool.true_and, hbit]
      cases hb : buf.testBit i with
      | false => simp
      | true => simp [h.stale i hb]
  stale := by
    intro i hi
    have hpos := h.tell
    rw [Nat.testBit_or, Nat.testBit_mod_two_pow, Nat.testBit_shiftLeft] at hi
    rcases (Bool.or_eq_true _ _).mp hi with hold | hnew
    · exact h.stale i hold
    · simp only [Bool.and_eq_true, decide_eq_true_eq] at hnew
      have hbit := hchunk (i - nbits) hnew.2.2
      have hstream : 8 * bytePos + (i - nbits) = p + i := by omega
      rwa [hstream] at hbit

end Accumulates

end LsbBits
