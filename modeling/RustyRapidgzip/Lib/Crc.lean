import Mathlib.Data.BitVec

/-!
# Checksums of concatenations

A checksum whose value on a concatenation follows from the values on the parts, and the
reflected cyclic redundancy checks, which are such checksums: a register step is linear
in exclusive or, so the second part's bytes act on the first part's value as zeros do.
-/

namespace Crc

/-- A checksum of byte lists that can be computed piecewise. -/
structure Checksum where
  /-- The value of a list. -/
  hash : List UInt8 → ℕ
  /-- The value of a concatenation: both values, and the second part's length. -/
  combine : ℕ → ℕ → ℕ → ℕ
  /-- The concatenation law. -/
  combine_hash : ∀ a b, combine (hash a) (hash b) b.length = hash (a ++ b)

section Register

variable {w : ℕ} (poly : BitVec w)

/-- Shift one bit out of the register. -/
def shiftBit (r : BitVec w) : BitVec w :=
  if r.getLsbD 0 then (r >>> 1) ^^^ poly else r >>> 1

/-- Shift `n` bits out of the register. -/
def shiftBits : ℕ → BitVec w → BitVec w
  | 0, r => r
  | n + 1, r => shiftBits n (shiftBit poly r)

/-- Feed one byte. -/
def feed (r : BitVec w) (b : UInt8) : BitVec w :=
  shiftBits poly 8 (r ^^^ BitVec.ofNat w b.toNat)

/-- The check of a list: the register starts with ones and is complemented at the end. -/
def crc (bytes : List UInt8) : BitVec w :=
  ~~~(bytes.foldl (feed poly) (BitVec.allOnes w))

/-- The check of a concatenation from the checks of its parts. -/
def combine (a b : BitVec w) (length : ℕ) : BitVec w := shiftBits poly (8 * length) a ^^^ b

/-- Shifting a bit out is linear. -/
theorem shiftBit_xor (a b : BitVec w) :
    shiftBit poly (a ^^^ b) = shiftBit poly a ^^^ shiftBit poly b := by
  have hcancel (x y : BitVec w) : x ^^^ y = x ^^^ poly ^^^ (y ^^^ poly) := by
    rw [BitVec.xor_assoc, ← BitVec.xor_assoc poly, BitVec.xor_comm poly y,
      BitVec.xor_assoc y poly, BitVec.xor_self, BitVec.xor_zero]
  unfold shiftBit
  simp only [BitVec.getLsbD_xor, BitVec.ushiftRight_xor_distrib]
  cases a.getLsbD 0 <;> cases b.getLsbD 0 <;> simp
  · ac_rfl
  · ac_rfl
  · exact hcancel _ _

/-- Shifting bits out is linear. -/
theorem shiftBits_xor (n : ℕ) (a b : BitVec w) :
    shiftBits poly n (a ^^^ b) = shiftBits poly n a ^^^ shiftBits poly n b := by
  induction n generalizing a b with
  | zero => rfl
  | succ n ih => rw [shiftBits, shiftBit_xor, ih, shiftBits, shiftBits]

/-- Shifts add up. -/
theorem shiftBits_add (m n : ℕ) (a : BitVec w) :
    shiftBits poly (m + n) a = shiftBits poly n (shiftBits poly m a) := by
  induction m generalizing a with
  | zero => rw [Nat.zero_add, shiftBits]
  | succ m ih => rw [Nat.succ_add, shiftBits, ih, shiftBits]

/-- What was in the register before the bytes acts independently of them. -/
theorem foldl_feed_xor (bytes : List UInt8) (r x : BitVec w) :
    bytes.foldl (feed poly) (r ^^^ x) =
      bytes.foldl (feed poly) r ^^^ shiftBits poly (8 * bytes.length) x := by
  induction bytes generalizing r x with
  | nil => rfl
  | cons b bytes ih =>
    have hfeed : feed poly (r ^^^ x) b = feed poly r b ^^^ shiftBits poly 8 x := by
      unfold feed
      rw [← shiftBits_xor]
      congr 1
      ac_rfl
    rw [List.foldl_cons, List.foldl_cons, hfeed, ih, List.length_cons,
      show 8 * (bytes.length + 1) = 8 + 8 * bytes.length by omega, shiftBits_add]

/-- The concatenation law of the cyclic redundancy checks. -/
theorem combine_crc (a b : List UInt8) :
    combine poly (crc poly a) (crc poly b) b.length = crc poly (a ++ b) := by
  have hstart : a.foldl (feed poly) (BitVec.allOnes w) = BitVec.allOnes w ^^^ crc poly a := by
    rw [crc, BitVec.not_def, ← BitVec.xor_assoc, BitVec.xor_self, BitVec.zero_xor]
  have hb : crc poly b = BitVec.allOnes w ^^^ b.foldl (feed poly) (BitVec.allOnes w) := by
    rw [crc, BitVec.not_def]
  have happ : crc poly (a ++ b) = BitVec.allOnes w ^^^ (b.foldl (feed poly) (BitVec.allOnes w) ^^^
      shiftBits poly (8 * b.length) (crc poly a)) := by
    rw [crc, List.foldl_append, hstart, foldl_feed_xor, BitVec.not_def]
  rw [happ, combine, hb]
  ac_rfl

/-- Shift `n` bits out of a register that is a number. The number is known before the next bit. -/
def shiftNat (poly : ℕ) : ℕ → ℕ → ℕ
  | 0, r => r
  | n + 1, 0 => shiftNat poly n 0
  | n + 1, r + 1 => shiftNat poly n ((r + 1) % 2 * poly ^^^ (r + 1) / 2)

/-- The last shift comes first on the remaining number. -/
theorem shiftNat_succ (poly n r : ℕ) :
    shiftNat poly (n + 1) r = shiftNat poly n (r % 2 * poly ^^^ r / 2) := by
  cases r with
  | zero => rw [shiftNat, Nat.zero_mod, Nat.zero_mul, Nat.zero_div, Nat.xor_self]
  | succ r => rw [shiftNat]

/-- The shift of a word, on numbers. -/
theorem shiftBit_toNat (r : BitVec w) :
    (shiftBit poly r).toNat = r.toNat % 2 * poly.toNat ^^^ r.toNat / 2 := by
  have hbit : r.getLsbD 0 = decide (r.toNat % 2 = 1) := by
    rw [BitVec.getLsbD, Nat.testBit_zero]
  unfold shiftBit
  rw [hbit]
  rcases Nat.mod_two_eq_zero_or_one r.toNat with hzero | hone
  · simp [hzero, BitVec.toNat_ushiftRight, Nat.shiftRight_one]
  · simp [hone, BitVec.toNat_ushiftRight, Nat.shiftRight_one, Nat.xor_comm]

/-- The shifts of a word, on numbers. -/
theorem shiftBits_toNat (n : ℕ) (r : BitVec w) :
    (shiftBits poly n r).toNat = shiftNat poly.toNat n r.toNat := by
  induction n generalizing r with
  | zero => rw [shiftBits, shiftNat]
  | succ n ih => rw [shiftBits, ih, shiftBit_toNat, shiftNat_succ]

/-- Zeros only shift the register. -/
theorem crc_replicate_zero (n : ℕ) :
    (crc poly (List.replicate n 0)).toNat =
      2 ^ w - 1 - shiftNat poly.toNat (8 * n) (2 ^ w - 1) := by
  have hfold (r : BitVec w) :
      (List.replicate n 0).foldl (feed poly) r = shiftBits poly (8 * n) r := by
    induction n generalizing r with
    | zero => rfl
    | succ n ih =>
      have hfeed : feed poly r 0 = shiftBits poly 8 r := by simp [feed]
      rw [List.replicate_succ, List.foldl_cons, ih, hfeed, ← shiftBits_add,
        show 8 + 8 * n = 8 * (n + 1) by omega]
  rw [crc, hfold, BitVec.toNat_not, shiftBits_toNat, BitVec.toNat_allOnes]

/-- A cyclic redundancy check as a checksum. -/
def checksum : Checksum where
  hash bytes := (crc poly bytes).toNat
  combine a b length := (combine poly (BitVec.ofNat w a) (BitVec.ofNat w b) length).toNat
  combine_hash a b := by
    simp only [BitVec.ofNat_toNat, BitVec.setWidth_eq]
    rw [combine_crc]

end Register

/-- The CRC-32 of gzip. -/
def crc32 : Checksum := checksum (0xEDB88320 : BitVec 32)

example : crc32.hash [0x61, 0x62, 0x63] = 0x352441c2 := by decide +kernel

end Crc
