import RustyRapidgzip.Lib.Bits

/-!
# The bit reader

`BitReader` keeps up to 64 input bits in a word and refills it from the byte
slice, eight bytes at a time while they last. `Reads` relates a reader to a
position of the bit stream; each operation is described by its effect on that
position, whatever the word happens to hold.
-/

namespace RustyRapidgzip

open LsbBits

/-- The decoder's errors. `outOfFuel` is not an error of the program: it marks a
modelled loop that used up its rounds, and no decoder returns it. -/
inductive DeflateError where
  | unexpectedEof
  | invalid (msg : String)
  | outOfFuel
  deriving DecidableEq, Repr

/-- The reader: the input, the next byte to load, the bit word and its valid bits. -/
structure BitReader where
  input : List UInt8
  bytePos : ℕ
  buf : ℕ
  bits : ℕ
  deriving DecidableEq, Repr

/-- The unaligned eight-byte little-endian load. -/
def loadLeU64 (input : List UInt8) (pos : ℕ) : ℕ := leNat ((input.drop pos).take 8)

namespace BitReader

/-- A reader at the first bit of `input`. -/
def new (input : List UInt8) : BitReader := ⟨input, 0, 0, 0⟩

/-- The position of the next unread bit. -/
def tellBit (br : BitReader) : ℕ := br.bytePos * 8 - br.bits

/-- Discard buffered bits up to the next byte boundary. -/
def byteAlign (br : BitReader) : BitReader :=
  let drop := br.bits &&& 7
  { br with buf := br.buf >>> drop, bits := br.bits - drop }

/-- Load one byte above the valid bits. -/
def pushByte (br : BitReader) : BitReader :=
  { br with
    buf := br.buf ||| (((br.input.getD br.bytePos 0).toNat <<< br.bits) % 2 ^ 64)
    bytePos := br.bytePos + 1
    bits := br.bits + 8 }

/-- `while bits < n`, load one byte or report the end of the input. Eight rounds
fill the word, so the round bound never ends the loop early for `n ≤ 64`. -/
def refillSlow : ℕ → BitReader → ℕ → Bool × BitReader
  | 0, br, n => (decide (n ≤ br.bits), br)
  | rounds + 1, br, n =>
    if n ≤ br.bits then (true, br)
    else if br.input.length ≤ br.bytePos then (false, br)
    else refillSlow rounds br.pushByte n

/-- Top the word up from one eight-byte load. -/
def refillFast (br : BitReader) : BitReader :=
  let added := 64 - br.bits
  { br with
    buf := br.buf ||| ((loadLeU64 br.input br.bytePos <<< br.bits) % 2 ^ 64)
    bytePos := br.bytePos + added / 8
    bits := br.bits + added / 8 * 8 }

/-- Make at least `n` bits valid. The flag tells whether the input sufficed. -/
def refill (br : BitReader) (n : ℕ) : Bool × BitReader :=
  if n ≤ br.bits then (true, br)
  else if br.bytePos + 8 ≤ br.input.length ∧ br.bits ≤ 56 then (true, br.refillFast)
  else refillSlow 8 br n

/-- Drop `n` valid bits. -/
def consume (br : BitReader) (n : ℕ) : BitReader :=
  { br with buf := br.buf >>> n, bits := br.bits - n }

/-- The low `n` bits of the word. -/
def peekBitsUnchecked (br : BitReader) (n : ℕ) : ℕ := br.buf &&& (2 ^ n - 1)

/-- The next `n` bits, left unread. -/
def peek (br : BitReader) (n : ℕ) : Except DeflateError (ℕ × BitReader) :=
  match br.refill n with
  | (true, br) => .ok (br.peekBitsUnchecked n, br)
  | (false, _) => .error .unexpectedEof

/-- Read `n` bits, least significant first. -/
def read (br : BitReader) (n : ℕ) : Except DeflateError (ℕ × BitReader) :=
  if n = 0 then .ok (0, br)
  else match br.refill n with
    | (true, br) => .ok (br.peekBitsUnchecked n, br.consume n)
    | (false, _) => .error .unexpectedEof

/-- Move to an absolute bit position. -/
def seekToBit (br : BitReader) (pos : ℕ) : Except DeflateError BitReader :=
  if br.input.length * 8 < pos then .error .unexpectedEof
  else
    let br : BitReader := { br with bytePos := pos / 8, buf := 0, bits := 0 }
    let sub := pos % 8
    if sub = 0 then .ok br
    else match br.refill sub with
      | (true, br) => .ok (br.consume sub)
      | (false, _) => .error .unexpectedEof

/-- Loading a byte keeps the input. -/
@[simp] theorem pushByte_input (br : BitReader) : br.pushByte.input = br.input := rfl

/-- Loading a byte moves the next byte on. -/
@[simp] theorem pushByte_bytePos (br : BitReader) : br.pushByte.bytePos = br.bytePos + 1 := rfl

/-- Loading a byte makes eight more bits valid. -/
@[simp] theorem pushByte_bits (br : BitReader) : br.pushByte.bits = br.bits + 8 := rfl

/-- The fast refill keeps the input. -/
@[simp] theorem refillFast_input (br : BitReader) : br.refillFast.input = br.input := rfl

/-- The fast refill moves the next byte on by the bytes that fit. -/
@[simp] theorem refillFast_bytePos (br : BitReader) :
    br.refillFast.bytePos = br.bytePos + (64 - br.bits) / 8 := rfl

/-- The fast refill makes the bits valid of the bytes that fit. -/
@[simp] theorem refillFast_bits (br : BitReader) :
    br.refillFast.bits = br.bits + (64 - br.bits) / 8 * 8 := rfl

/-- Consuming bits keeps the input. -/
@[simp] theorem consume_input (br : BitReader) (n : ℕ) : (br.consume n).input = br.input := rfl

/-- Consuming bits shifts them out. -/
@[simp] theorem consume_buf (br : BitReader) (n : ℕ) : (br.consume n).buf = br.buf >>> n := rfl

/-- Consuming bits leaves fewer valid ones. -/
@[simp] theorem consume_bits (br : BitReader) (n : ℕ) : (br.consume n).bits = br.bits - n := rfl

/-! ## The stream position of a reader -/

/-- The reader stands at bit `p` of `input`. -/
structure Reads (br : BitReader) (input : List UInt8) (p : ℕ) : Prop where
  /-- The reader reads this input. -/
  input_eq : br.input = input
  /-- Its word accumulates the stream bits from `p`. -/
  acc : Accumulates input p br.bytePos br.buf br.bits

variable {br : BitReader} {input : List UInt8} {p : ℕ}

/-- A new reader stands at the first bit. -/
theorem new_reads (input : List UInt8) : (new input).Reads input 0 :=
  ⟨rfl, Accumulates.empty (Nat.zero_le input.length)⟩

/-- The reported position is the stream position. -/
theorem Reads.tellBit_eq (h : br.Reads input p) : br.tellBit = p := by
  have := h.acc.tell
  unfold tellBit
  omega

/-- The valid bits are bits of the input. -/
theorem Reads.pos_le (h : br.Reads input p) : p + br.bits ≤ 8 * input.length := h.acc.pos_le

/-- Consuming valid bits advances the position. -/
theorem Reads.consume (h : br.Reads input p) {n : ℕ} (hn : n ≤ br.bits) :
    (br.consume n).Reads input (p + n) :=
  ⟨h.input_eq, h.acc.consume hn⟩

/-- Within the valid bits, the word shows the stream. -/
theorem Reads.peekBitsUnchecked_eq (h : br.Reads input p) {n : ℕ} (hn : n ≤ br.bits) :
    br.peekBitsUnchecked n = peekAt input p n := by
  rw [peekBitsUnchecked, Nat.and_two_pow_sub_one_eq_mod, h.acc.mask hn]

/-- Alignment moves to the next byte boundary. -/
theorem Reads.byteAlign (h : br.Reads input p) :
    br.byteAlign.Reads input ((p + 7) / 8 * 8) := by
  have htell := h.acc.tell
  have hdrop : br.bits &&& 7 = br.bits % 8 := Nat.and_two_pow_sub_one_eq_mod br.bits 3
  have hpos : (p + 7) / 8 * 8 = p + br.bits % 8 := by omega
  rw [hpos]
  unfold BitReader.byteAlign
  rw [hdrop]
  exact ⟨h.input_eq, h.acc.consume (Nat.mod_le _ _)⟩

/-- Loading a byte keeps the position. -/
theorem Reads.pushByte (h : br.Reads input p) (hroom : br.bytePos < input.length)
    (hbits : br.bits ≤ 56) : br.pushByte.Reads input p := by
  refine ⟨h.input_eq, ?_⟩
  have htell := h.acc.tell
  have hbyte (i : ℕ) (hi : i < 8) :
      ((br.input.getD br.bytePos 0).toNat).testBit i = bitAt input (8 * br.bytePos + i) := by
    have hdiv : (8 * br.bytePos + i) / 8 = br.bytePos := by omega
    have hmod : (8 * br.bytePos + i) % 8 = i := by omega
    rw [h.input_eq, bitAt, hdiv, hmod]
  apply h.acc.refill
  · intro i hi
    by_cases hlt : i < 8
    · rwa [← hbyte i hlt]
    · have hsmall : (br.input.getD br.bytePos 0).toNat < 2 ^ i :=
        Nat.lt_of_lt_of_le (UInt8.toNat_lt _) (Nat.pow_le_pow_right (by decide) (by omega : 8 ≤ i))
      rw [Nat.testBit_lt_two_pow hsmall] at hi
      cases hi
  · intro i hi
    rw [pushByte_bits] at hi
    exact hbyte i (by omega)
  · rw [pushByte_bytePos]
    omega
  · rw [pushByte_bits, pushByte_bytePos]
    omega
  · rw [pushByte_bits]
    omega

/-- The byte-by-byte loop stops with enough valid bits exactly when the input has
them, and keeps the position. -/
theorem refillSlow_spec (rounds n : ℕ) (h : br.Reads input p) (hn : n ≤ 56)
    (hrounds : n ≤ br.bits + 8 * rounds) :
    ((refillSlow rounds br n).1 = true ↔ p + n ≤ 8 * input.length) ∧
      ((refillSlow rounds br n).1 = true → (refillSlow rounds br n).2.Reads input p ∧
        n ≤ (refillSlow rounds br n).2.bits ∧ br.bits ≤ (refillSlow rounds br n).2.bits ∧
        ((refillSlow rounds br n).2.bits ≤ 63 ∨ (refillSlow rounds br n).2.bits = br.bits)) := by
  induction rounds generalizing br with
  | zero =>
    have hle : n ≤ br.bits := by omega
    have hpos := h.pos_le
    simp only [refillSlow, decide_eq_true hle, true_iff]
    exact ⟨by omega, fun _ => ⟨h, hle, le_rfl, by simp⟩⟩
  | succ rounds ih =>
    have hpos := h.pos_le
    have htell := h.acc.tell
    by_cases hle : n ≤ br.bits
    · simp only [refillSlow, if_pos hle, true_iff]
      exact ⟨by omega, fun _ => ⟨h, hle, le_rfl, by simp⟩⟩
    · by_cases hend : br.input.length ≤ br.bytePos
      · have heof : input.length ≤ br.bytePos := by rwa [h.input_eq] at hend
        have hbyte := h.acc.bytePos_le
        simp only [refillSlow, hle, hend, if_true, if_false, Bool.false_eq_true, false_iff,
          false_implies, and_true]
        omega
      · have hroom : br.bytePos < input.length := by rw [h.input_eq] at hend; omega
        have hpush := h.pushByte hroom (by omega)
        have hnext := ih hpush (by rw [pushByte_bits]; omega)
        simp only [refillSlow, hle, hend, if_false]
        refine ⟨hnext.1, fun htrue => ?_⟩
        obtain ⟨hr, hn', hb, hbound⟩ := hnext.2 htrue
        rw [pushByte_bits] at hb hbound
        exact ⟨hr, hn', by omega, Or.inl (by omega)⟩

/-- The digits of an eight-byte load are stream bits. -/
theorem testBit_loadLeU64 (input : List UInt8) (pos i : ℕ) (hi : i < 64) :
    (loadLeU64 input pos).testBit i = bitAt input (8 * pos + i) :=
  testBit_leNat_window input pos 8 i hi

/-- A bit that a load sets is set in the input. -/
theorem loadLeU64_stale (input : List UInt8) (pos i : ℕ)
    (hi : (loadLeU64 input pos).testBit i = true) : bitAt input (8 * pos + i) = true := by
  by_cases hlt : i < 64
  · rwa [← testBit_loadLeU64 input pos i hlt]
  · rw [loadLeU64, testBit_leNat, bitAt_of_le] at hi
    · cases hi
    · simp only [List.length_take, List.length_drop]
      omega

/-- Topping up from one load keeps the position. -/
theorem Reads.refillFast (h : br.Reads input p) (hroom : br.bytePos + 8 ≤ br.input.length) :
    br.refillFast.Reads input p := by
  refine ⟨h.input_eq, ?_⟩
  have htell := h.acc.tell
  have hbits := h.acc.nbits_le
  rw [h.input_eq] at hroom
  have hbuf : br.refillFast.buf =
      br.buf ||| (loadLeU64 input br.bytePos <<< br.bits) % 2 ^ 64 := by
    rw [← h.input_eq]
    rfl
  rw [hbuf]
  apply h.acc.refill (loadLeU64_stale input br.bytePos)
  · intro i hi
    rw [refillFast_bits] at hi
    exact testBit_loadLeU64 input br.bytePos i (by omega)
  · rw [refillFast_bytePos]
    omega
  · rw [refillFast_bits, refillFast_bytePos]
    omega
  · rw [refillFast_bits]
    omega

/-- A refill succeeds exactly when the input has `n` more bits; it then keeps the
position and makes them valid. -/
theorem Reads.refill (h : br.Reads input p) {n : ℕ} (hn : n ≤ 56) :
    ((br.refill n).1 = true ↔ p + n ≤ 8 * input.length) ∧
      ((br.refill n).1 = true → (br.refill n).2.Reads input p ∧ n ≤ (br.refill n).2.bits ∧
        br.bits ≤ (br.refill n).2.bits) := by
  have hpos := h.pos_le
  have htell := h.acc.tell
  unfold BitReader.refill
  by_cases hle : n ≤ br.bits
  · simp only [if_pos hle, true_iff]
    exact ⟨by omega, fun _ => ⟨h, hle, le_rfl⟩⟩
  · by_cases hfast : br.bytePos + 8 ≤ br.input.length ∧ br.bits ≤ 56
    · have hreads := h.refillFast hfast.1
      have hroom : br.bytePos + 8 ≤ input.length := by simpa [h.input_eq] using hfast.1
      simp only [hle, hfast, and_self, if_true, if_false, true_iff]
      refine ⟨by omega, fun _ => ⟨hreads, ?_, ?_⟩⟩
      · rw [refillFast_bits]
        omega
      · rw [refillFast_bits]
        omega
    · simp only [hle, hfast, if_false]
      have hspec := refillSlow_spec 8 n h (by omega) (by omega)
      exact ⟨hspec.1, fun htrue => ⟨(hspec.2 htrue).1, (hspec.2 htrue).2.1, (hspec.2 htrue).2.2.1⟩⟩

/-- Peeking within the input shows the stream and keeps the position. -/
theorem Reads.peek_ok (h : br.Reads input p) {n : ℕ} (hn : n ≤ 56)
    (hroom : p + n ≤ 8 * input.length) :
    ∃ br', br.peek n = .ok (peekAt input p n, br') ∧ br'.Reads input p ∧ n ≤ br'.bits ∧
      br.bits ≤ br'.bits := by
  obtain ⟨hiff, hspec⟩ := h.refill hn
  have htrue := hiff.mpr hroom
  obtain ⟨hreads, hbits, hle⟩ := hspec htrue
  cases hr : br.refill n with
  | mk flag br' =>
    rw [hr] at htrue hreads hbits hle
    cases flag with
    | false => cases htrue
    | true =>
      refine ⟨br', ?_, hreads, hbits, hle⟩
      simp only [peek, hr, hreads.peekBitsUnchecked_eq hbits]

/-- Peeking past the end of the input fails. -/
theorem Reads.peek_eof (h : br.Reads input p) {n : ℕ} (hn : n ≤ 56)
    (hroom : 8 * input.length < p + n) : br.peek n = .error .unexpectedEof := by
  have hiff := (h.refill hn).1
  cases hr : br.refill n with
  | mk flag br' =>
    cases flag with
    | false => simp only [peek, hr]
    | true =>
      rw [hr] at hiff
      have := hiff.mp rfl
      omega

/-- Reading within the input returns the stream bits and advances past them. -/
theorem Reads.read_ok (h : br.Reads input p) {n : ℕ} (hn : n ≤ 56)
    (hroom : p + n ≤ 8 * input.length) :
    ∃ br', br.read n = .ok (peekAt input p n, br') ∧ br'.Reads input (p + n) ∧
      (0 < n → br'.bits ≤ 63) := by
  by_cases hzero : n = 0
  · subst n
    exact ⟨br, by simp [read, peekAt], h, by omega⟩
  · obtain ⟨hiff, hspec⟩ := h.refill hn
    have htrue := hiff.mpr hroom
    obtain ⟨hreads, hbits, -⟩ := hspec htrue
    cases hr : br.refill n with
    | mk flag br' =>
      rw [hr] at htrue hreads hbits
      cases flag with
      | false => cases htrue
      | true =>
        refine ⟨br'.consume n, ?_, hreads.consume hbits, fun _ => ?_⟩
        · simp only [read, if_neg hzero, hr, hreads.peekBitsUnchecked_eq hbits]
        · have h64 : br'.bits ≤ 64 := hreads.acc.nbits_le
          rw [consume_bits]
          omega

/-- Reading past the end of the input fails. -/
theorem Reads.read_eof (h : br.Reads input p) {n : ℕ} (hn : n ≤ 56)
    (hroom : 8 * input.length < p + n) : br.read n = .error .unexpectedEof := by
  have hpos := h.pos_le
  have hzero : n ≠ 0 := by omega
  have hiff := (h.refill hn).1
  cases hr : br.refill n with
  | mk flag br' =>
    cases flag with
    | false => simp only [read, if_neg hzero, hr]
    | true =>
      rw [hr] at hiff
      have := hiff.mp rfl
      omega

/-- A successful read had its bits in the input. -/
theorem Reads.read_inv (h : br.Reads input p) {n v : ℕ} {br' : BitReader} (hn : n ≤ 56)
    (hread : br.read n = .ok (v, br')) :
    p + n ≤ 8 * input.length ∧ v = peekAt input p n ∧ br'.Reads input (p + n) ∧
      (0 < n → br'.bits ≤ 63) := by
  by_cases hroom : p + n ≤ 8 * input.length
  · obtain ⟨br'', hok, hreads, hbits⟩ := h.read_ok hn hroom
    rw [hok] at hread
    cases hread
    exact ⟨hroom, rfl, hreads, hbits⟩
  · rw [h.read_eof hn (by omega)] at hread
    cases hread

/-- Seeking inside the input moves to the position. -/
theorem seekToBit_ok (br : BitReader) {pos : ℕ} (hpos : pos ≤ 8 * br.input.length) :
    ∃ br', br.seekToBit pos = .ok br' ∧ br'.Reads br.input pos ∧ br'.bits ≤ 63 := by
  let start : BitReader := { br with bytePos := pos / 8, buf := 0, bits := 0 }
  have hstart : start.Reads br.input (8 * (pos / 8)) := ⟨rfl, Accumulates.empty (by omega)⟩
  by_cases hsub : pos % 8 = 0
  · refine ⟨start, ?_, ?_, by simp [start]⟩
    · simp only [seekToBit, if_neg (by omega : ¬br.input.length * 8 < pos), hsub, if_true, start]
    · rwa [show 8 * (pos / 8) = pos by omega] at hstart
  · obtain ⟨hiff, hspec⟩ := hstart.refill (n := pos % 8) (by omega)
    have htrue := hiff.mpr (by omega)
    obtain ⟨hreads, hbits, -⟩ := hspec htrue
    cases hr : start.refill (pos % 8) with
    | mk flag br' =>
      rw [hr] at htrue hreads hbits
      cases flag with
      | false => cases htrue
      | true =>
        refine ⟨br'.consume (pos % 8), ?_, ?_, ?_⟩
        · simp only [start] at hr
          simp only [seekToBit, if_neg (by omega : ¬br.input.length * 8 < pos), hsub, if_false, hr]
        · have h := hreads.consume hbits
          rwa [show 8 * (pos / 8) + pos % 8 = pos by omega] at h
        · have h64 : br'.bits ≤ 64 := hreads.acc.nbits_le
          rw [consume_bits]
          omega

/-- Seeking past the end fails. -/
theorem seekToBit_eof (br : BitReader) {pos : ℕ} (hpos : 8 * br.input.length < pos) :
    br.seekToBit pos = .error .unexpectedEof := by
  simp only [seekToBit, if_pos (by omega : br.input.length * 8 < pos)]

end BitReader

end RustyRapidgzip
