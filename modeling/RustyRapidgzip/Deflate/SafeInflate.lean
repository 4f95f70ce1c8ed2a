import RustyRapidgzip.Deflate.Blocks
import Mathlib.Tactic.IntervalCases

/-!
# The safe decoder

The decoder without unchecked copies walks a canonical code bit by bit and keeps a
nine-bit table for the short codes. It never asks for bits beyond the symbol at hand:
its refills stop quietly at the end of the input. Its state is a `BitReader`.
-/

namespace RustyRapidgzip

open LsbBits Canonical Reference Lz

namespace SafeInflate

/-- The number of bits that index the table. -/
def LUT_BITS : ℕ := 9

/-- The number of table entries. -/
def LUT_SIZE : ℕ := 1 <<< LUT_BITS

/-- The longest code. -/
def MAXBITS : ℕ := 15

/-- Pack a symbol and its code length. -/
def lutPack (sym len : ℕ) : ℕ := sym <<< 8 ||| len

/-- The code length of an entry, zero if the canonical walk must be used. -/
def lutLen (e : ℕ) : ℕ := e &&& 0xff

/-- The symbol of an entry. -/
def lutSym (e : ℕ) : ℕ := e >>> 8

/-- A code: how many codewords each length has, the symbols in codeword order, and the table. -/
structure Huffman where
  count : ℕ → ℕ
  symbol : ℕ → ℕ
  lut : ℕ → ℕ

/-- Reverse the low bits of a code, by swaps within 16 bits. -/
def reverseBits (code bits : ℕ) : ℕ :=
  let x := (code &&& 0x5555) <<< 1 ||| (code &&& 0xaaaa) >>> 1
  let x := (x &&& 0x3333) <<< 2 ||| (x &&& 0xcccc) >>> 2
  let x := (x &&& 0x0f0f) <<< 4 ||| (x &&& 0xf0f0) >>> 4
  let x := x <<< 8 ||| x >>> 8
  x >>> (16 - bits)

/-- The check of the code space: `left` words are unused after the lengths so far. -/
def checkLeft (count : ℕ → ℕ) : List ℕ → ℕ → Except DeflateError ℕ
  | [], left => .ok left
  | len :: lens, left =>
    if left <<< 1 < count len then .error (.invalid "over-subscribed huffman code")
    else checkLeft count lens (left <<< 1 - count len)

/-- The first code of each length. The counts include the unused symbols, so the codes
are right in their low bits only. -/
def nextCodes (count : ℕ → ℕ) : ℕ → ℕ
  | 0 => 0
  | bits + 1 => (nextCodes count bits + count bits) <<< 1

/-- Enter the short codes, symbol by symbol, at every index from the reversed code on. -/
def fillLut : List ℕ → ℕ → (ℕ → ℕ) → (ℕ → ℕ) → ℕ → ℕ
  | [], _, _, lut => lut
  | len :: lengths, sym, next, lut =>
    if len = 0 ∨ LUT_BITS < len then fillLut lengths (sym + 1) next lut
    else
      let base := reverseBits (next len) len
      let entry := lutPack sym len
      fillLut lengths (sym + 1) (Function.update next len (next len + 1))
        (HuffmanDecoder.fillStride LUT_SIZE entry (1 <<< len) LUT_SIZE base lut)

/-- Build a code from its lengths. -/
def construct (lengths : List ℕ) : Except DeflateError Huffman :=
  match HuffmanDecoder.countLengths "code length exceeds 15" lengths (fun _ => 0) with
  | .error e => .error e
  | .ok count =>
    if count 0 = lengths.length then .ok ⟨count, fun _ => 0, fun _ => 0⟩
    else
      match checkLeft count (List.range' 1 MAXBITS) 1 with
      | .error e => .error e
      | .ok _ =>
        .ok ⟨count, HuffmanDecoder.sortSyms lengths 0 (HuffmanDecoder.bucketOffset count)
          (fun _ => 0),
          fillLut lengths 0 (nextCodes count) (fun _ => 0)⟩

/-- Load bytes while a whole one fits and the input lasts. -/
def loadBytes : ℕ → BitReader → BitReader
  | 0, br => br
  | rounds + 1, br =>
    if br.bits + 8 ≤ 64 ∧ br.bytePos < br.input.length then loadBytes rounds br.pushByte else br

/-- Refill below the given number of bits, without failing at the end of the input. -/
def refillBelow (threshold : ℕ) (br : BitReader) : BitReader :=
  if threshold ≤ br.bits then br
  else if br.bytePos + 8 ≤ br.input.length then br.refillFast
  else loadBytes 8 br

/-- Refill as many bytes as fit. -/
def refillBestEffort (br : BitReader) : BitReader := refillBelow 56 br

/-- Hold at least `need` bits. -/
def refill (br : BitReader) (need : ℕ) : Except DeflateError BitReader :=
  if need ≤ br.bits then .ok br
  else if br.bytePos + 8 ≤ br.input.length then .ok br.refillFast
  else
    match BitReader.refillSlow 8 br need with
    | (true, br) => .ok br
    | (false, _) => .error .unexpectedEof

/-- Take `need` bits. -/
def bits (br : BitReader) (need : ℕ) : Except DeflateError (ℕ × BitReader) :=
  match refill br need with
  | .error e => .error e
  | .ok br => .ok (br.buf &&& (1 <<< need - 1), br.consume need)

/-- Give back the whole bytes in the word and drop the rest of a byte. -/
def dropToByteBoundary (br : BitReader) : BitReader :=
  { br with bytePos := br.bytePos - br.bits / 8, buf := 0, bits := 0 }

/-- The canonical walk: extend the code by one bit until it falls among the codes of its
length. The result is the symbol, the rest of the word and the code's length. -/
def walk (h : Huffman) : ℕ → ℕ → ℕ → ℕ → ℕ → ℕ → ℕ → Except DeflateError (ℕ × ℕ × ℕ)
  | 0, _, _, _, _, _, _ => .error (.invalid "invalid huffman code")
  | rounds + 1, len, bitbuf, available, code, first, index =>
    if available = 0 then .error .unexpectedEof
    else
      let code := code ||| (bitbuf &&& 1)
      let bitbuf := bitbuf >>> 1
      let count := h.count len
      if code < first + count then .ok (h.symbol (index + code - first), bitbuf, len)
      else
        walk h rounds (len + 1) bitbuf (available - 1) (code <<< 1) ((first + count) <<< 1)
          (index + count)

/-- Decode a symbol by the canonical walk. -/
def decodeShort (br : BitReader) (h : Huffman) : Except DeflateError (ℕ × BitReader) :=
  match walk h MAXBITS 1 br.buf br.bits 0 0 0 with
  | .error e => .error e
  | .ok (sym, bitbuf, len) => .ok (sym, { br with buf := bitbuf, bits := br.bits - len })

/-- Decode a symbol from the table if the word has enough bits, else by the walk. -/
def decodeBuffered (br : BitReader) (h : Huffman) : Except DeflateError (ℕ × BitReader) :=
  if LUT_BITS ≤ br.bits then
    let entry := h.lut (br.buf &&& (1 <<< LUT_BITS - 1))
    let len := lutLen entry
    if len ≠ 0 then .ok (lutSym entry, br.consume len) else decodeShort br h
  else decodeShort br h

/-- Decode a symbol, refilling on the way. -/
def decode (br : BitReader) (h : Huffman) : Except DeflateError (ℕ × BitReader) :=
  if LUT_BITS ≤ br.bits then
    let entry := h.lut (br.buf &&& (1 <<< LUT_BITS - 1))
    let len := lutLen entry
    if len ≠ 0 then .ok (lutSym entry, br.consume len)
    else
      let br := if br.bits < MAXBITS then refillBestEffort br else br
      decodeShort br h
  else decodeShort (refillBestEffort br) h

/-- The extra bits of a symbol, which must be in the word. -/
def extraBits (br : BitReader) (base extra : ℕ) : Except DeflateError (ℕ × BitReader) :=
  if br.bits < extra then .error .unexpectedEof
  else .ok (base + (br.buf &&& (1 <<< extra - 1)), br.consume extra)

/-- The length a symbol past the end-of-block symbol stands for. -/
def lengthOf (sym : ℕ) (br : BitReader) : Except DeflateError (ℕ × BitReader) :=
  let idx := sym - 257
  if LENGTH_BASE.length ≤ idx then .error (.invalid "length symbol out of range")
  else extraBits br (LENGTH_BASE.getD idx 0) (LENGTH_EXTRA.getD idx 0)

/-- The distance symbol and its extra bits. -/
def distanceOf (dc : Huffman) (br : BitReader) : Except DeflateError (ℕ × BitReader) := do
  let (dsym, br) ← decodeBuffered br dc
  if DISTANCE_BASE.length ≤ dsym then .error (.invalid "distance symbol out of range")
  else extraBits br (DISTANCE_BASE.getD dsym 0) (DISTANCE_EXTRA.getD dsym 0)

/-- A copy whose symbol has been read. -/
def copyMatch (dc : Huffman) (sym : ℕ) (out : List UInt8) (br : BitReader) :
    Except DeflateError (List UInt8 × BitReader) := do
  let (length, br) ← lengthOf sym br
  let (dist, br) ← distanceOf dc br
  if dist = 0 ∨ MAX_DISTANCE < dist ∨ out.length < dist then
    .error (.invalid "distance out of bounds")
  else .ok (copyBackRaw out dist length, br)

/-- One round of the symbol loop. -/
def round (lc dc : Huffman) (s : List UInt8 × BitReader) :
    Except DeflateError ((List UInt8 × BitReader) ⊕ (List UInt8 × BitReader)) :=
  match decodeBuffered (refillBelow 48 s.2) lc with
  | .error e => .error e
  | .ok (sym, br) =>
    if sym < 256 then .ok (.inl (s.1 ++ [UInt8.ofNat sym], br))
    else if sym = 256 then .ok (.inr (s.1, br))
    else
      match copyMatch dc sym s.1 br with
      | .error e => .error e
      | .ok next => .ok (.inl next)

/-- The symbol loop. Each round consumes a bit, which bounds the rounds. -/
def codes (lc dc : Huffman) (out : List UInt8) (br : BitReader) :
    Except DeflateError (List UInt8 × BitReader) :=
  Loop.iterate .outOfFuel (round lc dc) (8 * br.input.length + 1) (out, br)

/-- The codes of a fixed block. -/
def fixedCodes (br : BitReader) : Except DeflateError ((Huffman × Huffman) × BitReader) := do
  let lc ← construct fixedLiteralLengths
  let dc ← construct fixedDistanceLengths
  .ok ((lc, dc), br)

/-- A fixed block. -/
def fixed (out : List UInt8) (br : BitReader) :
    Except DeflateError (List UInt8 × BitReader) := do
  let ((lc, dc), br) ← fixedCodes br
  codes lc dc out br

/-- Read the lengths of the code-length code in their sending order. -/
def readClLengths : List ℕ → List ℕ → BitReader → Except DeflateError (List ℕ × BitReader)
  | [], lengths, br => .ok (lengths, br)
  | i :: order, lengths, br => do
    let (l, br) ← bits br 3
    readClLengths order (lengths.set i l) br

/-- Write the lengths one code-length symbol stands for. The list holds the lengths
below `idx`. -/
def writeLengths (total : ℕ) (lengths : List ℕ) (sym : ℕ) (br : BitReader) :
    Except DeflateError (List ℕ × BitReader) :=
  let repeated (len n k : ℕ) : Except DeflateError (List ℕ × BitReader) := do
    let (v, br) ← bits br n
    let rep := k + v
    if total < lengths.length + rep then .error (.invalid "repeat overruns code lengths")
    else .ok (lengths ++ List.replicate rep len, br)
  if 18 < sym then .error (.invalid "bad code-length symbol")
  else if sym < 16 then .ok (lengths ++ [sym], br)
  else if sym = 16 then
    match lengths.getLast? with
    | none => .error (.invalid "code 16 with no previous")
    | some prev => repeated prev 2 3
  else if sym = 17 then repeated 0 3 3
  else repeated 0 7 11

/-- `while idx < total`, decode one code-length symbol; each round writes at least one length. -/
def readLengths (lc : Huffman) (total : ℕ) : ℕ → List ℕ → BitReader →
    Except DeflateError (List ℕ × BitReader)
  | 0, _, _ => .error .outOfFuel
  | rounds + 1, lengths, br =>
    if lengths.length < total then do
      let (sym, br) ← decode br lc
      let (lengths, br) ← writeLengths total lengths sym br
      readLengths lc total rounds lengths br
    else .ok (lengths, br)

/-- The codes of a dynamic block. -/
def dynamicCodes (br : BitReader) : Except DeflateError ((Huffman × Huffman) × BitReader) := do
  let (v, br) ← bits br 5
  let nlen := v + 257
  let (v, br) ← bits br 5
  let ndist := v + 1
  let (v, br) ← bits br 4
  let ncode := v + 4
  if 286 < nlen ∨ 30 < ndist then .error (.invalid "HLIT/HDIST out of range")
  else
    let (clLengths, br) ← readClLengths (CODE_LENGTH_ORDER.take ncode) (List.replicate 19 0) br
    let lc ← construct clLengths
    let total := nlen + ndist
    let (lengths, br) ← readLengths lc total (total + 1) [] br
    if lengths.getD 256 0 = 0 then .error (.invalid "EOB symbol has zero length")
    else
      let lc ← construct (lengths.take nlen)
      let dc ← construct (lengths.drop nlen)
      .ok ((lc, dc), br)

/-- A dynamic block. -/
def dynamic (out : List UInt8) (br : BitReader) :
    Except DeflateError (List UInt8 × BitReader) := do
  let ((lc, dc), br) ← dynamicCodes br
  codes lc dc out br

/-- A stored block, copied as a slice of the input. -/
def stored (out : List UInt8) (br : BitReader) : Except DeflateError (List UInt8 × BitReader) :=
  let s := dropToByteBoundary br
  if s.input.length < s.bytePos + 4 then .error .unexpectedEof
  else
    let len := leNat ((s.input.drop s.bytePos).take 2)
    let nlen := leNat ((s.input.drop (s.bytePos + 2)).take 2)
    if len ^^^ nlen ≠ 0xffff then .error (.invalid "stored block: LEN/NLEN mismatch")
    else
      let pos := s.bytePos + 4
      if s.input.length < pos + len then .error .unexpectedEof
      else .ok (out ++ (s.input.drop pos).take len, { s with bytePos := pos + len })

/-- The contents of a block of the given type. -/
def contents (btype : ℕ) (out : List UInt8) (br : BitReader) :
    Except DeflateError (List UInt8 × BitReader) :=
  if btype = 0 then stored out br
  else if btype = 1 then fixed out br
  else if btype = 2 then dynamic out br
  else .error (.invalid "reserved block type")

/-- Decode one block. -/
def block (out : List UInt8) (br : BitReader) :
    Except DeflateError ((Bool × List UInt8) × BitReader) := do
  let (last, br) ← bits br 1
  let (btype, br) ← bits br 2
  let (out, br) ← contents btype out br
  .ok ((last != 0, out), br)

/-- Decode the stream of `input`. The result is the output and the consumed bytes. -/
def inflateInto (input out : List UInt8) : Except DeflateError (ℕ × List UInt8) :=
  match blocksWith block (fun _ => false) out (BitReader.new input) with
  | .error e => .error e
  | .ok ((_, out), br) => .ok (br.bytePos - br.bits / 8, out)

/-! ## Building a code -/

/-- The check passes exactly on the lengths that satisfy the Kraft inequality. -/
theorem checkLeft_range {lens : List ℕ} {count : ℕ → ℕ}
    (hcount : ∀ l, 0 < l → count l = lens.count l) (l n : ℕ) (hl : filled lens l ≤ 2 ^ l) :
    (∃ left, checkLeft count (List.range' (l + 1) n) (2 ^ l - filled lens l) = .ok left ∧
      filled lens (l + n) ≤ 2 ^ (l + n)) ∨
    (checkLeft count (List.range' (l + 1) n) (2 ^ l - filled lens l) =
        .error (.invalid "over-subscribed huffman code") ∧
      2 ^ (l + n) < filled lens (l + n)) := by
  induction n generalizing l with
  | zero => exact Or.inl ⟨_, rfl, hl⟩
  | succ n ih =>
    have hstep : filled lens (l + 1) = 2 * filled lens l + count (l + 1) := by
      rw [filled, hcount _ (by omega)]
    have hpow : 2 ^ (l + 1) = 2 * 2 ^ l := by rw [pow_succ, Nat.mul_comm]
    rw [List.range'_succ, checkLeft, Nat.shiftLeft_eq]
    by_cases hover : 2 ^ (l + 1) < filled lens (l + 1)
    · rw [if_pos (by omega)]
      refine Or.inr ⟨rfl, ?_⟩
      have hmono := filled_mul_le lens (l + 1) n
      rw [show l + (n + 1) = l + 1 + n by omega, Nat.pow_add]
      exact Nat.lt_of_lt_of_le (Nat.mul_lt_mul_of_pos_right hover (Nat.two_pow_pos n)) hmono
    · rw [if_neg (by omega)]
      have hnext := ih (l + 1) (by omega)
      rw [show 2 ^ (l + 1) - filled lens (l + 1) =
        (2 ^ l - filled lens l) * 2 ^ 1 - count (l + 1) by omega] at hnext
      rwa [show l + (n + 1) = l + 1 + n by omega]

/-- The first codes are the canonical ones, shifted by the unused symbols. -/
theorem nextCodes_eq {lens : List ℕ} {count : ℕ → ℕ}
    (hcount : ∀ l, 0 < l → count l = lens.count l) {l : ℕ} (hl : 0 < l) :
    nextCodes count l = firstCode lens l + count 0 * 2 ^ l := by
  induction l, hl using Nat.le_induction with
  | base =>
    rw [nextCodes, nextCodes, firstCode, Nat.shiftLeft_eq]
    simp [filled]
  | succ l hl ih =>
    obtain ⟨k, rfl⟩ : ∃ k, l = k + 1 := ⟨l - 1, by omega⟩
    rw [nextCodes, ih, hcount (k + 1) (by omega), Nat.shiftLeft_eq]
    simp only [firstCode, Nat.add_sub_cancel, filled]
    ring

/-- The swaps turn the low 16 bits around, and leave the high byte turned around above them. -/
theorem testBit_reverseBits (c : ℕ) {i : ℕ} (hi : i < 24) :
    (reverseBits c 16).testBit i = c.testBit (15 - i % 16) := by
  have h5 : ∀ i ≤ 39, Nat.testBit 0x5555 i = decide (i < 16 ∧ i % 2 = 0) := by decide
  have ha : ∀ i ≤ 39, Nat.testBit 0xaaaa i = decide (i < 16 ∧ i % 2 = 1) := by decide
  have h3 : ∀ i ≤ 39, Nat.testBit 0x3333 i = decide (i < 16 ∧ i / 2 % 2 = 0) := by decide
  have hc : ∀ i ≤ 39, Nat.testBit 0xcccc i = decide (i < 16 ∧ i / 2 % 2 = 1) := by decide
  have h0 : ∀ i ≤ 39, Nat.testBit 0x0f0f i = decide (i < 16 ∧ i / 4 % 2 = 0) := by decide
  have hf : ∀ i ≤ 39, Nat.testBit 0xf0f0 i = decide (i < 16 ∧ i / 4 % 2 = 1) := by decide
  unfold reverseBits
  interval_cases i <;>
    simp [Nat.testBit_or, Nat.testBit_and, Nat.testBit_shiftLeft, Nat.testBit_shiftRight,
      h5, ha, h3, hc, h0, hf]

/-- The low bits of the result are the reversed low bits of the code. -/
theorem reverseBits_mod (c : ℕ) {len : ℕ} (hlen : len ≤ 16) :
    reverseBits c len % 2 ^ len = ofLsb (msb len c) := by
  have hshift : reverseBits c len = reverseBits c 16 >>> (16 - len) := rfl
  apply Nat.eq_of_testBit_eq
  intro i
  rw [Nat.testBit_mod_two_pow, testBit_ofLsb, hshift, Nat.testBit_shiftRight]
  by_cases hi : i < len
  · rw [testBit_reverseBits c (by omega), Nat.mod_eq_of_lt (by omega),
      List.getD_eq_getElem _ _ (by simpa using hi), getElem_msb]
    simp only [hi, decide_true, Bool.true_and]
    congr 1
    omega
  · rw [List.getD_eq_default _ _ (by simpa using hi)]
    simp [hi]

/-- A table entry, if there is one, is right: its index starts with the symbol's codeword. -/
def RightEntry (lens : List ℕ) (idx entry : ℕ) : Prop :=
  entry = 0 ∨ ∃ s < lens.length, 0 < lens.getD s 0 ∧ lens.getD s 0 ≤ LUT_BITS ∧
    idx % 2 ^ lens.getD s 0 = ofLsb (codeword lens s) ∧ entry = lutPack s (lens.getD s 0)

/-- A code of given lengths. Table entries may be missing, but none is wrong. -/
structure Implements (h : Huffman) (lens : List ℕ) : Prop where
  code : PrefixCode lens
  count : ∀ l, 0 < l → h.count l = lens.count l
  symbol : ∀ l i, 0 < l → ∀ hi : i < (ordered lens l).length,
    h.symbol (HuffmanDecoder.bucketOffset h.count l + i) = (ordered lens l)[i]
  lut : ∀ idx < LUT_SIZE, RightEntry lens idx (h.lut idx)

/-- A used symbol whose codeword the table index covers. -/
def Short (lens : List ℕ) (s : ℕ) : Prop :=
  s < lens.length ∧ 0 < lens.getD s 0 ∧ lens.getD s 0 ≤ LUT_BITS

/-- Whether a symbol has a short code can be decided. -/
instance (lens : List ℕ) (s : ℕ) : Decidable (Short lens s) :=
  inferInstanceAs (Decidable (_ ∧ _))

/-- The first index that a symbol's entry is stored at. Its code is the canonical one, shifted by
the unused symbols. -/
def firstIndex (lens : List ℕ) (unused s : ℕ) : ℕ :=
  reverseBits (code lens s + unused * 2 ^ lens.getD s 0) (lens.getD s 0)

/-- The first index starts with the codeword, whatever the code holds above its length. -/
theorem firstIndex_mod {lens : List ℕ} {s : ℕ} (unused : ℕ) (hs : lens.getD s 0 ≤ 16) :
    firstIndex lens unused s % 2 ^ lens.getD s 0 = ofLsb (codeword lens s) := by
  rw [firstIndex, reverseBits_mod _ hs, codeword, ← msb_mod, Nat.add_mul_mod_self_right, msb_mod]

/-- What the table holds once the symbols below `n` have been entered: from its first index on, the
entry of a short symbol is at every index that starts with its codeword. -/
def Entered (lens : List ℕ) (unused n : ℕ) (lut : ℕ → ℕ) : Prop :=
  ∀ idx < LUT_SIZE,
    (∃ s < n, Short lens s ∧ idx % 2 ^ lens.getD s 0 = ofLsb (codeword lens s) ∧
      firstIndex lens unused s ≤ idx ∧ lut idx = lutPack s (lens.getD s 0)) ∨
    (lut idx = 0 ∧ ∀ s < n, Short lens s → idx % 2 ^ lens.getD s 0 = ofLsb (codeword lens s) →
      idx < firstIndex lens unused s)

/-- A symbol without a short codeword leaves the table as it is. -/
theorem Entered.skip {lens : List ℕ} {unused n : ℕ} {lut : ℕ → ℕ} (h : Entered lens unused n lut)
    (hn : ¬Short lens n) : Entered lens unused (n + 1) lut := by
  intro idx hidx
  rcases h idx hidx with ⟨s, hs, hold⟩ | ⟨hzero, hnone⟩
  · exact Or.inl ⟨s, by omega, hold⟩
  · refine Or.inr ⟨hzero, fun s hs hshort => ?_⟩
    rcases Nat.lt_succ_iff_lt_or_eq.mp hs with hlt | rfl
    · exact hnone s hlt hshort
    · exact absurd hshort hn

/-- The strided fill enters a short symbol. -/
theorem Entered.fill {lens : List ℕ} {unused n : ℕ} {lut : ℕ → ℕ} (h : Entered lens unused n lut)
    (hn : Short lens n) :
    Entered lens unused (n + 1) (HuffmanDecoder.fillStride LUT_SIZE (lutPack n (lens.getD n 0))
      (1 <<< lens.getD n 0) LUT_SIZE (firstIndex lens unused n) lut) := by
  have h9 : LUT_BITS = 9 := rfl
  have hmod := @firstIndex_mod lens n unused (by have := hn.2.2; omega)
  intro idx hidx
  rw [HuffmanDecoder.fillStride_apply, Nat.one_shiftLeft]
  split
  · next hmem =>
    obtain ⟨-, k, -, rfl⟩ := hmem
    refine Or.inl ⟨n, Nat.lt_succ_self n, hn, ?_, Nat.le_add_right _ _, rfl⟩
    rw [Nat.add_mul_mod_self_right, hmod]
  · next hmem =>
    have hbelow (hidx' : idx % 2 ^ lens.getD n 0 = ofLsb (codeword lens n)) :
        idx < firstIndex lens unused n := by
      by_contra hge
      generalize 2 ^ lens.getD n 0 = stride at hmod hidx' hmem
      have hidxdiv := Nat.div_add_mod' idx stride
      have hfirstdiv := Nat.div_add_mod' (firstIndex lens unused n) stride
      have hdiv : firstIndex lens unused n / stride ≤ idx / stride :=
        Nat.div_le_div_right (by omega)
      have hle : idx / stride ≤ idx := Nat.div_le_self _ _
      refine hmem ⟨hidx, idx / stride - firstIndex lens unused n / stride,
        Nat.lt_of_le_of_lt ((Nat.sub_le _ _).trans hle) hidx, ?_⟩
      rw [Nat.sub_mul]
      have hmul := Nat.mul_le_mul_right stride hdiv
      omega
    rcases h idx hidx with ⟨s, hs, hold⟩ | ⟨hzero, hnone⟩
    · exact Or.inl ⟨s, by omega, hold⟩
    · refine Or.inr ⟨hzero, fun s hs hshort hstart => ?_⟩
      rcases Nat.lt_succ_iff_lt_or_eq.mp hs with hlt | rfl
      · exact hnone s hlt hshort hstart
      · exact hbelow hstart

/-- The loop over the symbols enters them all. -/
theorem fillLut_entered {lens : List ℕ} {count : ℕ → ℕ}
    (hcount : ∀ l, 0 < l → count l = lens.count l) (suffix pre : List ℕ) (next lut : ℕ → ℕ)
    (hlens : lens = pre ++ suffix)
    (hnext : ∀ l, 0 < l → l ≤ LUT_BITS → next l = nextCodes count l + pre.count l)
    (hlut : Entered lens (count 0) pre.length lut) :
    Entered lens (count 0) lens.length (fillLut suffix pre.length next lut) := by
  induction suffix generalizing pre next lut with
  | nil =>
    rw [hlens, List.append_nil] at hlut ⊢
    exact hlut
  | cons len suffix ih =>
    have hlens' : lens = (pre ++ [len]) ++ suffix := by simp [hlens]
    have hget : lens.getD pre.length 0 = len := by simp [hlens]
    have htake : lens.take pre.length = pre := by simp [hlens]
    have hlt : pre.length < lens.length := by simp [hlens]
    have hlength : (pre ++ [len]).length = pre.length + 1 := by simp
    have hcountOther (l : ℕ) (h : l ≠ len) : (pre ++ [len]).count l = pre.count l := by
      rw [List.count_append, List.count_singleton]
      simp [Ne.symm h]
    rw [fillLut, ← hlength]
    by_cases hskip : len = 0 ∨ LUT_BITS < len
    · rw [if_pos hskip]
      refine ih (pre ++ [len]) next lut hlens' (fun l hl hle => ?_) ?_
      · rw [hnext l hl hle, hcountOther l (by omega)]
      · rw [hlength]
        apply hlut.skip
        rintro ⟨-, hpos, hle⟩
        omega
    · rw [if_neg hskip]
      have hpos : 0 < len := by omega
      have hle : len ≤ LUT_BITS := by omega
      -- The code counter is the codeword, give or take bits above its length.
      have hbase : reverseBits (next len) len = firstIndex lens (count 0) pre.length := by
        rw [firstIndex, hget, hnext len hpos hle, nextCodes_eq hcount hpos, code, hget, htake,
          Nat.add_right_comm]
      refine ih (pre ++ [len]) _ _ hlens' (fun l hl hle' => ?_) ?_
      · rw [Function.update_apply]
        by_cases hll : l = len
        · subst l
          rw [if_pos rfl, hnext len hpos hle, List.count_append, List.count_singleton]
          simp
          omega
        · rw [if_neg hll, hnext l hl hle', hcountOther l hll]
      · have hfill := hlut.fill ⟨hlt, by rwa [hget], by rwa [hget]⟩
        rw [hget] at hfill
        rw [hlength, hbase]
        exact hfill

/-- The table of a code. -/
theorem fillLut_nil_entered {lens : List ℕ} {count : ℕ → ℕ}
    (hcount : ∀ l, 0 < l → count l = lens.count l) :
    Entered lens (count 0) lens.length (fillLut lens 0 (nextCodes count) (fun _ => 0)) := by
  apply fillLut_entered hcount lens [] _ _ rfl
  · simp
  · intro idx _
    exact Or.inr ⟨rfl, by simp⟩

/-- The table holds right entries only. -/
theorem Entered.right {lens : List ℕ} {unused n : ℕ} {lut : ℕ → ℕ} (h : Entered lens unused n lut)
    {idx : ℕ} (hidx : idx < LUT_SIZE) : RightEntry lens idx (lut idx) := by
  rcases h idx hidx with ⟨s, -, ⟨hs, hpos, hle⟩, hstart, -, hentry⟩ | ⟨hzero, -⟩
  · exact Or.inr ⟨s, hs, hpos, hle, hstart, hentry⟩
  · exact Or.inl hzero

/-- Building succeeds exactly on the prefix codes. -/
theorem construct_cases (lens : List ℕ) :
    (PrefixCode lens ∧ ∃ h, construct lens = .ok h ∧ Implements h lens) ∨
    (¬PrefixCode lens ∧ ∃ e, construct lens = .error e ∧ e ≠ .outOfFuel) := by
  unfold construct
  rcases HuffmanDecoder.countLengths_eq "code length exceeds 15" lens (fun _ => 0) with
    ⟨count, hok, hle, hcount⟩ | ⟨herr, l, hl, hlt⟩
  swap
  · refine Or.inr ⟨fun h => ?_, _, by rw [herr], by simp⟩
    have := h.1 l hl
    have : MAX_CODE_LEN = 15 := rfl
    omega
  have hcounts : ∀ l, 0 < l → count l = lens.count l := fun l _ => by
    rw [hcount, Nat.zero_add]
  simp only [hok]
  by_cases hunused : count 0 = lens.length
  · rw [if_pos hunused]
    have hall : ∀ l ∈ lens, l = 0 := by
      rw [hcount, Nat.zero_add] at hunused
      intro l hl
      exact (List.count_eq_length.mp hunused l hl).symm
    have hnone : ∀ l, 0 < l → lens.count l = 0 := by
      intro l hl
      rw [List.count_eq_zero]
      intro hmem
      have := hall l hmem
      omega
    have hfilled : ∀ l, filled lens l = 0 := by
      intro l
      induction l with
      | zero => rfl
      | succ l ih => rw [filled, ih, hnone (l + 1) (by omega)]
    have hcode : PrefixCode lens := ⟨hle, by rw [Kraft, hfilled]; exact Nat.zero_le _⟩
    refine Or.inl ⟨hcode, _, rfl, hcode, hcounts, fun l i hl hi => ?_, fun _ _ => Or.inl rfl⟩
    rw [ordered_length, hnone l hl] at hi
    omega
  · rw [if_neg hunused]
    rcases checkLeft_range hcounts 0 15 (Nat.zero_le _) with ⟨left, hcheck, hkraft⟩ |
      ⟨hcheck, hover⟩
    · have hcheck' : checkLeft count (List.range' 1 MAXBITS) 1 = .ok left := hcheck
      rw [hcheck']
      have hcode : PrefixCode lens := ⟨hle, hkraft⟩
      refine Or.inl ⟨hcode, _, rfl, hcode, hcounts, fun l i hl hi => ?_, ?_⟩
      · exact HuffmanDecoder.sortSyms_ordered hcounts hl hi
      · exact fun idx hidx => (fillLut_nil_entered hcounts).right hidx
    · have hcheck' : checkLeft count (List.range' 1 MAXBITS) 1 = _ := hcheck
      rw [hcheck']
      refine Or.inr ⟨fun h => ?_, _, rfl, by simp⟩
      have hkraft : filled lens 15 ≤ 2 ^ 15 := h.2
      rw [Nat.zero_add] at hover
      omega

/-! ## Refills -/

/-- The reader has the bits `bs` left, and its word holds `n` of them or all of them. -/
def Ready (br : BitReader) (input : List UInt8) (bs : List Bool) (n : ℕ) : Prop :=
  (∃ p, br.Reads input p ∧ bs = (LsbBits.bits input).drop p) ∧ (n ≤ br.bits ∨ br.bits = bs.length)

variable {br : BitReader} {input : List UInt8} {bs rest : List Bool} {n : ℕ}

/-- The valid bits are among the remaining ones. -/
theorem Ready.bits_le (h : Ready br input bs n) : br.bits ≤ bs.length := by
  obtain ⟨⟨p, hr, rfl⟩, -⟩ := h
  have := hr.pos_le
  simp
  omega

/-- A reader that is ready for many bits is ready for fewer. -/
theorem Ready.mono {m : ℕ} (h : Ready br input bs n) (hle : m ≤ n) : Ready br input bs m := by
  obtain ⟨hr, hbits | hbits⟩ := h
  · exact ⟨hr, Or.inl (by omega)⟩
  · exact ⟨hr, Or.inr hbits⟩

/-- Loading bytes ends with a full word or at the end of the input. -/
theorem loadBytes_reads (rounds : ℕ) {p : ℕ} (hr : br.Reads input p)
    (hrounds : 57 ≤ br.bits + 8 * rounds) :
    (loadBytes rounds br).Reads input p ∧
      (57 ≤ (loadBytes rounds br).bits ∨ (loadBytes rounds br).bytePos = input.length) := by
  induction rounds generalizing br with
  | zero => exact ⟨hr, Or.inl (by simpa [loadBytes] using hrounds)⟩
  | succ rounds ih =>
    rw [loadBytes]
    by_cases hmore : br.bits + 8 ≤ 64 ∧ br.bytePos < br.input.length
    · rw [if_pos hmore]
      have hroom := hmore.2
      rw [hr.input_eq] at hroom
      exact ih (hr.pushByte hroom (by omega)) (by rw [BitReader.pushByte_bits]; omega)
    · rw [if_neg hmore]
      have hle := hr.acc.bytePos_le
      rw [hr.input_eq] at hmore
      exact ⟨hr, by omega⟩

/-- A refill makes a reader ready for symbols. -/
theorem refillBelow_ready {p : ℕ} (hr : br.Reads input p) (threshold : ℕ)
    (hthreshold : threshold ≤ 56) :
    Ready (refillBelow threshold br) input ((LsbBits.bits input).drop p) threshold := by
  unfold refillBelow
  by_cases henough : threshold ≤ br.bits
  · rw [if_pos henough]
    exact ⟨⟨p, hr, rfl⟩, Or.inl henough⟩
  rw [if_neg henough]
  by_cases hwide : br.bytePos + 8 ≤ br.input.length
  · rw [if_pos hwide]
    refine ⟨⟨p, hr.refillFast hwide, rfl⟩, Or.inl ?_⟩
    rw [BitReader.refillFast_bits]
    omega
  · rw [if_neg hwide]
    obtain ⟨hr', hbits⟩ := loadBytes_reads 8 hr (by omega)
    have htell := hr'.acc.tell
    refine ⟨⟨p, hr', rfl⟩, ?_⟩
    rcases hbits with hfull | hend
    · exact Or.inl (by omega)
    · apply Or.inr
      rw [List.length_drop, bits_length]
      omega

end SafeInflate

end RustyRapidgzip
