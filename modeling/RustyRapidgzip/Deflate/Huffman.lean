import RustyRapidgzip.Deflate.BitReader
import RustyRapidgzip.Deflate.Tables
import RustyRapidgzip.Lib.Canonical
import Mathlib.Logic.Function.Basic

/-!
# Huffman decoders

`buildInto` turns code lengths into a table indexed by the next ten bits and a
list of the longer codes. Each entry packs the code length with what the symbol
means to the caller: the symbol itself, a literal or length, or a distance.
-/

namespace RustyRapidgzip

open LsbBits Canonical

/-- The number of bits that index the table. -/
def LUT_BITS : ℕ := 10

/-- The number of table entries. -/
def LUT_SIZE : ℕ := 1 <<< LUT_BITS

/-- The longest code. -/
def MAX_CODE_LEN : ℕ := 15

/-- The entry is a literal. -/
def HUFFDEC_LITERAL : ℕ := 1 <<< 31

/-- The entry is the end of a block or a reserved symbol. -/
def HUFFDEC_EXCEPTIONAL : ℕ := 1 <<< 15

/-- What the entries of a table carry. -/
inductive Encoding where
  | simple
  | litLen
  | dist
  deriving DecidableEq, Repr

/-- A code longer than the table index. -/
structure LongCode where
  reversed : ℕ
  length : ℕ
  entry : ℕ
  deriving DecidableEq, Repr

/-- A decoder. The table is a function of the index below `LUT_SIZE`. -/
structure HuffmanDecoder where
  lut : ℕ → ℕ
  longCodes : List LongCode

/-- Pack a symbol and its code length. -/
def encodeEntry (sym length : ℕ) : Encoding → ℕ
  | .simple => sym <<< 16 ||| length
  | .litLen =>
    if sym < 256 then HUFFDEC_LITERAL ||| sym <<< 16 ||| length
    else if sym = 256 then HUFFDEC_EXCEPTIONAL ||| length
    else if sym ≤ 285 then
      let li := sym - 257
      LENGTH_BASE.getD li 0 <<< 16 ||| LENGTH_EXTRA.getD li 0 <<< 8 ||| length
    else HUFFDEC_EXCEPTIONAL ||| sym <<< 16 ||| length
  | .dist =>
    if sym ≤ 29 then
      DISTANCE_BASE.getD sym 0 <<< 16 ||| DISTANCE_EXTRA.getD sym 0 <<< 8 ||| length
    else HUFFDEC_EXCEPTIONAL ||| length

namespace HuffmanDecoder

/-- Count the code lengths, of which none may exceed 15. -/
def countLengths (msg : String) : List ℕ → (ℕ → ℕ) → Except DeflateError (ℕ → ℕ)
  | [], counts => .ok counts
  | l :: lengths, counts =>
    if MAX_CODE_LEN < l then .error (.invalid msg)
    else countLengths msg lengths (Function.update counts l (counts l + 1))

/-- The histogram of the code lengths. -/
def blCount (lengths : List ℕ) : Except DeflateError (ℕ → ℕ) :=
  countLengths "huffman code length > 15" lengths (fun _ => 0)

/-- The share of the code space in use, in units of the longest codeword. -/
def kraftTotal (counts : ℕ → ℕ) : ℕ :=
  ((List.range' 1 MAX_CODE_LEN).map (fun l => counts l <<< (MAX_CODE_LEN - l))).sum

/-- The number of symbols in use. -/
def nSymbols (counts : ℕ → ℕ) : ℕ := ((List.range' 1 MAX_CODE_LEN).map counts).sum

/-- Where the symbols of a length start in the sorted order. -/
def bucketOffset (counts : ℕ → ℕ) : ℕ → ℕ
  | 0 => 0
  | 1 => 0
  | l + 2 => bucketOffset counts (l + 1) + counts (l + 1)

/-- The counting sort: place each used symbol at its length's cursor. -/
def sortSyms : List ℕ → ℕ → (ℕ → ℕ) → (ℕ → ℕ) → ℕ → ℕ
  | [], _, _, sorted => sorted
  | l :: lengths, sym, cursors, sorted =>
    if l ≠ 0 then
      sortSyms lengths (sym + 1) (Function.update cursors l (cursors l + 1))
        (Function.update sorted (cursors l) sym)
    else sortSyms lengths (sym + 1) cursors sorted

/-- `while idx < size`, store the entry and advance by the stride. -/
def fillStride (size entry stride : ℕ) : ℕ → ℕ → (ℕ → ℕ) → ℕ → ℕ
  | 0, _, lut => lut
  | rounds + 1, idx, lut =>
    if idx < size then
      fillStride size entry stride rounds (idx + stride) (Function.update lut idx entry)
    else lut

/-- The variables of the emission loops. -/
structure BuildState where
  lut : ℕ → ℕ
  longCodes : List LongCode
  rev : ℕ
  start : ℕ

/-- The next bit-reversed codeword of length `l`. -/
def nextRev (l rev : ℕ) : ℕ := carry l rev (1 <<< (l - 1))

/-- Enter the `i`-th symbol of length `l`. -/
def emitSym (encoding : Encoding) (sortedSyms : ℕ → ℕ) (l count : ℕ) (st : BuildState) (i : ℕ) :
    BuildState :=
  let entry := encodeEntry (sortedSyms (st.start + i)) l encoding
  let st : BuildState :=
    if l ≤ LUT_BITS then
      { st with lut := fillStride LUT_SIZE entry (1 <<< l) LUT_SIZE st.rev st.lut }
    else { st with longCodes := st.longCodes ++ [⟨st.rev, l, entry⟩] }
  if i + 1 < count then { st with rev := nextRev l st.rev } else st

/-- Enter the symbols of length `l`. -/
def emitLength (encoding : Encoding) (counts sortedSyms : ℕ → ℕ) (st : BuildState) (l : ℕ) :
    BuildState :=
  let count := counts l
  let st := (List.range count).foldl (emitSym encoding sortedSyms l count) st
  { st with
    start := st.start + count
    rev := if 0 < count then nextRev l st.rev else st.rev }

/-- Build a decoder from code lengths. -/
def buildInto (lengths : List ℕ) (strict : Bool) (encoding : Encoding) :
    Except DeflateError HuffmanDecoder :=
  match blCount lengths with
  | .error e => .error e
  | .ok counts =>
    let counts := Function.update counts 0 0
    let total := kraftTotal counts
    let full := 1 <<< MAX_CODE_LEN
    let n := nSymbols counts
    if 2 ≤ n ∧ full < total then .error (.invalid "oversubscribed huffman tree")
    else if strict ∧ 2 ≤ n ∧ total ≠ full then
      .error (.invalid "incomplete huffman tree (strict)")
    else
      let sortedSyms := sortSyms lengths 0 (bucketOffset counts) (fun _ => 0)
      let st := (List.range' 1 MAX_CODE_LEN).foldl (emitLength encoding counts sortedSyms)
        ⟨fun _ => 0, [], 0, 0⟩
      .ok ⟨st.lut, st.longCodes⟩

/-- A decoder of plain symbols. -/
def fromLengths (lengths : List ℕ) : Except DeflateError HuffmanDecoder :=
  buildInto lengths false .simple

/-- A decoder of plain symbols whose code must be complete. -/
def fromLengthsStrict (lengths : List ℕ) : Except DeflateError HuffmanDecoder :=
  buildInto lengths true .simple

/-- A literal/length decoder. -/
def fromLengthsLitlen (lengths : List ℕ) : Except DeflateError HuffmanDecoder :=
  buildInto lengths false .litLen

/-- A distance decoder. -/
def fromLengthsDist (lengths : List ℕ) : Except DeflateError HuffmanDecoder :=
  buildInto lengths false .dist

/-- Search the long codes. -/
def lookupLong (d : HuffmanDecoder) (br : BitReader) : Except DeflateError (ℕ × BitReader) :=
  match br.peek MAX_CODE_LEN with
  | .error e => .error e
  | .ok (bits, br) =>
    match d.longCodes.find? (fun c => bits &&& (1 <<< c.length - 1) == c.reversed) with
    | some c => .ok (c.entry, br.consume c.length)
    | none => .error (.invalid "no matching huffman code")

/-- The entry of the next symbol, when the word already holds enough bits. -/
def lookupFilled (d : HuffmanDecoder) (br : BitReader) : Except DeflateError (ℕ × BitReader) :=
  let entry := d.lut (br.peekBitsUnchecked LUT_BITS)
  let length := entry &&& 0xff
  if length = 0 then d.lookupLong br else .ok (entry, br.consume length)

/-- The entry of the next symbol. -/
def lookup (d : HuffmanDecoder) (br : BitReader) : Except DeflateError (ℕ × BitReader) :=
  match br.peek LUT_BITS with
  | .error e => .error e
  | .ok (peeked, br) =>
    let entry := d.lut peeked
    let length := entry &&& 0xff
    if length = 0 then d.lookupLong br else .ok (entry, br.consume length)

/-- The next symbol of a plain decoder. -/
def decode (d : HuffmanDecoder) (br : BitReader) : Except DeflateError (ℕ × BitReader) :=
  match d.lookup br with
  | .error e => .error e
  | .ok (entry, br) => .ok (entry >>> 16, br)

end HuffmanDecoder

end RustyRapidgzip
