import RustyRapidgzip.Deflate.Unbounded
import RustyRapidgzip.Deflate.SideTable
import RustyRapidgzip.Lib.Traced

/-!
# The bit accumulator of the kernels

The kernels count the valid bits of their word by hand: a refill ORs in eight bytes whatever the
word holds and advances by the whole bytes that fit, and symbols and extra bits are shifted out
without a check. Here every refill, mask and shift is recorded. Wherever a kernel gets on a run
over the blocks of an input, a refill meets a word that is not full and leaves one that shows the
stream, and no mask or shift exceeds the valid bits.
-/

namespace RustyRapidgzip

open LsbBits Reference HuffmanDecoder Lz

namespace Accumulator

/-- What a kernel does with its word: a refill before and after, a mask of the low bits, or a shift
by consumed bits. -/
inductive BitAccess where
  | refill (br : BitReader)
  | refilled (br : BitReader)
  | mask (bits k : ℕ)
  | consume (bits k : ℕ)
  deriving DecidableEq, Repr

/-- The word shows the stream from the reader's position: its valid bits are the next ones, and so
is every bit above them that is set, so that ORing in the next load makes the whole word stream
bits. -/
structure Shows (input : List UInt8) (br : BitReader) : Prop where
  reads : br.Reads input (8 * br.bytePos - br.bits)
  load : ∀ i < 64, (br.buf ||| (loadLeU64 input br.bytePos <<< br.bits) % 2 ^ 64).testBit i =
    bitAt input (8 * br.bytePos - br.bits + i)

/-- What the kernels rely on. -/
def Sound (input : List UInt8) : BitAccess → Prop
  | .refill br => br.bits ≤ 63
  | .refilled br => Shows input br
  | .mask bits k => k ≤ bits
  | .consume bits k => k ≤ bits

/-- A computation that records what it does with the word. -/
abbrev Kernel : Type → Type := Traced BitAccess DeflateError

/-! ## Parts of the kernels -/

/-- The refill of the kernels. -/
def refillKernel (br : BitReader) : Kernel BitReader := do
  Traced.tell (.refill br)
  let br ← Traced.lift br.refillKernel
  Traced.tell (.refilled br)
  pure br

/-- Refill where bits run low. -/
def refillIf (c : Prop) [Decidable c] (br : BitReader) : Kernel BitReader :=
  if c then refillKernel br else pure br

/-- Search the long codes: the word goes to the reader and comes back. -/
def lookupLong (d : HuffmanDecoder) (br : BitReader) : Kernel (ℕ × BitReader) := do
  Traced.tell (.refill br)
  let (bits, br) ← Traced.lift (br.peek MAX_CODE_LEN)
  Traced.tell (.refilled br)
  Traced.tell (.mask br.bits MAX_CODE_LEN)
  match d.longCodes.find? (fun c => bits &&& (1 <<< c.length - 1) == c.reversed) with
  | some c => do
    Traced.tell (.consume br.bits c.length)
    pure (c.entry, br.consume c.length)
  | none => Traced.fail (.invalid "no matching huffman code")

/-- The entry of the next symbol. -/
def lookupFilled (d : HuffmanDecoder) (br : BitReader) : Kernel (ℕ × BitReader) := do
  Traced.tell (.mask br.bits LUT_BITS)
  let entry := d.lut (br.peekBitsUnchecked LUT_BITS)
  let length := entry &&& 0xff
  if length = 0 then lookupLong d br
  else do
    Traced.tell (.consume br.bits length)
    pure (entry, br.consume length)

/-- A base plus extra bits. -/
def takeExtra (br : BitReader) (base extra : ℕ) : Kernel (ℕ × BitReader) :=
  if 0 < extra then do
    Traced.tell (.mask br.bits extra)
    Traced.tell (.consume br.bits extra)
    pure (base + br.peekBitsUnchecked extra, br.consume extra)
  else pure (base, br)

/-- The length of a length entry. -/
def lengthOf (entry : ℕ) (br : BitReader) : Kernel (ℕ × BitReader) :=
  takeExtra br ((entry >>> 16) &&& 0x1ff) ((entry >>> 8) &&& 0x1f)

/-- The distance symbol and its extra bits. -/
def distanceOf (dist : HuffmanDecoder) (br : BitReader) : Kernel (ℕ × BitReader) := do
  let (dentry, br) ← lookupFilled dist br
  if dentry &&& HUFFDEC_EXCEPTIONAL ≠ 0 then
    Traced.fail (.invalid "distance symbol out of range")
  else takeExtra br (dentry >>> 16) ((dentry >>> 8) &&& 0x1f)

section Kernels

variable {τ : Type}

/-- Read a distance and resolve the copy of the given length. -/
def copyMatch (resolve : τ → ℕ → ℕ → Except DeflateError τ) (dist : HuffmanDecoder)
    (length : ℕ) (out : τ) (br : BitReader) : Kernel (τ × BitReader) := do
  let (distance, br) ← distanceOf dist br
  let out ← Traced.lift (resolve out distance length)
  pure (out, br)

/-- Act on an entry that is no literal. -/
def symbolTail (resolve : τ → ℕ → ℕ → Except DeflateError τ) (dist : HuffmanDecoder)
    (entry : ℕ) (out : τ) (br : BitReader) : Kernel ((τ × BitReader) ⊕ (τ × BitReader)) :=
  if entry &&& HUFFDEC_EXCEPTIONAL ≠ 0 then
    if entry >>> 16 = 0 then pure (.inr (out, br))
    else Traced.fail (.invalid "literal/length symbol out of range")
  else do
    let (length, br) ← lengthOf entry br
    let s ← copyMatch resolve dist length out br
    pure (.inl s)

/-! ## The kernels -/

/-- One round of `decode_compressed`, over outputs that bytes are pushed to. -/
def round (push : τ → List UInt8 → τ) (resolve : τ → ℕ → ℕ → Except DeflateError τ)
    (lit dist : HuffmanDecoder) (s : τ × BitReader) :
    Kernel ((τ × BitReader) ⊕ (τ × BitReader)) := do
  let br ← refillKernel s.2
  let (entry, br) ← lookupFilled lit br
  if entry &&& HUFFDEC_LITERAL ≠ 0 then do
    Traced.tell (.mask br.bits LUT_BITS)
    let e2 := lit.lut (br.peekBitsUnchecked LUT_BITS)
    let len2 := e2 &&& 0xff
    if len2 ≠ 0 ∧ e2 &&& HUFFDEC_LITERAL ≠ 0 then do
      Traced.tell (.consume br.bits len2)
      pure (.inl (push s.1 [UInt8.ofNat (entry >>> 16), UInt8.ofNat (e2 >>> 16)],
        br.consume len2))
    else pure (.inl (push s.1 [UInt8.ofNat (entry >>> 16)], br))
  else symbolTail resolve dist entry s.1 br

/-- `decode_compressed`. -/
def decodeCompressed (push : τ → List UInt8 → τ) (resolve : τ → ℕ → ℕ → Except DeflateError τ)
    (lit dist : HuffmanDecoder) (out : τ) (br : BitReader) : Kernel (τ × BitReader) :=
  Traced.iterate .outOfFuel (round push resolve lit dist) (8 * br.input.length + 1) (out, br)

end Kernels

open Unbounded (State LIT_GUARD)

/-- Refill, then read a distance and copy. -/
def decodeDistanceAndCopy (dist : HuffmanDecoder) (length : ℕ) (out : List UInt8)
    (br : BitReader) : Kernel (List UInt8 × BitReader) := do
  let br ← refillKernel br
  copyMatch Unbounded.resolve dist length out br

/-- Act on a symbol whose code did not fit the table. -/
def longSymbol (dist : HuffmanDecoder) (e : ℕ) (out : List UInt8) (br : BitReader) :
    Kernel (State ⊕ (List UInt8 × BitReader)) :=
  if e &&& HUFFDEC_LITERAL ≠ 0 then pure (.inl ⟨none, out ++ [UInt8.ofNat (e >>> 16)], br⟩)
  else if e &&& HUFFDEC_EXCEPTIONAL ≠ 0 then
    if e >>> 16 = 0 then pure (.inr (out, br))
    else Traced.fail (.invalid "literal/length symbol out of range")
  else do
    let br ← refillIf (0 < (e >>> 8) &&& 0x1f) br
    let (length, br) ← lengthOf e br
    let (out, br) ← decodeDistanceAndCopy dist length out br
    pure (.inl ⟨none, out, br⟩)

/-- Act on a loaded entry that is neither a literal nor empty. -/
def shortSymbol (dist : HuffmanDecoder) (entry : ℕ) (out : List UInt8) (br : BitReader) :
    Kernel (State ⊕ (List UInt8 × BitReader)) := do
  Traced.tell (.consume br.bits (entry &&& 0xff))
  let br := br.consume (entry &&& 0xff)
  if entry &&& HUFFDEC_EXCEPTIONAL ≠ 0 then
    if entry >>> 16 = 0 then pure (.inr (out, br))
    else Traced.fail (.invalid "literal/length symbol out of range")
  else do
    let (length, br) ← lengthOf entry br
    let br ← refillIf (br.bits < 28) br
    let (out, br) ← copyMatch FastInflate.resolve dist length out br
    pure (.inl ⟨none, out, br⟩)

/-- Load an entry without consuming its code. -/
def load (lit : HuffmanDecoder) (out : List UInt8) (br : BitReader) :
    Kernel (State ⊕ (List UInt8 × BitReader)) := do
  Traced.tell (.mask br.bits LUT_BITS)
  pure (.inl ⟨some (lit.lut (br.peekBitsUnchecked LUT_BITS)), out, br⟩)

/-- One step of `decode_compressed_preload`. -/
def preloadRound (lit dist : HuffmanDecoder) (s : State) :
    Kernel (State ⊕ (List UInt8 × BitReader)) :=
  match s.loaded with
  | none => do
    let br ← refillKernel s.br
    load lit s.out br
  | some entry =>
    if entry &&& HUFFDEC_LITERAL ≠ 0 then do
      Traced.tell (.consume s.br.bits (entry &&& 0xff))
      let br := s.br.consume (entry &&& 0xff)
      let br ← refillIf (br.bits < LIT_GUARD) br
      load lit (s.out ++ [UInt8.ofNat (entry >>> 16)]) br
    else if entry &&& 0xff = 0 then do
      let (e, br) ← lookupLong lit s.br
      longSymbol dist e s.out br
    else shortSymbol dist entry s.out s.br

/-- `decode_compressed_preload`. -/
def decodeCompressedPreload (lit dist : HuffmanDecoder) (out : List UInt8) (br : BitReader) :
    Kernel (List UInt8 × BitReader) :=
  Traced.iterate .outOfFuel (preloadRound lit dist) (2 * (8 * br.input.length) + 2)
    ⟨none, out, br⟩

/-! ## Runs over blocks -/

section Runs

variable {ω τ ρ : Type}

/-- The contents of a block of the given type: its bytes, or its codes and its symbols. -/
def decodeContents (stored : τ → BitReader → Traced ω DeflateError (τ × BitReader))
    (kernel : HuffmanDecoder → HuffmanDecoder → τ → BitReader →
      Traced ω DeflateError (τ × BitReader)) (btype : ℕ) (t : τ) (br : BitReader) :
    Traced ω DeflateError (τ × BitReader) :=
  if btype = 0 then stored t br
  else do
    let ((lit, dist), br) ← Traced.lift (blockTrees btype br)
    kernel lit dist t br

/-- Decode one block. -/
def decodeOneBlock (stored : τ → BitReader → Traced ω DeflateError (τ × BitReader))
    (kernel : HuffmanDecoder → HuffmanDecoder → τ → BitReader →
      Traced ω DeflateError (τ × BitReader)) (t : τ) (br : BitReader) :
    Traced ω DeflateError ((Bool × τ) × BitReader) := do
  let (bfinal, br) ← Traced.lift (br.read 1)
  let (btype, br) ← Traced.lift (br.read 2)
  let (t, br) ← decodeContents stored kernel btype t br
  pure ((bfinal != 0, t), br)

/-- Leave a run of blocks with what `leave` says, or go on with the next block. -/
def next (leave : (Bool × τ) × BitReader → Option ρ) (r : (Bool × τ) × BitReader) :
    (τ × BitReader) ⊕ ρ :=
  match leave r with
  | some x => .inr x
  | none => .inl (r.1.2, r.2)

/-- Decode blocks until `leave` says how the run ends. -/
def runBlocks (stored : τ → BitReader → Traced ω DeflateError (τ × BitReader))
    (kernel : HuffmanDecoder → HuffmanDecoder → τ → BitReader →
      Traced ω DeflateError (τ × BitReader)) (leave : (Bool × τ) × BitReader → Option ρ) (t : τ)
    (br : BitReader) : Traced ω DeflateError ρ :=
  Traced.iterate .outOfFuel (fun s => do
    let r ← decodeOneBlock stored kernel s.1 s.2
    pure (next leave r)) (8 * br.input.length + 1) (t, br)

/-- Decode blocks from a bit position. -/
def decodeBlocks (stored : τ → BitReader → Traced ω DeflateError (τ × BitReader))
    (kernel : HuffmanDecoder → HuffmanDecoder → τ → BitReader →
      Traced ω DeflateError (τ × BitReader)) (leave : (Bool × τ) × BitReader → Option ρ)
    (input : List UInt8) (startBit : ℕ) (t : τ) : Traced ω DeflateError ρ := do
  let br ← Traced.lift ((BitReader.new input).seekToBit startBit)
  runBlocks stored kernel leave t br

end Runs

/-- Leave a run after the final block, or after the first one that ends at or after the hint. -/
def leaveAt {τ : Type} (endBitHint : ℕ) (r : (Bool × τ) × BitReader) :
    Option ((ℕ × Bool) × τ) :=
  if r.1.1 then some ((r.2.tellBit, true), r.1.2)
  else if endBitHint ≤ r.2.tellBit then some ((r.2.tellBit, false), r.1.2)
  else none

/-- A run of the fast kernel. -/
def decodeMemberU8 (input : List UInt8) (startBit endBitHint : ℕ) (out : List UInt8) :
    Kernel ((ℕ × Bool) × List UInt8) :=
  decodeBlocks (fun out br => Traced.lift (decodeStored br out))
    (decodeCompressed (· ++ ·) FastInflate.resolve) (leaveAt endBitHint) input startBit out

/-- A run of the preload kernel. -/
def decodeMemberU8Preload (input : List UInt8) (startBit endBitHint : ℕ) (out : List UInt8) :
    Kernel ((ℕ × Bool) × List UInt8) :=
  decodeBlocks (fun out br => Traced.lift (decodeStored br out)) decodeCompressedPreload
    (leaveAt endBitHint) input startBit out

/-- A stored block beside the side table. -/
def pushStored (t : SideTable.Output) (br : BitReader) :
    Except DeflateError (SideTable.Output × BitReader) :=
  (decodeStored br t.bytes).map fun r => ({ t with bytes := r.1 }, r.2)

/-- A run of the fast kernel with the side table. -/
def decodeUntil (input : List UInt8) (startBit endBitHint : ℕ) (chunk : SpeculativeChunk) :
    Kernel ((ℕ × Bool) × SideTable.Output) :=
  let chunkBase := chunk.bytes.length
  decodeBlocks (fun t br => Traced.lift (pushStored t br))
    (decodeCompressed SideTable.Output.push (SideTable.resolve chunkBase)) (leaveAt endBitHint)
    input startBit ⟨chunk.bytes, ⟨[], none, 0, 0⟩⟩

/-! ## The records leave the results alone -/

section Results

variable {lit dist d : HuffmanDecoder} {br : BitReader}

/-- The recorded refill returns the refilled reader. -/
@[simp] theorem result_refillKernel : (refillKernel br).result = br.refillKernel := by
  simp only [refillKernel, Traced.result_bind, Traced.result_tell, Traced.result_lift]
  cases br.refillKernel <;> rfl

/-- The recorded refill on a condition refills on it. -/
@[simp] theorem result_refillIf (c : Prop) [Decidable c] :
    (refillIf c br).result = if c then br.refillKernel else .ok br := by
  unfold refillIf
  rw [Traced.result_ite, result_refillKernel]
  rfl

/-- The recorded scan of the long codes returns what the scan returns. -/
@[simp] theorem result_lookupLong : (lookupLong d br).result = d.lookupLong br := by
  unfold lookupLong HuffmanDecoder.lookupLong
  simp only [Traced.result_bind, Traced.result_tell, Traced.result_lift]
  cases br.peek MAX_CODE_LEN with
  | error e => rfl
  | ok r =>
    simp only [Traced.ok_bind]
    cases d.longCodes.find? (fun c => r.1 &&& (1 <<< c.length - 1) == c.reversed) <;> rfl

/-- The recorded lookup returns what the lookup returns. -/
@[simp] theorem result_lookupFilled : (lookupFilled d br).result = d.lookupFilled br := by
  unfold lookupFilled HuffmanDecoder.lookupFilled
  rw [Traced.result_bind, Traced.result_tell, Traced.ok_bind]
  rw [Traced.result_ite, result_lookupLong]
  rfl

/-- The recorded extra bits are the extra bits. -/
@[simp] theorem result_takeExtra (base extra : ℕ) :
    (takeExtra br base extra).result = .ok (br.takeExtra base extra) := by
  unfold takeExtra BitReader.takeExtra
  rw [Traced.result_ite]
  split <;> rfl

/-- The recorded length is the length. -/
@[simp] theorem result_lengthOf (entry : ℕ) :
    (lengthOf entry br).result = .ok (RustyRapidgzip.lengthOf entry br) := result_takeExtra _ _

/-- The recorded distance is the distance. -/
@[simp] theorem result_distanceOf :
    (distanceOf dist br).result = RustyRapidgzip.distanceOf dist br := by
  unfold distanceOf RustyRapidgzip.distanceOf
  rw [Traced.result_bind, result_lookupFilled]
  cases dist.lookupFilled br with
  | error e => rfl
  | ok r =>
    simp only [Traced.ok_bind]
    rw [Traced.result_ite, result_takeExtra]
    rfl

variable {τ : Type} {resolve : τ → ℕ → ℕ → Except DeflateError τ}

/-- The recorded match returns what the match returns. -/
@[simp] theorem result_copyMatch (length : ℕ) (out : τ) :
    (copyMatch resolve dist length out br).result =
      RustyRapidgzip.copyMatch resolve dist length out br := by
  unfold copyMatch RustyRapidgzip.copyMatch
  rw [Traced.result_bind, result_distanceOf]
  cases RustyRapidgzip.distanceOf dist br with
  | error e => rfl
  | ok r =>
    obtain ⟨distance, br⟩ := r
    simp only [Traced.ok_bind, Traced.result_bind, Traced.result_lift]
    cases resolve out distance length <;> rfl

/-- An entry that is no literal, as the kernels over bytes and over tables write it. -/
theorem result_symbolTail (entry : ℕ) (out : τ) :
    (symbolTail resolve dist entry out br).result =
      if entry &&& HUFFDEC_EXCEPTIONAL ≠ 0 then
        if entry >>> 16 = 0 then .ok (.inr (out, br))
        else .error (.invalid "literal/length symbol out of range")
      else (RustyRapidgzip.copyMatch resolve dist (RustyRapidgzip.lengthOf entry br).1 out
        (RustyRapidgzip.lengthOf entry br).2).map .inl := by
  unfold symbolTail
  rw [Traced.result_ite, Traced.result_ite, Traced.result_bind, result_lengthOf]
  simp only [Traced.ok_bind]
  rw [Traced.result_bind, result_copyMatch]
  cases RustyRapidgzip.copyMatch resolve dist (RustyRapidgzip.lengthOf entry br).1 out
    (RustyRapidgzip.lengthOf entry br).2 <;> rfl

/-- A round of the fast kernel, over any output. -/
theorem result_round (push : τ → List UInt8 → τ) (s : τ × BitReader) :
    (round push resolve lit dist s).result = s.2.refillKernel >>= fun br =>
      lit.lookupFilled br >>= fun r =>
        if r.1 &&& HUFFDEC_LITERAL ≠ 0 then
          if lit.lut (r.2.peekBitsUnchecked LUT_BITS) &&& 0xff ≠ 0 ∧
              lit.lut (r.2.peekBitsUnchecked LUT_BITS) &&& HUFFDEC_LITERAL ≠ 0 then
            .ok (.inl (push s.1 [UInt8.ofNat (r.1 >>> 16),
              UInt8.ofNat (lit.lut (r.2.peekBitsUnchecked LUT_BITS) >>> 16)],
              r.2.consume (lit.lut (r.2.peekBitsUnchecked LUT_BITS) &&& 0xff)))
          else .ok (.inl (push s.1 [UInt8.ofNat (r.1 >>> 16)], r.2))
        else (symbolTail resolve dist r.1 s.1 r.2).result := by
  unfold round
  rw [Traced.result_bind, result_refillKernel]
  cases s.2.refillKernel with
  | error e => rfl
  | ok br =>
    simp only [Traced.ok_bind]
    rw [Traced.result_bind, result_lookupFilled]
    cases lit.lookupFilled br with
    | error e => rfl
    | ok r =>
      obtain ⟨entry, br⟩ := r
      simp only [Traced.ok_bind]
      rw [Traced.result_ite, Traced.result_bind, Traced.result_tell]
      simp only [Traced.ok_bind]
      rw [Traced.result_ite]
      rfl

/-- A recorded round of the fast kernel returns what the round returns. -/
theorem result_round_bytes (s : List UInt8 × BitReader) :
    (round (· ++ ·) FastInflate.resolve lit dist s).result = FastInflate.round lit dist s := by
  rw [result_round]
  unfold FastInflate.round
  cases s.2.refillKernel with
  | error e => rfl
  | ok br =>
    simp only [Traced.ok_bind]
    cases lit.lookupFilled br with
    | error e => rfl
    | ok r =>
      simp only [Traced.ok_bind, result_symbolTail, RustyRapidgzip.symbolTail]
      cases RustyRapidgzip.copyMatch FastInflate.resolve dist
        (RustyRapidgzip.lengthOf r.1 r.2).1 s.1 (RustyRapidgzip.lengthOf r.1 r.2).2 <;> rfl

/-- A recorded round with the side table returns what the round returns. -/
theorem result_round_table (chunkBase : ℕ) (s : SideTable.Output × BitReader) :
    (round SideTable.Output.push (SideTable.resolve chunkBase) lit dist s).result =
      SideTable.round chunkBase lit dist s := by
  rw [result_round]
  unfold SideTable.round
  cases s.2.refillKernel with
  | error e => rfl
  | ok br =>
    simp only [Traced.ok_bind]
    cases lit.lookupFilled br with
    | error e => rfl
    | ok r =>
      simp only [Traced.ok_bind, result_symbolTail]
      cases RustyRapidgzip.copyMatch (SideTable.resolve chunkBase) dist
        (RustyRapidgzip.lengthOf r.1 r.2).1 s.1 (RustyRapidgzip.lengthOf r.1 r.2).2 <;> rfl

/-- The recorded copy of the preload kernel returns what the copy returns. -/
@[simp] theorem result_decodeDistanceAndCopy (length : ℕ) (out : List UInt8) :
    (decodeDistanceAndCopy dist length out br).result =
      Unbounded.decodeDistanceAndCopy dist length out br := by
  unfold decodeDistanceAndCopy Unbounded.decodeDistanceAndCopy
  rw [Traced.result_bind, result_refillKernel]
  cases br.refillKernel with
  | error e => rfl
  | ok br => exact result_copyMatch length out

/-- A recorded symbol among the long codes returns what the symbol returns. -/
theorem result_longSymbol (e : ℕ) (out : List UInt8) :
    (longSymbol dist e out br).result = Unbounded.longSymbol dist e out br := by
  unfold longSymbol Unbounded.longSymbol
  rw [Traced.result_ite, Traced.result_ite, Traced.result_ite, Traced.result_bind, result_refillIf]
  cases (if 0 < (e >>> 8) &&& 0x1f then br.refillKernel else .ok br) with
  | error e => rfl
  | ok br =>
    simp only [Traced.ok_bind]
    rw [Traced.result_bind, result_lengthOf]
    simp only [Traced.ok_bind]
    rw [Traced.result_bind, result_decodeDistanceAndCopy]
    cases Unbounded.decodeDistanceAndCopy dist (RustyRapidgzip.lengthOf e br).1 out
      (RustyRapidgzip.lengthOf e br).2 <;> rfl

/-- A recorded symbol of the table returns what the symbol returns. -/
theorem result_shortSymbol (entry : ℕ) (out : List UInt8) :
    (shortSymbol dist entry out br).result = Unbounded.shortSymbol dist entry out br := by
  unfold shortSymbol Unbounded.shortSymbol
  rw [Traced.result_bind, Traced.result_tell]
  simp only [Traced.ok_bind]
  generalize br.consume (entry &&& 0xff) = br
  rw [Traced.result_ite, Traced.result_ite, Traced.result_bind, result_lengthOf]
  simp only [Traced.ok_bind]
  generalize RustyRapidgzip.lengthOf entry br = r
  obtain ⟨length, br⟩ := r
  rw [Traced.result_bind, result_refillIf]
  cases (if br.bits < 28 then br.refillKernel else .ok br) with
  | error e => rfl
  | ok br =>
    simp only [Traced.ok_bind]
    rw [Traced.result_bind, result_copyMatch]
    cases RustyRapidgzip.copyMatch FastInflate.resolve dist length out br <;> rfl

/-- A recorded round of the preload kernel returns what the round returns. -/
theorem result_preloadRound (s : State) :
    (preloadRound lit dist s).result = Unbounded.round lit dist s := by
  obtain ⟨loaded, out, br⟩ := s
  cases loaded with
  | none =>
    unfold preloadRound Unbounded.round
    simp only
    rw [Traced.result_bind, result_refillKernel]
    cases br.refillKernel <;> rfl
  | some entry =>
    unfold preloadRound Unbounded.round
    simp only
    by_cases hliteral : entry &&& HUFFDEC_LITERAL ≠ 0
    · rw [if_pos hliteral, if_pos hliteral, Traced.result_bind, Traced.result_tell]
      simp only [Traced.ok_bind, Traced.result_bind, result_refillIf]
      cases (if (br.consume (entry &&& 0xff)).bits < LIT_GUARD then
        (br.consume (entry &&& 0xff)).refillKernel else .ok (br.consume (entry &&& 0xff))) <;> rfl
    by_cases hlong : entry &&& 0xff = 0
    · rw [if_neg hliteral, if_neg hliteral, if_pos hlong, if_pos hlong, Traced.result_bind,
        result_lookupLong]
      cases lit.lookupLong br with
      | error e => rfl
      | ok r => exact result_longSymbol r.1 out
    · rw [if_neg hliteral, if_neg hliteral, if_neg hlong, if_neg hlong]
      exact result_shortSymbol entry out

/-- The recorded fast kernel returns what the kernel returns. -/
theorem result_decodeCompressed_bytes (lit dist : HuffmanDecoder) (out : List UInt8)
    (br : BitReader) :
    (decodeCompressed (· ++ ·) FastInflate.resolve lit dist out br).result =
      FastInflate.decodeCompressed lit dist out br := by
  unfold decodeCompressed FastInflate.decodeCompressed
  rw [Traced.result_iterate]
  simp only [result_round_bytes]

/-- The recorded kernel with the side table returns what the kernel returns. -/
theorem result_decodeCompressed_table (chunkBase : ℕ) (lit dist : HuffmanDecoder)
    (t : SideTable.Output) (br : BitReader) :
    (decodeCompressed SideTable.Output.push (SideTable.resolve chunkBase) lit dist t br).result =
      SideTable.decodeCompressed chunkBase lit dist t br := by
  unfold decodeCompressed SideTable.decodeCompressed
  rw [Traced.result_iterate]
  simp only [result_round_table]

/-- The recorded preload kernel returns what the kernel returns. -/
theorem result_decodeCompressedPreload (lit dist : HuffmanDecoder) (out : List UInt8)
    (br : BitReader) :
    (decodeCompressedPreload lit dist out br).result =
      Unbounded.decodeCompressedPreload lit dist out br := by
  unfold decodeCompressedPreload Unbounded.decodeCompressedPreload
  rw [Traced.result_iterate]
  simp only [result_preloadRound]

section Runs

variable {ω ρ : Type} {stored : τ → BitReader → Traced ω DeflateError (τ × BitReader)}
  {kernel : HuffmanDecoder → HuffmanDecoder → τ → BitReader →
    Traced ω DeflateError (τ × BitReader)}

/-- The result of a block's contents is the one of its kind. -/
theorem result_decodeContents (btype : ℕ) (t : τ) (br : BitReader) :
    (decodeContents stored kernel btype t br).result =
      if btype = 0 then (stored t br).result
      else blockTrees btype br >>= fun r => (kernel r.1.1 r.1.2 t r.2).result := by
  unfold decodeContents
  rw [Traced.result_ite, Traced.result_bind, Traced.result_lift]

/-- The result of a block is its flag and the result of its contents. -/
theorem result_decodeOneBlock (t : τ) (br : BitReader) :
    (decodeOneBlock stored kernel t br).result = (do
      let (bfinal, br) ← br.read 1
      let (btype, br) ← br.read 2
      let (t, br) ← (decodeContents stored kernel btype t br).result
      .ok ((bfinal != 0, t), br)) := by
  unfold decodeOneBlock
  rw [Traced.result_bind, Traced.result_lift]
  cases br.read 1 with
  | error e => rfl
  | ok r =>
    obtain ⟨bfinal, br⟩ := r
    simp only [Traced.ok_bind, Traced.result_bind, Traced.result_lift]
    rfl

/-- The result of a run is the one of the loop over the results of its blocks. -/
theorem result_runBlocks (leave : (Bool × τ) × BitReader → Option ρ) (t : τ) (br : BitReader) :
    (runBlocks stored kernel leave t br).result = Loop.iterate .outOfFuel (fun s =>
      (decodeOneBlock stored kernel s.1 s.2).result.map (next leave))
        (8 * br.input.length + 1) (t, br) := by
  unfold runBlocks
  rw [Traced.result_iterate]
  congr 1
  funext s
  rw [Traced.result_bind]
  cases (decodeOneBlock stored kernel s.1 s.2).result <;> rfl

end Runs

section Members

variable {kernel : HuffmanDecoder → HuffmanDecoder → List UInt8 → BitReader →
    Kernel (List UInt8 × BitReader)} {compressed : Compressed UInt8} (endBitHint : ℕ)

/-- A recorded run over blocks of bytes returns what the run returns. -/
theorem result_runBlocks_bytes
    (hkernel : ∀ lit dist out br, (kernel lit dist out br).result = compressed lit dist out br)
    (out : List UInt8) (br : BitReader) :
    (runBlocks (fun out br => Traced.lift (decodeStored br out)) kernel (leaveAt endBitHint) out
      br).result =
      (blocksWith (blockWith compressed) (fun br => decide (endBitHint ≤ br.tellBit)) out br).map
        fun r => ((r.2.tellBit, r.1.1), r.1.2) := by
  rw [result_runBlocks]
  unfold blocksWith
  apply Loop.iterate_map_result
  intro s
  unfold blocksRound
  have hblock : (decodeOneBlock (fun out br => Traced.lift (decodeStored br out)) kernel s.1
      s.2).result = blockWith compressed s.1 s.2 := by
    rw [result_decodeOneBlock]
    simp only [result_decodeContents, Traced.result_lift, hkernel]
    rfl
  simp only [hblock]
  cases blockWith compressed s.1 s.2 with
  | error e => rfl
  | ok r =>
    obtain ⟨⟨bfinal, out⟩, br⟩ := r
    simp only [Except.map, next, leaveAt]
    cases bfinal with
    | true => rfl
    | false =>
      by_cases hhint : endBitHint ≤ br.tellBit
      · simp [hhint]
      · simp [hhint]

/-- A recorded member of bytes returns what the member returns. -/
theorem result_decodeBlocks_bytes
    (hkernel : ∀ lit dist out br, (kernel lit dist out br).result = compressed lit dist out br)
    (input : List UInt8) (startBit : ℕ) (out : List UInt8) :
    (decodeBlocks (fun out br => Traced.lift (decodeStored br out)) kernel (leaveAt endBitHint)
      input startBit out).result =
      memberWith (blockWith compressed) input startBit endBitHint out := by
  unfold decodeBlocks memberWith
  rw [Traced.result_bind, Traced.result_lift]
  cases (BitReader.new input).seekToBit startBit with
  | error e => rfl
  | ok br =>
    simp only [Traced.ok_bind]
    rw [result_runBlocks_bytes endBitHint hkernel]
    cases blocksWith (blockWith compressed) (fun br => decide (endBitHint ≤ br.tellBit)) out br <;>
      rfl

/-- The recording run of the fast kernel returns what the fast decoder does. -/
theorem result_decodeMemberU8 (input : List UInt8) (startBit : ℕ) (out : List UInt8) :
    (decodeMemberU8 input startBit endBitHint out).result =
      FastInflate.decodeMemberU8 input startBit endBitHint out :=
  result_decodeBlocks_bytes endBitHint result_decodeCompressed_bytes input startBit out

/-- The recording run of the preload kernel returns what the preload decoder does. -/
theorem result_decodeMemberU8Preload (input : List UInt8) (startBit : ℕ) (out : List UInt8) :
    (decodeMemberU8Preload input startBit endBitHint out).result =
      Unbounded.decodeMemberU8Preload input startBit endBitHint out :=
  result_decodeBlocks_bytes endBitHint result_decodeCompressedPreload input startBit out

/-- A block with the side table, and whether the run goes on. -/
theorem result_untilRound (chunkBase : ℕ) (s : SideTable.Output × BitReader) :
    (decodeOneBlock (fun t br => Traced.lift (pushStored t br))
      (decodeCompressed SideTable.Output.push (SideTable.resolve chunkBase)) s.1 s.2).result.map
        (next (leaveAt endBitHint)) =
      (SideTable.untilRound chunkBase endBitHint s).map
        (Sum.map id fun r => ((r.2.tellBit, r.1.1), r.1.2)) := by
  have hblock : (decodeOneBlock (fun t br => Traced.lift (pushStored t br))
      (decodeCompressed SideTable.Output.push (SideTable.resolve chunkBase)) s.1 s.2).result =
      SideTable.decodeOneBlock chunkBase s.1 s.2 := by
    rw [result_decodeOneBlock]
    simp only [result_decodeContents, Traced.result_lift, result_decodeCompressed_table]
    rfl
  unfold SideTable.untilRound
  rw [hblock]
  cases SideTable.decodeOneBlock chunkBase s.1 s.2 with
  | error e => rfl
  | ok r =>
    obtain ⟨⟨bfinal, t⟩, br⟩ := r
    simp only [Except.map, next, leaveAt]
    cases bfinal with
    | true => rfl
    | false =>
      by_cases hhint : endBitHint ≤ br.tellBit
      · simp [hhint]
      · simp [hhint]

/-- The recording run with the side table returns what the decoder with the table does. -/
theorem result_decodeUntil (input : List UInt8) (startBit : ℕ) (chunk : SpeculativeChunk) :
    (decodeUntil input startBit endBitHint chunk).result.map (fun r =>
      (r.1, { chunk with bytes := r.2.bytes }.bytesOffsetMarkers r.2.ctx.markers
        (chunk.bytes.length % 2 ^ 32))) =
      RustyRapidgzip.decodeUntil input startBit endBitHint chunk := by
  unfold decodeUntil decodeBlocks RustyRapidgzip.decodeUntil
  simp only [Traced.result_bind, Traced.result_lift]
  cases (BitReader.new input).seekToBit startBit with
  | error e => rfl
  | ok br =>
    simp only [Traced.ok_bind, result_runBlocks]
    rw [Loop.iterate_map_result (result_untilRound endBitHint chunk.bytes.length)]
    cases Loop.iterate .outOfFuel (SideTable.untilRound chunk.bytes.length endBitHint)
      (8 * br.input.length + 1) (⟨chunk.bytes, ⟨[], none, 0, 0⟩⟩, br) <;> rfl

end Members

end Results

end Accumulator

end RustyRapidgzip
