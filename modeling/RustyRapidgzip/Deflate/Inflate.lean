import RustyRapidgzip.Deflate.Blocks

/-!
# The serial decoder

The plain symbol loop: refill to 48 bits, decode one symbol, act on it.
-/

namespace RustyRapidgzip

open LsbBits Reference HuffmanDecoder Lz

namespace Inflate

/-- Check a distance and copy. -/
def resolve (out : List UInt8) (distance length : ℕ) : Except DeflateError (List UInt8) :=
  if distance = 0 ∨ out.length < distance then
    .error (.invalid "back-reference distance out of bounds")
  else if MAX_DISTANCE < distance then .error (.invalid "distance > 32 KiB")
  else .ok (copyBackRaw out distance length)

/-- One round of the symbol loop. -/
def round (lit dist : HuffmanDecoder) (s : List UInt8 × BitReader) :
    Except DeflateError ((List UInt8 × BitReader) ⊕ (List UInt8 × BitReader)) :=
  match s.2.refill 48 with
  | (false, _) => .error .unexpectedEof
  | (true, br) =>
    match lit.lookupFilled br with
    | .error e => .error e
    | .ok (entry, br) =>
      if entry &&& HUFFDEC_LITERAL ≠ 0 then
        .ok (.inl (s.1 ++ [UInt8.ofNat (entry >>> 16)], br))
      else symbolTail resolve dist entry s.1 br

/-- The symbol loop. Each round consumes a bit, which bounds the rounds. -/
def decodeBlock : Compressed UInt8 := fun lit dist out br =>
  Loop.iterate .outOfFuel (round lit dist) (8 * br.input.length + 1) (out, br)

/-- Decode one block. -/
def inflateBlock (out : List UInt8) (br : BitReader) :
    Except DeflateError ((Bool × List UInt8) × BitReader) :=
  blockWith decodeBlock out br

/-- Decode blocks up to the final one. -/
def inflate (out : List UInt8) (br : BitReader) : Except DeflateError (List UInt8 × BitReader) :=
  (blocksWith inflateBlock (fun _ => false) out br).map (fun r => (r.1.2, r.2))

/-- A match is the copy behind the output. -/
theorem resolves_resolve : Resolves Eq Eq resolve := by
  rintro out _ d n rfl hbounds
  obtain ⟨-, -, hpos, hmax⟩ := hbounds
  unfold resolve
  by_cases hle : d ≤ out.length
  · refine Or.inl ⟨hle, _, ?_, rfl⟩
    rw [if_neg (by omega), if_neg (by omega), copyBackRaw_eq hpos hle]
  · exact Or.inr ⟨by omega, _, if_pos (by omega), by simp⟩

end Inflate

/-- A literal read by a kernel is a token. -/
theorem readToken_literal {lit : List ℕ} (dist : List ℕ) {s length : ℕ} {bs rest : List Bool}
    (hs : s < 2 ^ 15) (hlength : length ≤ 15)
    (hdec : Canonical.decode lit 15 bs = some (s, rest))
    (hlit : encodeEntry s length .litLen &&& HUFFDEC_LITERAL ≠ 0) :
    readToken lit dist bs =
      some (some (.lit (UInt8.ofNat (encodeEntry s length .litLen >>> 16))), rest) := by
  have hentry := litLen_entry hs hlength
  rw [readToken_eq dist hdec]
  cases hsym : litLen s with
  | literal b =>
    rw [hsym] at hentry
    rw [hentry.2]
  | endOfBlock =>
    rw [hsym] at hentry
    exact absurd hentry.1 hlit
  | length base extra =>
    rw [hsym] at hentry
    exact absurd hentry.1 hlit
  | reserved =>
    rw [hsym] at hentry
    exact absurd hentry.1 hlit

namespace Inflate

/-- A round of the serial loop follows the tokens. -/
theorem roundSpec_round {input : List UInt8} {lit dist : HuffmanDecoder} {lits dists : List ℕ}
    (hlen : lits.length ≤ 288) (hlit : lit.Implements lits .litLen)
    (hdist : dist.Implements dists .dist) (out : List UInt8) {br : BitReader} {bs : List Bool}
    (hat : br.At input bs) :
    RoundSpec input 48 48 lits dists id bs out (round lit dist (out, br)) := by
  unfold round
  rcases hat.refill48 with ⟨hroom, br₁, hrefill, hold⟩ | ⟨hroom, hrefill⟩
  swap
  · have heof : (out, br).2.refill 48 = (false, (br.refill 48).2) := by rw [← hrefill]
    rw [heof]
    refine ⟨by simp, fun rest res hdec => ?_⟩
    have := hdec.room_le
    omega
  rw [show (out, br).2.refill 48 = (true, br₁) from hrefill]
  simp only
  rcases hlit.lookupFilled_cases hold (by decide) with
    ⟨s, rest, br₂, hdec, hs, hle, hlook, hat₂, hbits⟩ | ⟨hdec, hlook⟩
  swap
  · rw [hlook]
    refine ⟨by simp, fun _ _ => not_decodes_of_readToken ?_⟩
    rw [readToken, hdec]
    rfl
  rw [hlook]
  simp only
  by_cases hliteral : encodeEntry s (lits.getD s 0) .litLen &&& HUFFDEC_LITERAL ≠ 0
  · rw [if_pos hliteral]
    have htoken := readToken_literal dists (by omega) hle hdec hliteral
    exact ⟨_, rest, by simp, Steps.single htoken, rfl, hat₂⟩
  · rw [if_neg hliteral]
    exact roundSpec_symbolTail resolves_resolve hdist (by omega) hle hdec (not_not.mp hliteral)
      hat₂ (by omega) hroom out

/-- The serial loop decodes the block bodies that leave it 48 bits. -/
theorem kernelSpec_decodeBlock : KernelSpec 48 48 id decodeBlock := by
  intro input lit dist lits dists out br bs hlen hlit hdist hat
  have hle := hat.length_le
  apply loopSpec_iterate (fun out br bs hat => roundSpec_round hlen hlit hdist out hat) hat
  rw [hat.input_eq]
  omega

/-- The simple block decoder decodes blocks. -/
theorem decodesBlocks_inflateBlock : DecodesBlocks 48 48 inflateBlock :=
  kernelSpec_decodeBlock.decodesBlocks (by decide)

end Inflate

end RustyRapidgzip
