import RustyRapidgzip.Deflate.Inflate

/-!
# The fast decoder

The symbol loop refills unconditionally while eight input bytes remain and takes a
second literal from the table before the next refill.
-/

namespace RustyRapidgzip

open LsbBits Reference HuffmanDecoder Lz

namespace FastInflate

/-- Check a distance and copy. -/
def resolve (out : List UInt8) (distance length : ℕ) : Except DeflateError (List UInt8) :=
  if distance = 0 then .error (.invalid "zero back-reference distance")
  else if out.length < distance then .error (.invalid "back-reference distance out of bounds")
  else .ok (copyBackRaw out distance length)

/-- One round of the symbol loop. -/
def round (lit dist : HuffmanDecoder) (s : List UInt8 × BitReader) :
    Except DeflateError ((List UInt8 × BitReader) ⊕ (List UInt8 × BitReader)) :=
  match s.2.refillKernel with
  | .error e => .error e
  | .ok br =>
    match lit.lookupFilled br with
    | .error e => .error e
    | .ok (entry, br) =>
      if entry &&& HUFFDEC_LITERAL ≠ 0 then
        let e2 := lit.lut (br.peekBitsUnchecked LUT_BITS)
        let len2 := e2 &&& 0xff
        if len2 ≠ 0 ∧ e2 &&& HUFFDEC_LITERAL ≠ 0 then
          .ok (.inl (s.1 ++ [UInt8.ofNat (entry >>> 16), UInt8.ofNat (e2 >>> 16)],
            br.consume len2))
        else .ok (.inl (s.1 ++ [UInt8.ofNat (entry >>> 16)], br))
      else symbolTail resolve dist entry s.1 br

/-- The symbol loop, for output that starts at its own history. -/
def decodeCompressed : Compressed UInt8 := fun lit dist out br =>
  Loop.iterate .outOfFuel (round lit dist) (8 * br.input.length + 1) (out, br)

/-- Decode one block. -/
def decodeOneBlock (out : List UInt8) (br : BitReader) :
    Except DeflateError ((Bool × List UInt8) × BitReader) :=
  blockWith decodeCompressed out br

/-- Decode blocks up to the final one. -/
def inflateFast (out : List UInt8) (br : BitReader) :
    Except DeflateError (List UInt8 × BitReader) :=
  (blocksWith decodeOneBlock (fun _ => false) out br).map (fun r => (r.1.2, r.2))

/-- Decode from a bit position up to the final block, or up to the first block that
ends at or after the hint. The result is the end bit, the flag and the output. -/
def decodeMemberU8 (input : List UInt8) (startBit endBitHint : ℕ) (out : List UInt8) :
    Except DeflateError ((ℕ × Bool) × List UInt8) :=
  memberWith decodeOneBlock input startBit endBitHint out

/-- A match is the copy behind the output. -/
theorem resolves_resolve : Resolves Eq Eq resolve := by
  rintro out _ d n rfl hbounds
  obtain ⟨-, -, hpos, -⟩ := hbounds
  unfold resolve
  by_cases hle : d ≤ out.length
  · refine Or.inl ⟨hle, _, ?_, rfl⟩
    rw [if_neg (by omega), if_neg (by omega), copyBackRaw_eq hpos hle]
  · refine Or.inr ⟨by omega, .invalid "back-reference distance out of bounds", ?_, by simp⟩
    rw [if_neg (by omega), if_pos (by omega)]

/-- A literal entry in the table under the next ten bits is the next token. -/
theorem peek_literal {input : List UInt8} {lit : HuffmanDecoder} {lits : List ℕ} (dists : List ℕ)
    (hlen : lits.length ≤ 288) (hlit : lit.Implements lits .litLen) {br : BitReader}
    {bs : List Bool} {n : ℕ} (hold : br.Holds input bs n) (hn : LUT_BITS ≤ n)
    (hshort : lit.lut (br.peekBitsUnchecked LUT_BITS) &&& 0xff ≠ 0)
    (hliteral : lit.lut (br.peekBitsUnchecked LUT_BITS) &&& HUFFDEC_LITERAL ≠ 0) :
    ∃ rest, readToken lits dists bs = some (some (.lit (UInt8.ofNat
        (lit.lut (br.peekBitsUnchecked LUT_BITS) >>> 16))), rest) ∧
      (br.consume (lit.lut (br.peekBitsUnchecked LUT_BITS) &&& 0xff)).At input rest ∧
      n ≤ (br.consume (lit.lut (br.peekBitsUnchecked LUT_BITS) &&& 0xff)).bits + LUT_BITS := by
  obtain ⟨⟨p, hr, hbs⟩, hbits⟩ := hold
  have hpos := hr.pos_le
  have hpeek : br.peekBitsUnchecked LUT_BITS = ofLsb (bs.take LUT_BITS) := by
    rw [hr.peekBitsUnchecked_eq (by omega), peekAt, hbs]
  rw [hpeek] at hshort hliteral ⊢
  rcases hlit.lut_cases (bs) (by rw [hbs]; simp; omega) with
    ⟨s, hdec, hle, hspos, hentry⟩ | ⟨-, hzero⟩
  · have h15 : lits.getD s 0 ≤ 15 := Nat.le_trans hle (by decide)
    obtain ⟨hlt, -⟩ := Canonical.decode_some hdec
    rw [hentry] at hliteral
    rw [hentry, encodeEntry_length s .litLen h15]
    have hcons := BitReader.Holds.consume ⟨⟨p, hr, hbs⟩, hbits⟩ (k := lits.getD s 0)
      (by omega) hspos
    exact ⟨_, readToken_literal dists (by omega) h15 hdec hliteral, hcons.1, by omega⟩
  · rw [hzero] at hshort
    simp at hshort

/-- A round of the fast loop follows the tokens, two literals at a time if it can. -/
theorem roundSpec_round {input : List UInt8} {lit dist : HuffmanDecoder} {lits dists : List ℕ}
    (hlen : lits.length ≤ 288) (hlit : lit.Implements lits .litLen)
    (hdist : dist.Implements dists .dist) (out : List UInt8) {br : BitReader} {bs : List Bool}
    (hat : br.At input bs) :
    RoundSpec input 48 48 lits dists id bs out (round lit dist (out, br)) := by
  unfold round
  rcases hat.refillKernel with ⟨hroom, br₁, hrefill, hat₁, hbits₁⟩ | ⟨hroom, hrefill⟩
  swap
  · rw [hrefill]
    refine ⟨by simp, fun rest res hdec => ?_⟩
    have := hdec.room_le
    omega
  simp only [hrefill]
  rcases hlit.lookupFilled_cases (hat₁.holds hbits₁) (by decide) with
    ⟨s, rest, br₂, hdec, hs, hle, hlook, hat₂, hbits₂⟩ | ⟨hdec, hlook⟩
  swap
  · rw [hlook]
    refine ⟨by simp, fun _ _ => not_decodes_of_readToken ?_⟩
    rw [readToken, hdec]
    rfl
  rw [hlook]
  simp only
  by_cases hliteral : encodeEntry s (lits.getD s 0) .litLen &&& HUFFDEC_LITERAL ≠ 0
  · rw [if_pos hliteral]
    have htoken := readToken_literal dists (by omega) hle hdec hliteral
    by_cases hsecond : lit.lut (br₂.peekBitsUnchecked LUT_BITS) &&& 0xff ≠ 0 ∧
        lit.lut (br₂.peekBitsUnchecked LUT_BITS) &&& HUFFDEC_LITERAL ≠ 0
    · rw [if_pos hsecond]
      obtain ⟨rest', htoken', hat₃, -⟩ := peek_literal dists hlen hlit
        (hat₂.holds (n := LUT_BITS) (by have : LUT_BITS = 10 := rfl; omega)) le_rfl
        hsecond.1 hsecond.2
      exact ⟨_, rest', by simp, Steps.cons htoken (Steps.single htoken'), by
        simp [expand_cons, expandToken], hat₃⟩
    · rw [if_neg hsecond]
      exact ⟨_, rest, by simp, Steps.single htoken, rfl, hat₂⟩
  · rw [if_neg hliteral]
    exact roundSpec_symbolTail resolves_resolve hdist (by omega) hle hdec (not_not.mp hliteral)
      hat₂ (by omega) hroom out

/-- The fast loop decodes the block bodies that leave it 48 bits. -/
theorem kernelSpec_decodeCompressed : KernelSpec 48 48 id decodeCompressed := by
  intro input lit dist lits dists out br bs hlen hlit hdist hat
  have hle := hat.length_le
  apply loopSpec_iterate (fun out br bs hat => roundSpec_round hlen hlit hdist out hat) hat
  rw [hat.input_eq]
  omega

/-- The fast block decoder decodes blocks. -/
theorem decodesBlocks_decodeOneBlock : DecodesBlocks 48 48 decodeOneBlock :=
  kernelSpec_decodeCompressed.decodesBlocks (by decide)

/-- The fast decoder decodes streams. -/
theorem streamSpec_inflateFast {input : List UInt8} {br : BitReader} {bs : List Bool}
    (out : List UInt8) (hat : br.At input bs) :
    StreamSpec input 48 48 bs out (inflateFast out br) :=
  streamSpec_blocksWith decodesBlocks_decodeOneBlock out hat

/-- The fast decoder is the reference decoder: it returns what the reference returns
wherever 64 bits follow the stream, and never returns anything else. -/
theorem inflateFast_reference (input out : List UInt8) :
    (∀ e o, Reference.inflate input out = some (e, o) → e + 64 ≤ 8 * input.length →
      ∃ br, inflateFast out (BitReader.new input) = .ok (out ++ o, br) ∧ br.tellBit = e) ∧
    (∀ res br, inflateFast out (BitReader.new input) = .ok (res, br) →
      ∃ o, res = out ++ o ∧ Reference.inflate input out = some (br.tellBit, o)) := by
  have hspec := streamSpec_inflateFast out (BitReader.new_at input)
  constructor
  · intro e o href hroom
    obtain ⟨ts, rest, hstream, hres, he⟩ := inflate_iff.mp href
    have hstream48 : Stream 48 (bits input) ts rest := Blocks.of_rest hstream (by omega)
    cases hrun : inflateFast out (BitReader.new input) with
    | error err =>
      rw [hrun] at hspec
      rw [hspec.2 ts rest hstream48] at hres
      cases hres
    | ok r =>
      obtain ⟨res, br⟩ := r
      rw [hrun] at hspec
      obtain ⟨us, rest', hstream', hres', hat⟩ := hspec
      obtain ⟨-, rfl, rfl⟩ := Blocks.unique hstream hstream'
      rw [hres] at hres'
      cases hres'
      have htell := hat.tellBit
      exact ⟨br, rfl, by omega⟩
  · intro res br hrun
    rw [hrun] at hspec
    obtain ⟨ts, rest, hstream, hres, hat⟩ := hspec
    obtain ⟨o, rfl⟩ := expand_extends hres
    exact ⟨o, rfl, inflate_iff.mpr
      ⟨ts, rest, Blocks.mono hstream (Nat.zero_le _), hres, hat.tellBit⟩⟩

/-- A stored block of one byte, with eight bytes after it. -/
def storedByte : List UInt8 := [1, 1, 0, 0xfe, 0xff, 65, 0, 0, 0, 0, 0, 0, 0, 0]

/-- A fixed block of a literal and a copy of five bytes, and eight bytes behind it. -/
def fixedCopy : List UInt8 := [75, 76, 4, 1, 0, 0, 0, 0, 0, 0, 0, 0, 0]

/-- Its copy stays in the block, so that it expands alike behind any output. -/
theorem inflate_fixedCopy (out : List UInt8) :
    Reference.inflate fixedCopy out = some (38, [97, 97, 97, 97, 97, 97]) := by
  have hempty : Reference.inflate fixedCopy [] = some (38, [97, 97, 97, 97, 97, 97]) := by
    decide +kernel
  obtain ⟨ts, rest, hstream, hexpand, he⟩ := inflate_iff.mp hempty
  have hbehind := expand_append_left out hexpand
  rw [List.append_nil] at hbehind
  exact inflate_iff.mpr ⟨ts, rest, hstream, hbehind, he⟩

/-- Behind a byte, a literal and a copy that overlaps itself. -/
theorem inflateFast_reference_fixedCopy :
    (∃ br, inflateFast [7] (BitReader.new fixedCopy) = .ok ([7, 97, 97, 97, 97, 97, 97], br) ∧
      br.tellBit = 38) ∧
      ∃ o, [7, 97, 97, 97, 97, 97, 97] = [7] ++ o ∧
        Reference.inflate fixedCopy [7] = some (38, o) := by
  obtain ⟨br, hok, htell⟩ :=
    (inflateFast_reference fixedCopy [7]).1 38 _ (inflate_fixedCopy [7]) (by decide)
  refine ⟨⟨br, hok, htell⟩, ?_⟩
  rw [← htell]
  exact (inflateFast_reference fixedCopy [7]).2 _ br hok

end FastInflate

end RustyRapidgzip
