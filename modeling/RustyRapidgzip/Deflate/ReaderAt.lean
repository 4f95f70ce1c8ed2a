import RustyRapidgzip.Deflate.HuffmanCorrect
import RustyRapidgzip.Deflate.Reference

/-!
# Readers and remaining bits

The decoders run on a `BitReader`, the reference on the list of remaining bits.
`At` relates the two, and `Agrees` compares a decoder's step with a reference
step: a success of the decoder is one of the reference, and the converse holds
where enough bits follow.
-/

namespace RustyRapidgzip

open LsbBits Reference

namespace BitReader

/-- The reader has the bits `bs` of `input` left, and its word is not full. -/
structure At (br : BitReader) (input : List UInt8) (bs : List Bool) : Prop where
  reads : ∃ p, br.Reads input p ∧ bs = (LsbBits.bits input).drop p
  bits_le : br.bits ≤ 63

variable {br : BitReader} {input : List UInt8} {bs : List Bool}

/-- A new reader has all bits left. -/
theorem new_at (input : List UInt8) : (new input).At input (LsbBits.bits input) :=
  ⟨⟨0, new_reads input, rfl⟩, Nat.zero_le _⟩

/-- The reported position counts the bits before the remaining ones. -/
theorem At.tellBit (h : br.At input bs) : br.tellBit + bs.length = 8 * input.length := by
  obtain ⟨p, hr, rfl⟩ := h.reads
  have := hr.pos_le
  rw [hr.tellBit_eq, List.length_drop, bits_length]
  omega

/-- The remaining bits are bits of the input. -/
theorem At.length_le (h : br.At input bs) : bs.length ≤ 8 * input.length := by
  have := h.tellBit
  omega

/-- Alignment drops the bits up to the next byte boundary. -/
theorem At.byteAlign (h : br.At input bs) : br.byteAlign.At input (alignBits bs) := by
  obtain ⟨p, hr, rfl⟩ := h.reads
  have hpos := hr.pos_le
  refine ⟨⟨(p + 7) / 8 * 8, hr.byteAlign, ?_⟩, ?_⟩
  · rw [alignBits, List.drop_drop, List.length_drop, bits_length]
    congr 1
    omega
  · have hle : br.byteAlign.bits ≤ br.bits := Nat.sub_le _ _
    exact Nat.le_trans hle h.bits_le

/-- Reading agrees with the bit list. -/
theorem At.read (h : br.At input bs) {n : ℕ} (hn : n ≤ 56) :
    (∃ v rest br', readBits n bs = some (v, rest) ∧ br.read n = .ok (v, br') ∧
      br'.At input rest) ∨
    (readBits n bs = none ∧ br.read n = .error .unexpectedEof) := by
  obtain ⟨p, hr, rfl⟩ := h.reads
  have hpos := hr.pos_le
  by_cases hroom : p + n ≤ 8 * input.length
  · obtain ⟨br', hok, hr', hbits⟩ := hr.read_ok hn hroom
    refine Or.inl ⟨peekAt input p n, (LsbBits.bits input).drop (p + n), br', ?_, hok,
      ⟨p + n, hr', rfl⟩, ?_⟩
    · rw [readBits, if_pos (by simp; omega), List.drop_drop, peekAt]
    · by_cases hzero : n = 0
      · subst n
        have : br.read 0 = .ok (0, br) := rfl
        rw [this] at hok
        cases hok
        exact h.bits_le
      · exact hbits (by omega)
  · refine Or.inr ⟨?_, hr.read_eof hn (by omega)⟩
    rw [readBits, if_neg (by simp; omega)]

/-- Seeking inside the input drops the bits before the position; outside it fails. -/
theorem seekToBit_at (input : List UInt8) (pos : ℕ) :
    (pos ≤ 8 * input.length ∧ ∃ br', (new input).seekToBit pos = .ok br' ∧
      br'.At input ((LsbBits.bits input).drop pos)) ∨
    (8 * input.length < pos ∧ (new input).seekToBit pos = .error .unexpectedEof) := by
  by_cases hpos : pos ≤ 8 * input.length
  · obtain ⟨br', hok, hr, hbits⟩ := seekToBit_ok (new input) hpos
    exact Or.inl ⟨hpos, br', hok, ⟨pos, hr, rfl⟩, hbits⟩
  · exact Or.inr ⟨by omega, seekToBit_eof (new input) (by simpa [new] using hpos)⟩

/-- A reader that has found its position stands at the bits behind it. -/
theorem at_of_seekToBit {input : List UInt8} {pos : ℕ} {br : BitReader}
    (h : (new input).seekToBit pos = .ok br) :
    pos ≤ 8 * input.length ∧ br.At input ((LsbBits.bits input).drop pos) := by
  rcases seekToBit_at input pos with ⟨hle, br', hseek, hat⟩ | ⟨-, hseek⟩
  · rw [hseek] at h
    cases h
    exact ⟨hle, hat⟩
  · rw [hseek] at h
    cases h

end BitReader

/-! ## Agreement with the reference -/

/-- A decoder's step against a reference step. The results are related by `R`, and
`room` is how many bits must follow for the decoder to see the step through. -/
structure Agrees {α β : Type} (room : ℕ) (input : List UInt8) (R : α → β → Prop)
    (step : Except DeflateError (α × BitReader)) (ref : Option (β × List Bool)) : Prop where
  sound : ∀ a br, step = .ok (a, br) → ∃ b rest, ref = some (b, rest) ∧ R a b ∧ br.At input rest
  complete : ∀ b rest, ref = some (b, rest) → room ≤ rest.length → ∃ a br, step = .ok (a, br)
  fuel : step ≠ .error .outOfFuel

namespace Agrees

variable {α β γ δ : Type} {room : ℕ} {input : List UInt8} {R : α → β → Prop} {S : γ → δ → Prop}

/-- A decoder that returns what the reference returns. -/
theorem pure {a : α} {b : β} {br : BitReader} {bs : List Bool} (hR : R a b)
    (hat : br.At input bs) : Agrees room input R (.ok (a, br)) (some (b, bs)) where
  sound := by
    rintro _ _ ⟨⟩
    exact ⟨b, bs, rfl, hR, hat⟩
  complete := fun _ _ _ _ => ⟨a, br, rfl⟩
  fuel := by simp

/-- Both sides fail. -/
theorem fail {e : DeflateError} (he : e ≠ .outOfFuel) :
    Agrees room input R (.error e) (none : Option (β × List Bool)) where
  sound := by simp
  complete := by simp
  fuel := by simpa using he

/-- One step after another. -/
theorem bind {step : Except DeflateError (α × BitReader)} {ref : Option (β × List Bool)}
    {f : α × BitReader → Except DeflateError (γ × BitReader)}
    {g : β × List Bool → Option (δ × List Bool)} (h : Agrees room input R step ref)
    (hshrink : ∀ b rest c rest', g (b, rest) = some (c, rest') → rest'.length ≤ rest.length)
    (hf : ∀ a b br rest, R a b → br.At input rest → ref = some (b, rest) →
      Agrees room input S (f (a, br)) (g (b, rest))) :
    Agrees room input S (step >>= f) (ref >>= g) where
  sound := by
    intro c br' hok
    cases hstep : step with
    | error e =>
      rw [hstep] at hok
      cases hok
    | ok r =>
      obtain ⟨a, br⟩ := r
      obtain ⟨b, rest, href, hR, hat⟩ := h.sound a br hstep
      rw [hstep] at hok
      rw [href]
      exact (hf a b br rest hR hat href).sound c br' hok
  complete := by
    intro d rest' hsome hroom
    cases href : ref with
    | none =>
      rw [href] at hsome
      cases hsome
    | some r =>
      obtain ⟨b, rest⟩ := r
      rw [href] at hsome
      have hle := hshrink b rest d rest' hsome
      obtain ⟨a, br, hstep⟩ := h.complete b rest href (by omega)
      obtain ⟨b', rest'', href', hR, hat⟩ := h.sound a br hstep
      rw [href] at href'
      cases href'
      obtain ⟨c, br', hok⟩ := (hf a b br rest hR hat href).complete d rest' hsome hroom
      rw [hstep]
      exact ⟨c, br', hok⟩
  fuel := by
    cases hstep : step with
    | error e =>
      intro he
      cases he
      exact h.fuel hstep
    | ok r =>
      obtain ⟨a, br⟩ := r
      obtain ⟨b, rest, href, hR, hat⟩ := h.sound a br hstep
      exact (hf a b br rest hR hat href).fuel

/-- A step that needs no room, and then another one. -/
theorem bindExact {step : Except DeflateError (α × BitReader)} {ref : Option (β × List Bool)}
    {f : α × BitReader → Except DeflateError (γ × BitReader)}
    {g : β × List Bool → Option (δ × List Bool)} (h : Agrees 0 input R step ref)
    (hf : ∀ a b br rest, R a b → br.At input rest → ref = some (b, rest) →
      Agrees room input S (f (a, br)) (g (b, rest))) :
    Agrees room input S (step >>= f) (ref >>= g) := by
  cases href : ref with
  | none =>
    cases hstep : step with
    | error e =>
      apply Agrees.fail
      rintro rfl
      exact h.fuel hstep
    | ok r =>
      obtain ⟨a, br⟩ := r
      obtain ⟨b, rest, hsome, -⟩ := h.sound a br hstep
      rw [href] at hsome
      cases hsome
  | some r =>
    obtain ⟨b, rest⟩ := r
    obtain ⟨a, br, hstep⟩ := h.complete b rest href (Nat.zero_le _)
    obtain ⟨b', rest', href', hR, hat⟩ := h.sound a br hstep
    rw [href] at href'
    cases href'
    rw [hstep]
    exact hf a b br rest hR hat href

/-- Changing the result on the reference's side only. -/
theorem mapRef {step : Except DeflateError (α × BitReader)} {ref : Option (β × List Bool)}
    {S : α → δ → Prop} {g : β → δ} (h : Agrees room input R step ref)
    (hg : ∀ a b, R a b → S a (g b)) :
    Agrees room input S step (ref >>= fun r => some (g r.1, r.2)) where
  sound := by
    intro a br hok
    obtain ⟨b, rest, href, hR, hat⟩ := h.sound a br hok
    exact ⟨g b, rest, by rw [href]; rfl, hg a b hR, hat⟩
  complete := by
    intro d rest hsome hroom
    obtain ⟨⟨b, rest'⟩, href, heq⟩ := Option.bind_eq_some_iff.mp hsome
    cases heq
    exact h.complete b rest' href hroom
  fuel := h.fuel

end Agrees

/-- Reading bits agrees with the reference, whatever follows. -/
theorem BitReader.At.agrees_read {br : BitReader} {input : List UInt8} {bs : List Bool}
    (h : br.At input bs) {n : ℕ} (hn : n ≤ 56) :
    Agrees 0 input Eq (br.read n) (readBits n bs) := by
  rcases h.read hn with ⟨v, rest, br', href, hok, hat⟩ | ⟨href, herr⟩
  · rw [href, hok]
    exact Agrees.pure rfl hat
  · rw [href, herr]
    exact Agrees.fail (by simp)

/-- A lookup that finds nothing to read fails for want of input or of a code. -/
theorem HuffmanDecoder.lookup_fuel (d : HuffmanDecoder) (br : BitReader) :
    d.lookup br ≠ .error .outOfFuel := by
  have hpeek (br : BitReader) (n : ℕ) : br.peek n ≠ .error .outOfFuel := by
    unfold BitReader.peek
    split <;> simp
  have hlong (br : BitReader) : d.lookupLong br ≠ .error .outOfFuel := by
    unfold HuffmanDecoder.lookupLong
    split
    · next e he =>
      intro h
      cases h
      exact hpeek _ _ he
    · split <;> simp
  unfold HuffmanDecoder.lookup
  split
  · next e he =>
    intro h
    cases h
    exact hpeek _ _ he
  · simp only
    split
    · exact hlong _
    · simp

/-- Decoding a plain symbol agrees with the canonical code where 15 bits follow. -/
theorem HuffmanDecoder.Implements.agrees_decode {d : HuffmanDecoder} {lens : List ℕ}
    (h : d.Implements lens .simple) {br : BitReader} {input : List UInt8} {bs : List Bool}
    (hat : br.At input bs) :
    Agrees 15 input Eq (d.decode br) (Canonical.decode lens 15 bs) := by
  obtain ⟨p, hr, rfl⟩ := hat.reads
  have hpos := hr.pos_le
  refine ⟨?_, ?_, ?_⟩
  · intro sym br' hok
    unfold HuffmanDecoder.decode at hok
    cases hl : d.lookup br with
    | error e =>
      rw [hl] at hok
      cases hok
    | ok r =>
      obtain ⟨entry, br₁⟩ := r
      rw [hl] at hok
      cases hok
      obtain ⟨s, hdec, rfl, hr', hbits⟩ := h.lookup_inv hr hl
      have hlen := (Canonical.decode_some hdec).2.2.1
      exact ⟨s, _, hdec, HuffmanDecoder.encodeEntry_simple s hlen, ⟨⟨_, hr', rfl⟩, hbits⟩⟩
  · intro s rest hdec hroom
    have hlt := decode_length hdec
    simp only [List.length_drop, bits_length] at hlt
    obtain ⟨br', hok⟩ := h.lookup_ok hr (by
      have : MAX_CODE_LEN = 15 := rfl
      omega) hdec
    exact ⟨_, br', by rw [HuffmanDecoder.decode, hok]⟩
  · unfold HuffmanDecoder.decode
    have := d.lookup_fuel br
    split
    · next e he =>
      intro heq
      cases heq
      exact this he
    · simp

end RustyRapidgzip
