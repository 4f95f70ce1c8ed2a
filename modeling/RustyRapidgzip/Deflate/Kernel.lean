import RustyRapidgzip.Deflate.Header
import RustyRapidgzip.Deflate.Tokens
import RustyRapidgzip.Lib.Iterate

/-!
# Parts of the symbol loops

The symbol loops share their refill, the way an entry is split into base and extra
bits, and the copy. A round of such a loop is described by what it does to the
remaining bits and the output; the loop then decodes exactly the block bodies of
the reference that leave it enough bits to read ahead.
-/

namespace RustyRapidgzip

open LsbBits Reference HuffmanDecoder Lz

namespace BitReader

/-- OR in eight bytes and count the whole bytes that fit: `bits |= 56`. -/
def refillWide (br : BitReader) : BitReader :=
  { br with
    buf := br.buf ||| ((loadLeU64 br.input br.bytePos <<< br.bits) % 2 ^ 64)
    bytePos := br.bytePos + (63 ^^^ br.bits) >>> 3
    bits := br.bits ||| 56 }

/-- The refill of the fast kernels: unconditional while eight bytes remain, else byte
by byte up to 48 bits. -/
def refillKernel (br : BitReader) : Except DeflateError BitReader :=
  if br.bytePos + 8 ≤ br.input.length then .ok br.refillWide
  else
    match refillSlow 8 br 48 with
    | (true, br) => .ok br
    | (false, _) => .error .unexpectedEof

/-- A base plus extra bits that the word already holds. -/
def takeExtra (br : BitReader) (base extra : ℕ) : ℕ × BitReader :=
  if 0 < extra then (base + br.peekBitsUnchecked extra, br.consume extra) else (base, br)

end BitReader

/-- The length of a length entry. -/
def lengthOf (entry : ℕ) (br : BitReader) : ℕ × BitReader :=
  br.takeExtra ((entry >>> 16) &&& 0x1ff) ((entry >>> 8) &&& 0x1f)

/-- The distance symbol and its extra bits. -/
def distanceOf (dist : HuffmanDecoder) (br : BitReader) : Except DeflateError (ℕ × BitReader) := do
  let (dentry, br) ← dist.lookupFilled br
  if dentry &&& HUFFDEC_EXCEPTIONAL ≠ 0 then .error (.invalid "distance symbol out of range")
  else .ok (br.takeExtra (dentry >>> 16) ((dentry >>> 8) &&& 0x1f))

/-- Read a distance and resolve the copy of the given length. -/
def copyMatch {τ : Type} (resolve : τ → ℕ → ℕ → Except DeflateError τ)
    (dist : HuffmanDecoder) (length : ℕ) (out : τ) (br : BitReader) :
    Except DeflateError (τ × BitReader) := do
  let (distance, br) ← distanceOf dist br
  let out ← resolve out distance length
  .ok (out, br)

/-- Act on an entry that is no literal: end the block, or read and resolve a copy. -/
def symbolTail {α : Type} (resolve : List α → ℕ → ℕ → Except DeflateError (List α))
    (dist : HuffmanDecoder) (entry : ℕ) (out : List α) (br : BitReader) :
    Except DeflateError ((List α × BitReader) ⊕ (List α × BitReader)) :=
  if entry &&& HUFFDEC_EXCEPTIONAL ≠ 0 then
    if entry >>> 16 = 0 then .ok (.inr (out, br))
    else .error (.invalid "literal/length symbol out of range")
  else
    let (length, br) := lengthOf entry br
    match copyMatch resolve dist length out br with
    | .error e => .error e
    | .ok s => .ok (.inl s)

section Copy

variable {α : Type} [Inhabited α]

/-- Push `n` elements, reading each after the ones before it were pushed. -/
def copyLoop : ℕ → ℕ → List α → List α
  | _, 0, out => out
  | start, n + 1, out => copyLoop (start + 1) n (out ++ [out.getD start default])

/-- Append `length` elements from `distance` elements back: a slice, a run of one
element, or one element at a time. -/
def copyBackRaw (out : List α) (distance length : ℕ) : List α :=
  let start := out.length - distance
  if length ≤ distance then out ++ (out.drop start).take length
  else if distance = 1 then out ++ List.replicate length (out.getD start default)
  else copyLoop start length out

/-- The loop over the elements is the copy. -/
theorem copyLoop_eq {out : List α} {d n : ℕ} (hd : 0 < d) (hle : d ≤ out.length) :
    copyLoop (out.length - d) n out = copyBack out d n := by
  induction n generalizing out with
  | zero => rfl
  | succ n ih =>
    have hnext := @ih (out ++ [out[out.length - d]]) (by simp; omega)
    rw [List.length_append, List.length_singleton] at hnext
    rw [copyBack_succ n hd hle, copyLoop, List.getD_eq_getElem _ _ (by omega), ← hnext,
      show out.length - d + 1 = out.length + 1 - d by omega]

/-- The three ways to copy append the same elements. -/
theorem copyBackRaw_eq {out : List α} {d n : ℕ} (hd : 0 < d) (hle : d ≤ out.length) :
    copyBackRaw out d n = copyBack out d n := by
  unfold copyBackRaw
  by_cases hslice : n ≤ d
  · simp only [if_pos hslice]
    rw [copyBack_eq_slice hd hle hslice]
  by_cases hone : d = 1
  · subst d
    simp only [if_neg hslice, if_true]
    rw [copyBack_eq_replicate hle, List.getD_eq_getElem _ _ (by omega)]
  · simp only [if_neg hslice, if_neg hone]
    exact copyLoop_eq hd hle

end Copy

/-! ## Refills and lookups -/

namespace BitReader

variable {br : BitReader} {input : List UInt8} {bs : List Bool} {n : ℕ}

/-- The reader has the bits `bs` left and `n` of them in its word. -/
def Holds (br : BitReader) (input : List UInt8) (bs : List Bool) (n : ℕ) : Prop :=
  (∃ p, br.Reads input p ∧ bs = (LsbBits.bits input).drop p) ∧ n ≤ br.bits

/-- A reader at a place holds its valid bits. -/
theorem At.holds (h : br.At input bs) (hn : n ≤ br.bits) : br.Holds input bs n := ⟨h.reads, hn⟩

/-- Counting the bits of a full refill. -/
theorem wide_bits : ∀ b ≤ 63, b ||| 56 = b % 8 + 56 ∧ (63 ^^^ b) >>> 3 = 7 - b / 8 := by
  decide

/-- A wide refill keeps the place. -/
theorem At.refillWide (h : br.At input bs) (hroom : br.bytePos + 8 ≤ br.input.length) :
    br.refillWide.At input bs ∧ 56 ≤ br.refillWide.bits := by
  obtain ⟨p, hr, rfl⟩ := h.reads
  obtain ⟨hor, hadvance⟩ := wide_bits br.bits h.bits_le
  have hle := h.bits_le
  have htell := hr.acc.tell
  have hbits : br.refillWide.bits = br.bits % 8 + 56 := hor
  have hpos : br.refillWide.bytePos = br.bytePos + (7 - br.bits / 8) := by
    rw [← hadvance]
    rfl
  have hbuf : br.refillWide.buf = br.buf ||| (loadLeU64 input br.bytePos <<< br.bits) % 2 ^ 64 := by
    rw [← hr.input_eq]
    rfl
  rw [hr.input_eq] at hroom
  refine ⟨⟨⟨p, ⟨hr.input_eq, ?_⟩, rfl⟩, by omega⟩, by omega⟩
  rw [hbuf]
  apply hr.acc.refill (loadLeU64_stale input br.bytePos)
  · intro i hi
    exact testBit_loadLeU64 input br.bytePos i (by omega)
  · omega
  · omega
  · omega

/-- The kernels' refill succeeds exactly when 48 bits are left. -/
theorem At.refillKernel (h : br.At input bs) :
    (48 ≤ bs.length ∧ ∃ br', br.refillKernel = .ok br' ∧ br'.At input bs ∧ 48 ≤ br'.bits) ∨
    (bs.length < 48 ∧ br.refillKernel = .error .unexpectedEof) := by
  obtain ⟨p, hr, hbs⟩ := h.reads
  have htell := hr.acc.tell
  have hpos := hr.pos_le
  have hlen : bs.length + p = 8 * input.length := by
    rw [hbs, List.length_drop, bits_length]
    omega
  have hle := h.bits_le
  unfold BitReader.refillKernel
  by_cases hwide : br.bytePos + 8 ≤ br.input.length
  · obtain ⟨hat, hbits⟩ := h.refillWide hwide
    rw [hr.input_eq] at hwide
    rw [hr.input_eq, if_pos hwide]
    exact Or.inl ⟨by omega, _, rfl, hat, by omega⟩
  · rw [if_neg hwide]
    obtain ⟨hiff, hspec⟩ := refillSlow_spec 8 48 hr (by decide) (by omega)
    cases hs : refillSlow 8 br 48 with
    | mk flag br' =>
      rw [hs] at hiff hspec
      cases flag with
      | true =>
        obtain ⟨hr', hbits, -, hbound⟩ := hspec rfl
        have hroom := hiff.mp rfl
        refine Or.inl ⟨by omega, br', rfl, ⟨⟨p, hr', hbs⟩, ?_⟩, hbits⟩
        rcases hbound with hle' | heq
        · exact hle'
        · simp only at heq
          omega
      | false =>
        have hroom : ¬p + 48 ≤ 8 * input.length := fun hle' => by simpa using hiff.mpr hle'
        exact Or.inr ⟨by omega, rfl⟩

/-- The reader's own refill does the same for the serial kernel. -/
theorem At.refill48 (h : br.At input bs) :
    (48 ≤ bs.length ∧ ∃ br', br.refill 48 = (true, br') ∧ br'.Holds input bs 48) ∨
    (bs.length < 48 ∧ (br.refill 48).1 = false) := by
  obtain ⟨p, hr, hbs⟩ := h.reads
  have hpos := hr.pos_le
  have hlen : bs.length + p = 8 * input.length := by
    rw [hbs, List.length_drop, bits_length]
    omega
  obtain ⟨hiff, hspec⟩ := hr.refill (n := 48) (by decide)
  cases hs : br.refill 48 with
  | mk flag br' =>
    rw [hs] at hiff hspec
    cases flag with
    | true =>
      obtain ⟨hr', hbits, -⟩ := hspec rfl
      have hroom := hiff.mp rfl
      exact Or.inl ⟨by omega, br', rfl, ⟨p, hr', hbs⟩, hbits⟩
    | false =>
      have hroom : ¬p + 48 ≤ 8 * input.length := fun hle => by simpa using hiff.mpr hle
      exact Or.inr ⟨by omega, rfl⟩

/-- Consuming held bits. -/
theorem Holds.consume (h : br.Holds input bs n) {k : ℕ} (hk : k ≤ n) (hpos : 0 < k) :
    (br.consume k).At input (bs.drop k) ∧ n ≤ (br.consume k).bits + k := by
  obtain ⟨⟨p, hr, rfl⟩, hn⟩ := h
  have h64 : br.bits ≤ 64 := hr.acc.nbits_le
  refine ⟨⟨⟨p + k, hr.consume (by omega), by rw [List.drop_drop]⟩, ?_⟩, ?_⟩
  · rw [consume_bits]
    omega
  · rw [consume_bits]
    omega

/-- Extra bits that the word holds are the next bits of the stream. -/
theorem At.takeExtra (h : br.At input bs) (base extra : ℕ) (hextra : extra ≤ br.bits) :
    ∃ v br', readBits extra bs = some (v, bs.drop extra) ∧
      br.takeExtra base extra = (base + v, br') ∧ br'.At input (bs.drop extra) ∧
      br'.bits + extra = br.bits := by
  obtain ⟨p, hr, hbs⟩ := h.reads
  have hpos := hr.pos_le
  have hread : readBits extra bs = some (peekAt input p extra, bs.drop extra) := by
    rw [readBits, if_pos (by rw [hbs]; simp; omega), hbs, peekAt]
  unfold BitReader.takeExtra
  by_cases hzero : 0 < extra
  · have hat := ((h.holds hextra).consume le_rfl hzero).1
    rw [if_pos hzero, hr.peekBitsUnchecked_eq hextra]
    exact ⟨_, _, hread, rfl, hat, by rw [consume_bits]; omega⟩
  · obtain rfl : extra = 0 := by omega
    refine ⟨0, br, ?_, rfl, by simpa using h, rfl⟩
    rw [hread]
    simp [peekAt]

end BitReader

/-- A lookup in a reader that holds a whole codeword agrees with the canonical code. -/
theorem HuffmanDecoder.Implements.lookupFilled_cases {d : HuffmanDecoder} {lens : List ℕ}
    {encoding : Encoding} (h : d.Implements lens encoding) {br : BitReader} {input : List UInt8}
    {bs : List Bool} {n : ℕ} (hold : br.Holds input bs n) (hn : 15 ≤ n) :
    (∃ s rest br', Canonical.decode lens 15 bs = some (s, rest) ∧ s < lens.length ∧
      lens.getD s 0 ≤ 15 ∧
      d.lookupFilled br = .ok (encodeEntry s (lens.getD s 0) encoding, br') ∧
      br'.At input rest ∧ n ≤ br'.bits + 15) ∨
    (Canonical.decode lens 15 bs = none ∧
      d.lookupFilled br = .error (.invalid "no matching huffman code")) := by
  obtain ⟨⟨p, hr, hbs⟩, hbits⟩ := hold
  have hlook := h.lookupFilled_eq hr (Nat.le_trans hn hbits)
  rw [← hbs] at hlook
  cases hdec : Canonical.decode lens 15 bs with
  | none =>
    rw [show Canonical.decode lens MAX_CODE_LEN bs = none from hdec] at hlook
    exact Or.inr ⟨rfl, hlook⟩
  | some r =>
    obtain ⟨s, rest⟩ := r
    rw [show Canonical.decode lens MAX_CODE_LEN bs = some (s, rest) from hdec] at hlook
    obtain ⟨hlt, hpos, hle, -⟩ := Canonical.decode_some hdec
    have hrest := Implements.decode_rest hdec
    have hcons := BitReader.Holds.consume ⟨⟨p, hr, hbs⟩, hbits⟩ (k := lens.getD s 0)
      (by omega) hpos
    rw [← hrest] at hcons
    exact Or.inl ⟨s, rest, _, rfl, hlt, hle, hlook, hcons.1, by omega⟩

/-! ## What the entries say -/

/-- The literal flag is the highest bit. -/
theorem and_literal (e : ℕ) : e &&& HUFFDEC_LITERAL ≠ 0 ↔ e / 2 ^ 31 % 2 = 1 := by
  have h : HUFFDEC_LITERAL = 2 ^ 31 := rfl
  rw [h, Nat.and_two_pow, Nat.testBit_eq_decide_div_mod_eq]
  simp

/-- The exceptional flag is the sixteenth bit. -/
theorem and_exceptional (e : ℕ) : e &&& HUFFDEC_EXCEPTIONAL ≠ 0 ↔ e / 2 ^ 15 % 2 = 1 := by
  have h : HUFFDEC_EXCEPTIONAL = 2 ^ 15 := rfl
  rw [h, Nat.and_two_pow, Nat.testBit_eq_decide_div_mod_eq]
  simp

/-- Two fields that do not overlap are a sum. -/
theorem pack_two {a b : ℕ} (hb : b < 2 ^ 16) : a <<< 16 ||| b = a * 65536 + b := by
  rw [← Nat.shiftLeft_add_eq_or_of_lt hb, Nat.shiftLeft_eq]

/-- Three fields that do not overlap are a sum. -/
theorem pack_three {a b c : ℕ} (hb : b < 2 ^ 8) (hc : c < 2 ^ 8) :
    a <<< 16 ||| b <<< 8 ||| c = a * 65536 + b * 256 + c := by
  have hlow : b <<< 8 ||| c = b * 256 + c := by
    rw [← Nat.shiftLeft_add_eq_or_of_lt hc, Nat.shiftLeft_eq]
  rw [Nat.or_assoc, hlow, pack_two (by omega), Nat.add_assoc]

/-- The fields of an entry with base and extra bits. -/
theorem pack_fields (base extra length : ℕ) (hbase : base < 2 ^ 15) (hextra : extra < 2 ^ 5)
    (hlength : length < 2 ^ 8) :
    (base <<< 16 ||| extra <<< 8 ||| length) >>> 16 = base ∧
      ((base <<< 16 ||| extra <<< 8 ||| length) >>> 8) &&& 0x1f = extra ∧
      (base <<< 16 ||| extra <<< 8 ||| length) &&& HUFFDEC_LITERAL = 0 ∧
      (base <<< 16 ||| extra <<< 8 ||| length) &&& HUFFDEC_EXCEPTIONAL = 0 := by
  have hlit := and_literal (base * 65536 + extra * 256 + length)
  have hexc := and_exceptional (base * 65536 + extra * 256 + length)
  rw [pack_three (by omega) hlength, Nat.shiftRight_eq_div_pow, Nat.shiftRight_eq_div_pow,
    show (0x1f : ℕ) = 2 ^ 5 - 1 from rfl, Nat.and_two_pow_sub_one_eq_mod]
  refine ⟨by omega, by omega, ?_, ?_⟩
  · by_contra h
    have := hlit.mp h
    omega
  · by_contra h
    have := hexc.mp h
    omega

/-- A literal/length entry says what its symbol means. -/
theorem litLen_entry {s length : ℕ} (hs : s < 2 ^ 15) (hlength : length ≤ 15) :
    match litLen s with
    | .literal b => encodeEntry s length .litLen &&& HUFFDEC_LITERAL ≠ 0 ∧
        UInt8.ofNat (encodeEntry s length .litLen >>> 16) = b
    | .endOfBlock => encodeEntry s length .litLen &&& HUFFDEC_LITERAL = 0 ∧
        encodeEntry s length .litLen &&& HUFFDEC_EXCEPTIONAL ≠ 0 ∧
        encodeEntry s length .litLen >>> 16 = 0
    | .length base extra => encodeEntry s length .litLen &&& HUFFDEC_LITERAL = 0 ∧
        encodeEntry s length .litLen &&& HUFFDEC_EXCEPTIONAL = 0 ∧
        (encodeEntry s length .litLen >>> 16) &&& 0x1ff = base ∧
        (encodeEntry s length .litLen >>> 8) &&& 0x1f = extra
    | .reserved => encodeEntry s length .litLen &&& HUFFDEC_LITERAL = 0 ∧
        encodeEntry s length .litLen &&& HUFFDEC_EXCEPTIONAL ≠ 0 ∧
        encodeEntry s length .litLen >>> 16 ≠ 0 := by
  have hzero {e n : ℕ} (h : ¬e &&& n ≠ 0) : e &&& n = 0 := not_not.mp h
  cases hsym : litLen s with
  | literal b =>
    unfold litLen at hsym
    split at hsym
    · next hlt =>
      cases hsym
      have hentry : encodeEntry s length .litLen = 2 ^ 31 + (s * 65536 + length) := by
        rw [encodeEntry, if_pos hlt, Nat.or_assoc, pack_two (by omega), HUFFDEC_LITERAL,
          ← Nat.shiftLeft_add_eq_or_of_lt (by omega), Nat.one_shiftLeft]
      have hbyte : (2 ^ 31 + (s * 65536 + length)) >>> 16 = 2 ^ 15 + s := by
        rw [Nat.shiftRight_eq_div_pow]
        omega
      simp only
      rw [and_literal, hentry, hbyte]
      refine ⟨by omega, ?_⟩
      apply UInt8.toNat_inj.mp
      rw [UInt8.toNat_ofNat', UInt8.toNat_ofNat']
      omega
    split at hsym
    · cases hsym
    split at hsym <;> cases hsym
  | endOfBlock =>
    have hs256 : s = 256 := by
      unfold litLen at hsym
      split at hsym
      · cases hsym
      split at hsym
      · assumption
      split at hsym <;> cases hsym
    subst s
    have hentry : encodeEntry 256 length .litLen = 2 ^ 15 + length := by
      rw [encodeEntry, if_neg (by decide), if_pos rfl, HUFFDEC_EXCEPTIONAL,
        ← Nat.shiftLeft_add_eq_or_of_lt (by omega), Nat.one_shiftLeft]
    simp only
    rw [hentry, Nat.shiftRight_eq_div_pow]
    refine ⟨hzero fun h => ?_, (and_exceptional _).mpr (by omega), by omega⟩
    have := (and_literal _).mp h
    omega
  | length base extra =>
    obtain ⟨-, hbase, hextra, -⟩ := litLen_length_bounds hsym
    have hentry : encodeEntry s length .litLen = base <<< 16 ||| extra <<< 8 ||| length := by
      unfold litLen at hsym
      split at hsym
      · cases hsym
      next hbyte =>
      split at hsym
      · cases hsym
      next heob =>
      split at hsym
      · next hle =>
        obtain ⟨rfl, rfl⟩ := LitLen.length.inj hsym
        rw [encodeEntry, if_neg hbyte, if_neg heob, if_pos hle]
      · cases hsym
    obtain ⟨hhigh, hmid, hlit, hexc⟩ :=
      pack_fields base extra length (by omega) (by omega)
        (by omega)
    simp only
    rw [hentry, hhigh, hmid, show (0x1ff : ℕ) = 2 ^ 9 - 1 from rfl,
      Nat.and_two_pow_sub_one_eq_mod, Nat.mod_eq_of_lt hbase]
    exact ⟨hlit, hexc, rfl, rfl⟩
  | reserved =>
    have hs286 : 286 ≤ s := by
      unfold litLen at hsym
      split at hsym
      · cases hsym
      split at hsym
      · cases hsym
      split at hsym
      · cases hsym
      · omega
    have hentry : encodeEntry s length .litLen = HUFFDEC_EXCEPTIONAL ||| (s * 65536 + length) := by
      rw [encodeEntry, if_neg (by omega), if_neg (by omega), if_neg (by omega), Nat.or_assoc,
        pack_two (by omega)]
    have hsmall : HUFFDEC_EXCEPTIONAL ||| (s * 65536 + length) < 2 ^ 31 :=
      Nat.or_lt_two_pow (by rw [HUFFDEC_EXCEPTIONAL, Nat.one_shiftLeft]; omega) (by omega)
    simp only
    rw [hentry]
    refine ⟨hzero fun h => ?_, ?_, ?_⟩
    · have := (and_literal _).mp h
      omega
    · rw [Nat.and_comm, Nat.and_or_distrib_left, Nat.and_self]
      intro h
      have := (Nat.or_eq_zero_iff.mp h).1
      exact absurd this (by decide)
    · rw [Nat.shiftRight_or_distrib, Nat.shiftRight_eq_div_pow (s * 65536 + length)]
      intro h
      have := (Nat.or_eq_zero_iff.mp h).2
      omega

/-- A distance entry carries base and extra bits, and a reserved one is exceptional. -/
theorem dist_entry {s length : ℕ} (hlength : length ≤ 15) :
    match distance s with
    | some (base, extra) => encodeEntry s length .dist &&& HUFFDEC_EXCEPTIONAL = 0 ∧
        encodeEntry s length .dist >>> 16 = base ∧
        (encodeEntry s length .dist >>> 8) &&& 0x1f = extra
    | none => encodeEntry s length .dist &&& HUFFDEC_EXCEPTIONAL ≠ 0 := by
  cases hsym : distance s with
  | some r =>
    obtain ⟨base, extra⟩ := r
    obtain ⟨-, hbase, hextra, -⟩ := distance_bounds hsym
    have hentry : encodeEntry s length .dist = base <<< 16 ||| extra <<< 8 ||| length := by
      unfold distance at hsym
      split at hsym
      · simp only [Option.some.injEq, Prod.mk.injEq] at hsym
        obtain ⟨rfl, rfl⟩ := hsym
        rw [encodeEntry, if_pos ‹_›]
      · cases hsym
    obtain ⟨hhigh, hmid, -, hexc⟩ :=
      pack_fields base extra length hbase (by omega) (by omega)
    simp only
    rw [hentry]
    exact ⟨hexc, hhigh, hmid⟩
  | none =>
    have hs : ¬s ≤ 29 := by
      intro hle
      rw [distance, if_pos hle] at hsym
      cases hsym
    simp only
    rw [encodeEntry, if_neg hs, and_exceptional, HUFFDEC_EXCEPTIONAL,
      ← Nat.shiftLeft_add_eq_or_of_lt (by omega), Nat.one_shiftLeft]
    omega

/-! ## Copies read by the kernels -/

section Match

variable {dist : HuffmanDecoder} {lens : List ℕ} {br : BitReader} {input : List UInt8}
  {bs : List Bool}

/-- With 28 bits in the word, the distance is the reference's. -/
theorem agrees_distanceOf (h : dist.Implements lens .dist) (hat : br.At input bs)
    (hbits : 28 ≤ br.bits) :
    Agrees 0 input Eq (distanceOf dist br) (readDistance lens bs) := by
  unfold distanceOf readDistance
  rcases h.lookupFilled_cases (hat.holds hbits) (by decide) with
    ⟨s, rest, br', hdec, -, hle, hlook, hat', hbits'⟩ | ⟨hdec, hlook⟩
  · rw [hdec, hlook]
    simp only [bind, Except.bind, Option.bind_some]
    have hentry := dist_entry (s := s) hle
    cases hsym : distance s with
    | none =>
      rw [hsym] at hentry
      rw [if_pos hentry]
      exact Agrees.fail (by simp)
    | some r =>
      obtain ⟨base, extra⟩ := r
      rw [hsym] at hentry
      obtain ⟨hexc, hbase, hextra⟩ := hentry
      obtain ⟨-, -, hextra13, -⟩ := distance_bounds hsym
      obtain ⟨v, br'', hread, htake, hat'', -⟩ := hat'.takeExtra base extra (by omega)
      rw [if_neg (not_not.mpr hexc), hbase, hextra, htake]
      simp only [Option.bind_some]
      rw [hread]
      exact Agrees.pure rfl hat''
  · rw [hdec, hlook]
    exact Agrees.fail (by simp)

/-- A round of a symbol loop: it fails where the reference reads no block body, ends the
block, or reads and expands some tokens. -/
def RoundSpec {α : Type} (input : List UInt8) (sound complete : ℕ) (lit dist : List ℕ)
    (f : UInt8 → α) (bs : List Bool) (out : List α) :
    Except DeflateError ((List α × BitReader) ⊕ (List α × BitReader)) → Prop
  | .error e => e ≠ .outOfFuel ∧ ∀ rest res, ¬Decodes complete lit dist f bs out rest res
  | .ok (.inr (res, br)) => ∃ rest, Decodes sound lit dist f bs out rest res ∧ br.At input rest
  | .ok (.inl (out', br)) => ∃ ts mid, ts ≠ [] ∧ Steps lit dist bs ts mid ∧
      expand f out ts = some out' ∧ br.At input mid

/-- What a whole symbol loop returns. -/
def LoopSpec {α : Type} (input : List UInt8) (sound complete : ℕ) (lit dist : List ℕ)
    (f : UInt8 → α) (bs : List Bool) (out : List α) :
    Except DeflateError (List α × BitReader) → Prop
  | .error e => e ≠ .outOfFuel ∧ ∀ rest res, ¬Decodes complete lit dist f bs out rest res
  | .ok (res, br) => ∃ rest, Decodes sound lit dist f bs out rest res ∧ br.At input rest

/-- The copy of a kernel whose states stand for outputs, as `S` says before the copy and
`S'` after it: the reference's copy inside the history, an error outside it. -/
def Resolves {τ α : Type} (S S' : τ → List α → Prop)
    (resolve : τ → ℕ → ℕ → Except DeflateError τ) : Prop :=
  ∀ (t : τ) (out : List α) (d n : ℕ), S t out → CopyBounds (.copy n d) →
    (d ≤ out.length ∧ ∃ t', resolve t d n = .ok t' ∧ S' t' (copyBack out d n)) ∨
    (out.length < d ∧ ∃ e, resolve t d n = .error e ∧ e ≠ .outOfFuel)

section Loops

variable {σ ρ α : Type} {sound complete : ℕ} {lit dist : List ℕ} {f : UInt8 → α}

/-- A round of a loop whose states stand for remaining bits and an output (`Inv`), as its
results do (`Done`). A continuing round also decreases a measure. -/
def RoundFollows (sound complete : ℕ) (lit dist : List ℕ) (f : UInt8 → α)
    (Inv : σ → List Bool → List α → Prop) (Done : ρ → List Bool → List α → Prop)
    (measure : σ → List Bool → ℕ) (bound : ℕ) (bs : List Bool) (out : List α) :
    Except DeflateError (σ ⊕ ρ) → Prop
  | .error e => e ≠ .outOfFuel ∧ ∀ rest res, ¬Decodes complete lit dist f bs out rest res
  | .ok (.inr r) => ∃ rest res, Decodes sound lit dist f bs out rest res ∧ Done r rest res
  | .ok (.inl s) => ∃ ts mid out', Steps lit dist bs ts mid ∧ expand f out ts = some out' ∧
      Inv s mid out' ∧ measure s mid < bound

/-- What a loop with such rounds returns. -/
def LoopFollows (sound complete : ℕ) (lit dist : List ℕ) (f : UInt8 → α)
    (Done : ρ → List Bool → List α → Prop) (bs : List Bool) (out : List α) :
    Except DeflateError ρ → Prop
  | .error e => e ≠ .outOfFuel ∧ ∀ rest res, ¬Decodes complete lit dist f bs out rest res
  | .ok r => ∃ rest res, Decodes sound lit dist f bs out rest res ∧ Done r rest res

/-- A loop whose rounds follow the tokens decodes the block body. -/
theorem loopFollows_iterate (Inv : σ → List Bool → List α → Prop)
    (measure : σ → List Bool → ℕ) {Done : ρ → List Bool → List α → Prop}
    {body : σ → Except DeflateError (σ ⊕ ρ)}
    (hbody : ∀ s bs out, Inv s bs out →
      RoundFollows sound complete lit dist f Inv Done measure (measure s bs) bs out (body s))
    {fuel : ℕ} {s : σ} {bs : List Bool} {out : List α} (hinv : Inv s bs out)
    (hfuel : measure s bs < fuel) :
    LoopFollows sound complete lit dist f Done bs out (Loop.iterate .outOfFuel body fuel s) := by
  induction fuel generalizing s bs out with
  | zero => omega
  | succ fuel ih =>
    have hround := hbody s bs out hinv
    cases hres : body s with
    | error e =>
      rw [Loop.iterate_fail hres]
      rwa [hres] at hround
    | ok next =>
      rw [hres] at hround
      cases next with
      | inr r =>
        rw [Loop.iterate_break hres]
        exact hround
      | inl s' =>
        obtain ⟨ts, mid, out', hsteps, hexpand, hinv', hlt⟩ := hround
        have hrest := ih hinv' (by omega)
        rw [Loop.iterate_continue hres]
        revert hrest
        cases Loop.iterate .outOfFuel body fuel s' with
        | error e =>
          rintro ⟨he, hnone⟩
          exact ⟨he, fun rest res hdec =>
            hnone rest res ((hsteps.decodes_iff hexpand).mpr hdec)⟩
        | ok r =>
          rintro ⟨rest, res, hdec, hdone⟩
          exact ⟨rest, res, (hsteps.decodes_iff hexpand).mp hdec, hdone⟩

/-- A pair of a state and a reader, where `S` relates the state to an output. -/
def Stands {τ : Type} (S : τ → List α → Prop) (input : List UInt8) (s : τ × BitReader)
    (bs : List Bool) (out : List α) : Prop :=
  S s.1 out ∧ s.2.At input bs

/-- A loop over output and reader whose rounds read one or more tokens. -/
theorem loopSpec_iterate {body : List α × BitReader →
      Except DeflateError ((List α × BitReader) ⊕ (List α × BitReader))}
    (hbody : ∀ out br bs, br.At input bs →
      RoundSpec input sound complete lit dist f bs out (body (out, br)))
    {fuel : ℕ} {out : List α} (hat : br.At input bs) (hfuel : bs.length < fuel) :
    LoopSpec input sound complete lit dist f bs out
      (Loop.iterate .outOfFuel body fuel (out, br)) := by
  have hfollows : LoopFollows sound complete lit dist f (Stands Eq input) bs out
      (Loop.iterate .outOfFuel body fuel (out, br)) := by
    refine loopFollows_iterate (Stands Eq input) (fun _ bs => bs.length) ?_ ⟨rfl, hat⟩ hfuel
    rintro ⟨out, br⟩ bs _ ⟨rfl, hat⟩
    have hround := hbody out br bs hat
    revert hround
    rcases body (out, br) with e | s' | r
    · exact id
    · rintro ⟨ts, mid, hne, hsteps, hexpand, hat'⟩
      have hlen := hsteps.length_le
      have hpos := List.length_pos_iff.mpr hne
      exact ⟨ts, mid, s'.1, hsteps, hexpand, ⟨rfl, hat'⟩, by simp only; omega⟩
    · rintro ⟨rest, hdec, hat'⟩
      exact ⟨rest, r.1, hdec, rfl, hat'⟩
  revert hfollows
  cases Loop.iterate .outOfFuel body fuel (out, br) with
  | error e => exact id
  | ok r =>
    rintro ⟨rest, res, hdec, rfl, hat'⟩
    exact ⟨rest, hdec, hat'⟩

end Loops

/-- Reading a token, step by step. -/
theorem readToken_eq {lit : List ℕ} (dist : List ℕ) {s : ℕ} {rest : List Bool}
    (hdec : Canonical.decode lit 15 bs = some (s, rest)) :
    readToken lit dist bs = match litLen s with
      | .literal b => some (some (.lit b), rest)
      | .endOfBlock => some (none, rest)
      | .length base extra => do
        let (e, bs) ← readBits extra rest
        let (d, bs) ← readDistance dist bs
        some (some (.copy (base + e) d), bs)
      | .reserved => none := by
  rw [readToken, hdec]
  rfl

/-- Once its length is known, a copy is the reference's next token, or nothing can be
decoded. -/
theorem copyMatch_cases {τ α : Type} {lit : List ℕ} {f : UInt8 → α} {S S' : τ → List α → Prop}
    {resolve : τ → ℕ → ℕ → Except DeflateError τ} (hresolve : Resolves S S' resolve)
    (h : dist.Implements lens .dist) {s base extra v : ℕ} {rest mid : List Bool}
    (hdec : Canonical.decode lit 15 bs = some (s, rest)) (hsym : litLen s = .length base extra)
    (hread : readBits extra rest = some (v, mid)) (hat : br.At input mid)
    (hbits : 28 ≤ br.bits) {t : τ} {out : List α} (hS : S t out) :
    (∃ t' br' tok mid' out', copyMatch resolve dist (base + v) t br = .ok (t', br') ∧
      readToken lit lens bs = some (some tok, mid') ∧ expandToken f out tok = some out' ∧
      S' t' out' ∧ br'.At input mid') ∨
    (∃ e, copyMatch resolve dist (base + v) t br = .error e ∧ e ≠ .outOfFuel ∧
      ∀ room rest' res, ¬Decodes room lit lens f bs out rest' res) := by
  have htoken := readToken_eq lens hdec
  have hdist := agrees_distanceOf h hat hbits
  rw [hsym] at htoken
  simp only [bind, hread, Option.bind_some] at htoken
  unfold copyMatch
  cases hd : readDistance lens mid with
  | none =>
    rw [hd] at htoken
    cases hdo : distanceOf dist br with
    | error e =>
      refine Or.inr ⟨e, rfl, ?_, fun _ _ _ => not_decodes_of_readToken htoken⟩
      rintro rfl
      exact hdist.fuel hdo
    | ok r =>
      obtain ⟨d, br₂⟩ := r
      obtain ⟨b, rest', hsome, -⟩ := hdist.sound d br₂ hdo
      rw [hd] at hsome
      cases hsome
  | some r =>
    obtain ⟨d, mid'⟩ := r
    rw [hd] at htoken
    obtain ⟨d', br₂, hdo⟩ := hdist.complete d mid' hd (Nat.zero_le _)
    obtain ⟨b, rest'', hsome, rfl, hat₂⟩ := hdist.sound d' br₂ hdo
    rw [hd] at hsome
    cases hsome
    have hbounds := readToken_bounds htoken
    rw [hdo]
    simp only [bind, Except.bind]
    rcases hresolve t out d (base + v) hS hbounds with ⟨hle, t', hok, hS'⟩ | ⟨hlt, e, herr, he⟩
    · have hexpand : expandToken f out (.copy (base + v) d) =
          some (copyBack out d (base + v)) := by
        rw [expandToken, if_pos ⟨hbounds.2.2.1, hle⟩]
      rw [hok]
      exact Or.inl ⟨t', br₂, _, mid', _, rfl, htoken, hexpand, hS', hat₂⟩
    · have hexpand : expandToken f out (.copy (base + v) d) = none := by
        rw [expandToken, if_neg (by omega)]
      rw [herr]
      exact Or.inr ⟨e, rfl, he, fun _ _ _ => not_decodes_of_expandToken htoken hexpand⟩

/-- The bits in the reader's word are bits of the stream. -/
theorem BitReader.At.bits_le_length (hat : br.At input bs) : br.bits ≤ bs.length := by
  obtain ⟨p, hr, rfl⟩ := hat.reads
  have hpos := hr.pos_le
  rw [List.length_drop, bits_length]
  omega

/-- A loaded entry stands under the reader's next ten bits. -/
theorem BitReader.At.peek_eq (hat : br.At input bs) (hbits : LUT_BITS ≤ br.bits) :
    br.peekBitsUnchecked LUT_BITS = ofLsb (bs.take LUT_BITS) := by
  obtain ⟨p, hr, rfl⟩ := hat.reads
  rw [hr.peekBitsUnchecked_eq hbits, peekAt]

/-- Refilling on a condition fails only where too few bits are left for any block. -/
theorem refillIf_cases (hat : br.At input bs) {c : Prop} [Decidable c] {n : ℕ} (hn : n ≤ 48)
    (hbits : ¬c → n ≤ br.bits) :
    (∃ br', (if c then br.refillKernel else .ok br) = .ok br' ∧ br'.At input bs ∧ n ≤ br'.bits) ∨
    ((if c then br.refillKernel else .ok br) = .error .unexpectedEof ∧ bs.length < 48) := by
  by_cases hc : c
  · simp only [if_pos hc]
    rcases hat.refillKernel with ⟨-, br', hok, hat', hbits'⟩ | ⟨hlt, herr⟩
    · exact Or.inl ⟨br', hok, hat', by omega⟩
    · exact Or.inr ⟨herr, hlt⟩
  · simp only [if_neg hc]
    exact Or.inl ⟨br, rfl, hat, hbits hc⟩

/-- Past a length symbol, a decodable block still has its room. -/
theorem not_decodes_of_length {α : Type} {lits dists : List ℕ} {f : UInt8 → α} {out res : List α}
    {s base extra v room : ℕ} {rest mid r : List Bool}
    (hdec : Canonical.decode lits 15 bs = some (s, rest)) (hsym : litLen s = .length base extra)
    (hread : readBits extra rest = some (v, mid)) (hlt : mid.length < room) :
    ¬Decodes room lits dists f bs out r res := by
  intro hdecodes
  have htoken := readToken_eq dists hdec
  rw [hsym] at htoken
  simp only [bind, hread, Option.bind_some] at htoken
  rcases hdecodes.cases with ⟨hstop, -⟩ | ⟨t, mid', out', htoken', -, htail⟩
  · rw [htoken] at hstop
    obtain ⟨⟨d, mid'⟩, -, h⟩ := Option.bind_eq_some_iff.mp hstop
    cases h
  · rw [htoken] at htoken'
    obtain ⟨⟨d, mid''⟩, hdist, h⟩ := Option.bind_eq_some_iff.mp htoken'
    cases h
    have hroom := htail.room_le
    have hshort := readDistance_length hdist
    simp only at hroom
    omega

/-- Acting on an entry that is no literal. -/
theorem roundSpec_symbolTail {α : Type} {sound complete : ℕ} {lit : List ℕ} {f : UInt8 → α}
    {resolve : List α → ℕ → ℕ → Except DeflateError (List α)} (hresolve : Resolves Eq Eq resolve)
    (h : dist.Implements lens .dist) {s length : ℕ} {rest : List Bool} (hs : s < 2 ^ 15)
    (hlength : length ≤ 15) (hdec : Canonical.decode lit 15 bs = some (s, rest))
    (hlit : encodeEntry s length .litLen &&& HUFFDEC_LITERAL = 0) (hat : br.At input rest)
    (hbits : 33 ≤ br.bits) (hsound : sound ≤ bs.length) (out : List α) :
    RoundSpec input sound complete lit lens f bs out
      (symbolTail resolve dist (encodeEntry s length .litLen) out br) := by
  have hentry := litLen_entry (s := s) hs hlength
  have htoken := readToken_eq lens hdec
  unfold symbolTail
  cases hsym : litLen s with
  | literal b =>
    rw [hsym] at hentry
    exact absurd hlit hentry.1
  | endOfBlock =>
    rw [hsym] at hentry htoken
    rw [if_pos hentry.2.1, if_pos hentry.2.2]
    exact ⟨rest, ⟨[], .stop htoken hsound, rfl⟩, hat⟩
  | reserved =>
    rw [hsym] at hentry htoken
    rw [if_pos hentry.2.1, if_neg hentry.2.2]
    exact ⟨by simp, fun _ _ => not_decodes_of_readToken htoken⟩
  | length base extra =>
    rw [hsym] at hentry htoken
    obtain ⟨-, hexc, hbase, hextra⟩ := hentry
    obtain ⟨-, -, hextra5, -⟩ := litLen_length_bounds hsym
    obtain ⟨v, br₁, hread, htake, hat₁, hbits₁⟩ := hat.takeExtra base extra (by omega)
    rw [if_neg (not_not.mpr hexc), lengthOf, hbase, hextra, htake]
    rcases copyMatch_cases (f := f) (t := out) hresolve h hdec hsym hread hat₁ (by omega) rfl with
      ⟨out', br₂, t, mid, _, hok, htoken', hexpand, rfl, hat₂⟩ | ⟨e, herr, he, hnone⟩
    · simp only [hok]
      exact ⟨[t], mid, by simp, Steps.single htoken', by rw [expand_cons, hexpand]; rfl, hat₂⟩
    · simp only [herr]
      exact ⟨he, fun rest res => hnone complete rest res⟩

end Match

end RustyRapidgzip
