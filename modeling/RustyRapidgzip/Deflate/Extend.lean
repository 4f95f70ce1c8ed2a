import RustyRapidgzip.Deflate.Inflate
import RustyRapidgzip.Lib.Settle

/-!
# Blocks on a partial input

A decoder that has only the first bytes of its input either runs out of them or does
what it does on the whole input: the bits it looked at are the same. So it can be run
again, from the start of the block, whenever more bytes have come in.
-/

namespace RustyRapidgzip

open LsbBits Reference HuffmanDecoder Loop

namespace BitReader

/-- Two readers at the same bit, with `n` bits or more in their words. The first one has
the first bytes of the second one's input. -/
structure Abreast (n : ℕ) (input input' : List UInt8) (br br' : BitReader) : Prop where
  pos : ∃ p, br.Reads input p ∧ br'.Reads input' p
  held : n ≤ br.bits ∧ n ≤ br'.bits

/-- Two such readers whose words are not full. -/
structure InStep (n : ℕ) (input input' : List UInt8) (br br' : BitReader) : Prop extends
    Abreast n input input' br br' where
  bits_le : br.bits ≤ 63 ∧ br'.bits ≤ 63

/-- Two runs that return the same value, and readers in step. -/
def Alike {α : Type} (n : ℕ) (input input' : List UInt8) (r r' : α × BitReader) : Prop :=
  r.1 = r'.1 ∧ InStep n input input' r.2 r'.2

variable {input input' : List UInt8} {br br' : BitReader} {m n p : ℕ}

/-- Readers that are abreast are so with fewer bits. -/
theorem Abreast.mono (h : Abreast n input input' br br') (hle : m ≤ n) :
    Abreast m input input' br br' :=
  ⟨h.pos, Nat.le_trans hle h.held.1, Nat.le_trans hle h.held.2⟩

/-- Readers that are in step are so with fewer bits. -/
theorem InStep.mono (h : InStep n input input' br br') (hle : m ≤ n) :
    InStep m input input' br br' :=
  ⟨h.toAbreast.mono hle, h.bits_le⟩

/-- Readers that are in step are so in either order. -/
theorem InStep.symm (h : InStep n input input' br br') : InStep n input' input br' br := by
  obtain ⟨p, hr, hr'⟩ := h.pos
  exact ⟨⟨⟨p, hr', hr⟩, h.held.symm⟩, h.bits_le.symm⟩

/-- Readers that are in step are at one position. -/
theorem InStep.tellBit_eq (h : InStep n input input' br br') : br.tellBit = br'.tellBit := by
  obtain ⟨p, hr, hr'⟩ := h.pos
  rw [hr.tellBit_eq, hr'.tellBit_eq]

/-- The first reader, as one of the bits left to it. -/
theorem InStep.at (h : InStep n input input' br br') : ∃ bs, br.At input bs := by
  obtain ⟨p, hr, -⟩ := h.pos
  exact ⟨_, ⟨p, hr, rfl⟩, h.bits_le.1⟩

/-- New readers are in step. -/
theorem InStep.new (input input' : List UInt8) :
    InStep 0 input input' (BitReader.new input) (BitReader.new input') :=
  ⟨⟨⟨0, new_reads input, new_reads input'⟩, Nat.zero_le _, Nat.zero_le _⟩, Nat.zero_le _,
    Nat.zero_le _⟩

/-- Alignment keeps readers in step. -/
theorem InStep.byteAlign (h : InStep n input input' br br') :
    InStep 0 input input' br.byteAlign br'.byteAlign := by
  obtain ⟨p, hr, hr'⟩ := h.pos
  have hle (br : BitReader) : br.byteAlign.bits ≤ br.bits := Nat.sub_le _ _
  exact ⟨⟨⟨_, hr.byteAlign, hr'.byteAlign⟩, Nat.zero_le _, Nat.zero_le _⟩,
    Nat.le_trans (hle br) h.bits_le.1, Nat.le_trans (hle br') h.bits_le.2⟩

/-- Consuming bits that both words hold. -/
theorem Abreast.consume (h : Abreast n input input' br br') {k : ℕ} (hk : k ≤ n) (hpos : 0 < k) :
    InStep (n - k) input input' (br.consume k) (br'.consume k) := by
  obtain ⟨⟨p, hr, hr'⟩, hn, hn'⟩ := h
  have h64 := hr.acc.nbits_le
  have h64' := hr'.acc.nbits_le
  refine ⟨⟨⟨p + k, hr.consume (by omega), hr'.consume (by omega)⟩, ?_, ?_⟩, ?_, ?_⟩ <;>
    · rw [consume_bits]
      omega

/-- The stream bits both readers see are the same. -/
theorem peekAt_of_isPrefix (hinit : input <+: input') (hroom : p + n ≤ 8 * input.length) :
    peekAt input' p n = peekAt input p n := by
  obtain ⟨tail, rfl⟩ := hinit
  rw [peekAt, peekAt, bits_append, List.drop_append_of_le_length (by rw [bits_length]; omega),
    List.take_append_of_le_length (by rw [List.length_drop, bits_length]; omega)]

/-- Words that hold `n` bits show the same ones. -/
theorem Abreast.peekBitsUnchecked_eq (h : Abreast n input input' br br')
    (hinit : input <+: input') (hm : m ≤ n) :
    br.peekBitsUnchecked m = br'.peekBitsUnchecked m := by
  obtain ⟨⟨p, hr, hr'⟩, hn, hn'⟩ := h
  have hroom := hr.pos_le
  rw [hr.peekBitsUnchecked_eq (by omega), hr'.peekBitsUnchecked_eq (by omega),
    peekAt_of_isPrefix hinit (by omega)]

/-- Peeking settles. -/
theorem Abreast.peek (h : Abreast m input input' br br') (hinit : input <+: input')
    (hn : n ≤ 56) :
    Settles .unexpectedEof (fun r r' => r.1 = r'.1 ∧ (∃ p, p + n ≤ 8 * input.length ∧
        r.1 = peekAt input p n) ∧ Abreast (max m n) input input' r.2 r'.2)
      (br.peek n) (br'.peek n) := by
  obtain ⟨⟨p, hr, hr'⟩, hm, hm'⟩ := h
  have hlen := hinit.length_le
  by_cases hroom : p + n ≤ 8 * input.length
  · obtain ⟨br₁, hok, hr₁, hbits, hle⟩ := hr.peek_ok hn hroom
    obtain ⟨br₁', hok', hr₁', hbits', hle'⟩ := hr'.peek_ok hn (by omega)
    rw [hok, hok']
    exact Settles.pure ⟨(peekAt_of_isPrefix hinit hroom).symm, ⟨p, hroom, rfl⟩, ⟨p, hr₁, hr₁'⟩,
      by simp only; omega, by simp only; omega⟩
  · rw [hr.peek_eof hn (by omega)]
    exact Settles.starve _

/-- Reading settles. -/
theorem InStep.read (h : InStep m input input' br br') (hinit : input <+: input')
    (hn : n ≤ 56) (hpos : 0 < n) :
    Settles .unexpectedEof (Alike 0 input input') (br.read n) (br'.read n) := by
  obtain ⟨⟨⟨p, hr, hr'⟩, -⟩, -⟩ := h
  have hlen := hinit.length_le
  by_cases hroom : p + n ≤ 8 * input.length
  · obtain ⟨br₁, hok, hr₁, hbits⟩ := hr.read_ok hn hroom
    obtain ⟨br₁', hok', hr₁', hbits'⟩ := hr'.read_ok hn (by omega)
    rw [hok, hok']
    exact Settles.pure ⟨(peekAt_of_isPrefix hinit hroom).symm,
      ⟨⟨⟨p + n, hr₁, hr₁'⟩, Nat.zero_le _, Nat.zero_le _⟩, hbits hpos, hbits' hpos⟩⟩
  · rw [hr.read_eof hn (by omega)]
    exact Settles.starve _

/-- Extra bits that both words hold. -/
theorem InStep.takeExtra (h : InStep n input input' br br') (hinit : input <+: input')
    (base : ℕ) {extra : ℕ} (hextra : extra ≤ n) :
    Alike (n - extra) input input' (br.takeExtra base extra) (br'.takeExtra base extra) := by
  unfold BitReader.takeExtra
  by_cases hpos : 0 < extra
  · rw [if_pos hpos, if_pos hpos, h.peekBitsUnchecked_eq hinit hextra]
    exact ⟨rfl, h.consume hextra hpos⟩
  · rw [if_neg hpos, if_neg hpos]
    exact ⟨rfl, h.mono (Nat.sub_le _ _)⟩

end BitReader

namespace HuffmanDecoder

open BitReader

variable {d : HuffmanDecoder} {lens : List ℕ} {encoding : Encoding} {input input' : List UInt8}
  {br br' : BitReader} {n p : ℕ}

/-- A decoder's entry for some symbol. -/
def IsEntry (lens : List ℕ) (encoding : Encoding) (entry : ℕ) : Prop :=
  ∃ s < lens.length, lens.getD s 0 ≤ 15 ∧ entry = encodeEntry s (lens.getD s 0) encoding

/-- Two lookups that find the same entry and leave the readers in step. -/
def FoundAlike (lens : List ℕ) (encoding : Encoding) (n : ℕ) (input input' : List UInt8)
    (r r' : ℕ × BitReader) : Prop :=
  IsEntry lens encoding r.1 ∧ Alike (n - 15) input input' r r'

/-- The entries in the table. -/
theorem Implements.lut_entry (h : d.Implements lens encoding)
    (hroom : p + LUT_BITS ≤ 8 * input.length)
    (hlen : d.lut (peekAt input p LUT_BITS) &&& 0xff ≠ 0) :
    IsEntry lens encoding (d.lut (peekAt input p LUT_BITS)) ∧
      d.lut (peekAt input p LUT_BITS) &&& 0xff ≤ LUT_BITS := by
  rw [peekAt] at hlen ⊢
  rcases h.lut_cases ((bits input).drop p) (by simp; omega) with
    ⟨s, hdec, hle, -, hentry⟩ | ⟨-, hzero⟩
  · have h15 : lens.getD s 0 ≤ 15 := Nat.le_trans hle (by decide)
    rw [hentry, encodeEntry_length s encoding h15]
    exact ⟨⟨s, (Canonical.decode_some hdec).1, h15, rfl⟩, hle⟩
  · rw [hzero] at hlen
    exact absurd (Nat.zero_and _) hlen

/-- The entries in the list of long codes. -/
theorem Implements.longCodes_entry (h : d.Implements lens encoding) {c : LongCode}
    (hc : c ∈ d.longCodes) : IsEntry lens encoding c.entry ∧ 0 < c.length ∧ c.length ≤ 15 := by
  rw [h.emitted.long] at hc
  obtain ⟨s, hs, rfl⟩ := List.mem_map.mp hc
  obtain ⟨hlt, hpos, hle⟩ := mem_inCodeOrder.mp (List.mem_of_mem_filter hs)
  exact ⟨⟨s, hlt, hle, rfl⟩, hpos, hle⟩

/-- The scan of the long codes settles. -/
theorem Implements.settles_lookupLong (h : d.Implements lens encoding)
    (hab : Abreast n input input' br br') (hinit : input <+: input') :
    Settles .unexpectedEof (FoundAlike lens encoding n input input') (d.lookupLong br)
      (d.lookupLong br') := by
  have hpeek := hab.peek (n := MAX_CODE_LEN) hinit (by decide)
  unfold lookupLong
  revert hpeek
  cases br.peek MAX_CODE_LEN with
  | error e =>
    rintro (rfl | heq)
    · exact Settles.starve _
    · rw [heq]
      exact Settles.fail e
  | ok r =>
    obtain ⟨v, br₁⟩ := r
    rintro ⟨⟨_, br₁'⟩, heq, rfl, -, hab₁⟩
    rw [heq]
    simp only
    cases hfind : d.longCodes.find? (fun c => v &&& (1 <<< c.length - 1) == c.reversed) with
    | none => exact Settles.fail _
    | some c =>
      obtain ⟨hentry, hpos, hle⟩ := h.longCodes_entry (List.mem_of_find?_eq_some hfind)
      have hmax : MAX_CODE_LEN = 15 := rfl
      exact Settles.pure ⟨hentry, rfl, (hab₁.consume (by omega) hpos).mono (by omega)⟩

/-- An entry under ten bits, or else the scan. -/
theorem Implements.settles_entry (h : d.Implements lens encoding)
    (hab : Abreast n input input' br br') (hinit : input <+: input') (hn : LUT_BITS ≤ n)
    (hroom : p + LUT_BITS ≤ 8 * input.length) :
    Settles .unexpectedEof (FoundAlike lens encoding n input input')
      (if d.lut (peekAt input p LUT_BITS) &&& 0xff = 0 then d.lookupLong br
        else .ok (d.lut (peekAt input p LUT_BITS),
          br.consume (d.lut (peekAt input p LUT_BITS) &&& 0xff)))
      (if d.lut (peekAt input p LUT_BITS) &&& 0xff = 0 then d.lookupLong br'
        else .ok (d.lut (peekAt input p LUT_BITS),
          br'.consume (d.lut (peekAt input p LUT_BITS) &&& 0xff))) := by
  by_cases hzero : d.lut (peekAt input p LUT_BITS) &&& 0xff = 0
  · rw [if_pos hzero, if_pos hzero]
    exact h.settles_lookupLong hab hinit
  · rw [if_neg hzero, if_neg hzero]
    obtain ⟨hentry, hle⟩ := h.lut_entry hroom hzero
    have hlut : LUT_BITS ≤ 15 := by decide
    exact Settles.pure ⟨hentry, rfl,
      (hab.consume (by omega) (Nat.pos_of_ne_zero hzero)).mono (by omega)⟩

/-- A lookup in words that hold ten bits settles. -/
theorem Implements.settles_lookupFilled (h : d.Implements lens encoding)
    (hab : Abreast n input input' br br') (hinit : input <+: input') (hn : LUT_BITS ≤ n) :
    Settles .unexpectedEof (FoundAlike lens encoding n input input') (d.lookupFilled br)
      (d.lookupFilled br') := by
  obtain ⟨p, hr, -⟩ := hab.pos
  have hroom := hr.pos_le
  have hheld := hab.held.1
  unfold lookupFilled
  rw [← hab.peekBitsUnchecked_eq hinit hn, hr.peekBitsUnchecked_eq (by omega)]
  exact h.settles_entry hab hinit hn (by omega)

/-- A lookup settles. -/
theorem Implements.settles_lookup (h : d.Implements lens encoding)
    (hab : Abreast n input input' br br') (hinit : input <+: input') :
    Settles .unexpectedEof (FoundAlike lens encoding n input input') (d.lookup br)
      (d.lookup br') := by
  have hpeek := hab.peek (n := LUT_BITS) hinit (by decide)
  unfold lookup
  revert hpeek
  cases br.peek LUT_BITS with
  | error e =>
    rintro (rfl | heq)
    · exact Settles.starve _
    · rw [heq]
      exact Settles.fail e
  | ok r =>
    obtain ⟨v, br₁⟩ := r
    rintro ⟨⟨_, br₁'⟩, heq, rfl, ⟨p, hroom, rfl⟩, hab₁⟩
    rw [heq]
    refine (h.settles_entry hab₁ hinit (Nat.le_max_right _ _) hroom).mono ?_
    rintro r r' ⟨hentry, hval, hstep⟩
    exact ⟨hentry, hval, hstep.mono (by omega)⟩

/-- Decoding a plain symbol settles. -/
theorem Implements.settles_decode (h : d.Implements lens .simple)
    (hstep : InStep n input input' br br') (hinit : input <+: input') :
    Settles .unexpectedEof (Alike 0 input input') (d.decode br) (d.decode br') := by
  have hlook := h.settles_lookup hstep.toAbreast hinit
  unfold decode
  revert hlook
  cases d.lookup br with
  | error e =>
    rintro (rfl | heq)
    · exact Settles.starve _
    · rw [heq]
      exact Settles.fail e
  | ok r =>
    obtain ⟨entry, br₁⟩ := r
    rintro ⟨⟨_, br₁'⟩, heq, -, rfl, hstep₁⟩
    rw [heq]
    exact Settles.pure ⟨rfl, hstep₁.mono (Nat.zero_le _)⟩

end HuffmanDecoder

open BitReader

variable {input input' : List UInt8} {br br' : BitReader} {n : ℕ}

/-! ## Headers and stored blocks -/

/-- More input changes the lengths of the length code only where they were cut off. -/
theorem settles_readClDecoderLengths (order lens : List ℕ) (hinit : input <+: input')
    (hstep : InStep 0 input input' br br') :
    Settles .unexpectedEof (Alike 0 input input') (readClDecoderLengths order lens br)
      (readClDecoderLengths order lens br') := by
  induction order generalizing lens br br' with
  | nil => exact Settles.pure ⟨rfl, hstep⟩
  | cons i order ih =>
    refine (hstep.read hinit (n := 3) (by decide) (by decide)).bind ?_
    rintro ⟨l, br₁⟩ ⟨_, br₁'⟩ ⟨rfl, hstep₁⟩
    exact ih _ hstep₁

/-- More input changes what a code-length symbol writes only where it was cut off. -/
theorem settles_writeCodeLengths (total : ℕ) (lengths : List ℕ) (sym : ℕ)
    (hinit : input <+: input') (hstep : InStep 0 input input' br br') :
    Settles .unexpectedEof (Alike 0 input input') (writeCodeLengths total lengths sym br)
      (writeCodeLengths total lengths sym br') := by
  have hrepeat (n k v : ℕ) (msg : String) (hn : n ≤ 56) (hpos : 0 < n) :
      Settles .unexpectedEof (Alike 0 input input')
        (br.read n >>= fun r =>
          if total < lengths.length + (r.1 + k) then .error (.invalid msg)
          else .ok (lengths ++ List.replicate (r.1 + k) v, r.2))
        (br'.read n >>= fun r =>
          if total < lengths.length + (r.1 + k) then .error (.invalid msg)
          else .ok (lengths ++ List.replicate (r.1 + k) v, r.2)) := by
    refine (hstep.read hinit hn hpos).bind ?_
    rintro ⟨m, br₁⟩ ⟨_, br₁'⟩ ⟨rfl, hstep₁⟩
    simp only
    split
    · exact Settles.fail _
    · exact Settles.pure ⟨rfl, hstep₁⟩
  unfold writeCodeLengths
  split
  · exact Settles.pure ⟨rfl, hstep⟩
  split
  · cases lengths.getLast? with
    | none => exact Settles.fail _
    | some prev => exact hrepeat 2 3 prev _ (by decide) (by decide)
  split
  · exact hrepeat 3 3 0 _ (by decide) (by decide)
  split
  · exact hrepeat 7 11 0 _ (by decide) (by decide)
  · exact Settles.fail _

/-- More input changes the code lengths only where they were cut off. -/
theorem settles_readCodeLengths {clDecoder : HuffmanDecoder} {cl : List ℕ}
    (hcl : clDecoder.Implements cl .simple) (total rounds : ℕ) (lengths : List ℕ)
    (hinit : input <+: input') (hstep : InStep 0 input input' br br') :
    Settles .unexpectedEof (Alike 0 input input')
      (readCodeLengths clDecoder total rounds lengths br)
      (readCodeLengths clDecoder total rounds lengths br') := by
  induction rounds generalizing lengths br br' with
  | zero => exact Settles.fail _
  | succ rounds ih =>
    rw [readCodeLengths, readCodeLengths]
    split
    · refine (hcl.settles_decode hstep hinit).bind ?_
      rintro ⟨sym, br₁⟩ ⟨_, br₁'⟩ ⟨rfl, hstep₁⟩
      refine (settles_writeCodeLengths total lengths sym hinit hstep₁).bind ?_
      rintro ⟨lengths', br₂⟩ ⟨_, br₂'⟩ ⟨rfl, hstep₂⟩
      exact ih lengths' hstep₂
    · exact Settles.pure ⟨rfl, hstep⟩

/-- Two runs that return the same decoders of a block, and readers in step. -/
def TreesAlike (input input' : List UInt8)
    (r r' : (HuffmanDecoder × HuffmanDecoder) × BitReader) : Prop :=
  (∃ lens, BothImplement r.1 lens ∧ lens.1.length ≤ 288) ∧ Alike 0 input input' r r'

/-- The decoders built from lengths do not depend on the input. -/
theorem settles_buildBoth (lit dist : List ℕ) (hlen : lit.length ≤ 288)
    (hstep : InStep 0 input input' br br') :
    Settles .unexpectedEof (TreesAlike input input')
      (do
        let l ← fromLengthsLitlen lit
        let d ← fromLengthsDist dist
        .ok ((l, d), br))
      (do
        let l ← fromLengthsLitlen lit
        let d ← fromLengthsDist dist
        .ok ((l, d), br')) := by
  cases hl : fromLengthsLitlen lit with
  | error e => exact Settles.fail e
  | ok l =>
    cases hd : fromLengthsDist dist with
    | error e => exact Settles.fail e
    | ok d =>
      exact Settles.pure ⟨⟨(lit, dist), ⟨(buildInto_inv hl).1, (buildInto_inv hd).1⟩, hlen⟩, rfl,
        hstep⟩

/-- A dynamic header settles. -/
theorem settles_readDynamicHeader (hinit : input <+: input')
    (hstep : InStep 0 input input' br br') :
    Settles .unexpectedEof (TreesAlike input input') (readDynamicHeader br)
      (readDynamicHeader br') := by
  unfold readDynamicHeader
  refine (hstep.read hinit (n := 5) (by decide) (by decide)).bind ?_
  rintro ⟨hlit, br₁⟩ ⟨_, br₁'⟩ ⟨rfl, hstep₁⟩
  refine (hstep₁.read hinit (n := 5) (by decide) (by decide)).bind ?_
  rintro ⟨hdist, br₂⟩ ⟨_, br₂'⟩ ⟨rfl, hstep₂⟩
  refine (hstep₂.read hinit (n := 4) (by decide) (by decide)).bind ?_
  rintro ⟨hclen, br₃⟩ ⟨_, br₃'⟩ ⟨rfl, hstep₃⟩
  simp only
  split
  · exact Settles.fail _
  next hrange =>
  refine (settles_readClDecoderLengths _ _ hinit hstep₃).bind ?_
  rintro ⟨cl, br₄⟩ ⟨_, br₄'⟩ ⟨rfl, hstep₄⟩
  simp only
  cases hcl : fromLengths cl with
  | error e => exact Settles.fail e
  | ok clDecoder =>
    refine (settles_readCodeLengths (buildInto_inv hcl).1 _ _ _ hinit hstep₄).bind ?_
    rintro ⟨lengths, br₅⟩ ⟨_, br₅'⟩ ⟨rfl, hstep₅⟩
    simp only
    split
    · exact Settles.fail _
    · exact settles_buildBoth _ _ (by rw [List.length_take]; omega) hstep₅

/-- More input changes the codes of a block only where they were cut off. -/
theorem settles_blockTrees (btype : ℕ) (hinit : input <+: input')
    (hstep : InStep 0 input input' br br') :
    Settles .unexpectedEof (TreesAlike input input') (blockTrees btype br)
      (blockTrees btype br') := by
  unfold blockTrees
  split
  · have hread : readCodes 1 [] = some ((fixedLiteralLengths, fixedDistanceLengths), []) :=
      if_pos rfl
    have hlen := (readCodes_inv hread).2.2.2
    generalize fixedLiteralLengths = lit at hlen ⊢
    exact settles_buildBoth lit fixedDistanceLengths hlen hstep
  split
  · exact settles_readDynamicHeader hinit hstep
  · exact Settles.fail _

/-- More input changes stored bytes only where they were cut off. -/
theorem settles_pushBytes (k : ℕ) (out : List UInt8) (hinit : input <+: input')
    (hstep : InStep 0 input input' br br') :
    Settles .unexpectedEof (Alike 0 input input') (pushBytes k out br) (pushBytes k out br') := by
  induction k generalizing out br br' with
  | zero => exact Settles.pure ⟨rfl, hstep⟩
  | succ k ih =>
    refine (hstep.read hinit (n := 8) (by decide) (by decide)).bind ?_
    rintro ⟨b, br₁⟩ ⟨_, br₁'⟩ ⟨rfl, hstep₁⟩
    exact ih _ hstep₁

/-- A stored block settles. -/
theorem settles_decodeStored (out : List UInt8) (hinit : input <+: input')
    (hstep : InStep 0 input input' br br') :
    Settles .unexpectedEof (Alike 0 input input') (decodeStored br out)
      (decodeStored br' out) := by
  unfold decodeStored
  refine (hstep.byteAlign.read hinit (n := 16) (by decide) (by decide)).bind ?_
  rintro ⟨len, br₁⟩ ⟨_, br₁'⟩ ⟨rfl, hstep₁⟩
  refine (hstep₁.read hinit (n := 16) (by decide) (by decide)).bind ?_
  rintro ⟨nlen, br₂⟩ ⟨_, br₂'⟩ ⟨rfl, hstep₂⟩
  simp only
  split
  · exact Settles.fail _
  · exact settles_pushBytes len out hinit hstep₂

/-! ## The symbol loop -/

section Loop

variable {lit dist : HuffmanDecoder} {lits dists : List ℕ}

/-- A distance read from a word of 28 bits settles. -/
theorem settles_distanceOf (hdist : dist.Implements dists .dist) (hinit : input <+: input')
    (hstep : InStep 28 input input' br br') :
    Settles .unexpectedEof (Alike 0 input input') (distanceOf dist br)
      (distanceOf dist br') := by
  unfold distanceOf
  refine (hdist.settles_lookupFilled hstep.toAbreast hinit (by decide)).bind ?_
  rintro ⟨entry, br₁⟩ ⟨_, br₁'⟩ ⟨⟨s, -, hle, hentry⟩, rfl, hstep₁⟩
  simp only at hentry ⊢
  split
  · exact Settles.fail _
  next hexc =>
  have hspec := dist_entry (s := s) hle
  rw [← hentry] at hspec
  cases hsym : distance s with
  | none =>
    rw [hsym] at hspec
    exact absurd hspec hexc
  | some r =>
    obtain ⟨base, extra⟩ := r
    rw [hsym] at hspec
    obtain ⟨-, hbase, hextra⟩ := hspec
    obtain ⟨-, -, hextra13, -⟩ := distance_bounds hsym
    rw [hbase, hextra]
    have htake := hstep₁.takeExtra hinit base (show extra ≤ 28 - 15 by omega)
    exact Settles.pure ⟨htake.1, htake.2.mono (Nat.zero_le _)⟩

/-- Acting on an entry that is no literal settles. -/
theorem settles_symbolTail {resolve : List UInt8 → ℕ → ℕ → Except DeflateError (List UInt8)}
    (hdist : dist.Implements dists .dist) (hlen : lits.length ≤ 288) {entry : ℕ}
    (hentry : IsEntry lits .litLen entry) (hlit : entry &&& HUFFDEC_LITERAL = 0)
    (out : List UInt8) (hinit : input <+: input') (hstep : InStep 33 input input' br br') :
    Settles .unexpectedEof (Sum.LiftRel (Alike 0 input input') (Alike 0 input input'))
      (symbolTail resolve dist entry out br) (symbolTail resolve dist entry out br') := by
  obtain ⟨s, hs, hle, rfl⟩ := hentry
  have hspec := litLen_entry (s := s) (show s < 2 ^ 15 by omega) hle
  unfold symbolTail
  split
  · split
    · exact Settles.pure (.inr ⟨rfl, hstep.mono (Nat.zero_le _)⟩)
    · exact Settles.fail _
  next hexc =>
  cases hsym : litLen s with
  | literal b =>
    rw [hsym] at hspec
    exact absurd hlit hspec.1
  | endOfBlock =>
    rw [hsym] at hspec
    exact absurd hspec.2.1 hexc
  | reserved =>
    rw [hsym] at hspec
    exact absurd hspec.2.1 hexc
  | length base extra =>
    rw [hsym] at hspec
    obtain ⟨-, -, hbase, hextra⟩ := hspec
    obtain ⟨-, -, hextra5, -⟩ := litLen_length_bounds hsym
    obtain ⟨hval, hstep₁⟩ := hstep.takeExtra hinit base (show extra ≤ 33 by omega)
    unfold lengthOf
    rw [hbase, hextra]
    generalize br.takeExtra base extra = r at hval hstep₁
    generalize br'.takeExtra base extra = r' at hval hstep₁
    obtain ⟨length, br₁⟩ := r
    obtain ⟨_, br₁'⟩ := r'
    obtain rfl : length = _ := hval
    have hmatch : Settles .unexpectedEof (Alike 0 input input')
        (copyMatch resolve dist length out br₁) (copyMatch resolve dist length out br₁') := by
      unfold copyMatch
      refine (settles_distanceOf hdist hinit (hstep₁.mono (by omega))).bind ?_
      rintro ⟨distance, br₂⟩ ⟨_, br₂'⟩ ⟨rfl, hstep₂⟩
      simp only
      cases resolve out distance length with
      | error e => exact Settles.fail e
      | ok out' => exact Settles.pure ⟨rfl, hstep₂⟩
    simp only
    revert hmatch
    cases copyMatch resolve dist length out br₁ with
    | error e =>
      rintro (rfl | heq)
      · exact Settles.starve _
      · rw [heq]
        exact Settles.fail e
    | ok r =>
      rintro ⟨r', heq, halike⟩
      rw [heq]
      exact Settles.pure (.inl halike)

namespace Inflate

/-- A round of the symbol loop settles. -/
theorem settles_round (hlit : lit.Implements lits .litLen) (hdist : dist.Implements dists .dist)
    (hlen : lits.length ≤ 288) (out : List UInt8) (hinit : input <+: input')
    (hstep : InStep 0 input input' br br') :
    Settles .unexpectedEof (Sum.LiftRel (Alike 0 input input') (Alike 0 input input'))
      (round lit dist (out, br)) (round lit dist (out, br')) := by
  obtain ⟨p, hr, hr'⟩ := hstep.pos
  have hshort := hinit.length_le
  obtain ⟨hiff, hspec⟩ := hr.refill (n := 48) (by decide)
  obtain ⟨hiff', hspec'⟩ := hr'.refill (n := 48) (by decide)
  unfold round
  simp only
  by_cases hroom : p + 48 ≤ 8 * input.length
  · have htrue := hiff.mpr hroom
    have htrue' := hiff'.mpr (by omega)
    obtain ⟨hr₁, hbits₁, -⟩ := hspec htrue
    obtain ⟨hr₁', hbits₁', -⟩ := hspec' htrue'
    generalize br.refill 48 = r at htrue hr₁ hbits₁
    generalize br'.refill 48 = r' at htrue' hr₁' hbits₁'
    obtain ⟨_, br₁⟩ := r
    obtain ⟨_, br₁'⟩ := r'
    obtain rfl : _ = true := htrue
    obtain rfl : _ = true := htrue'
    have hab : Abreast 48 input input' br₁ br₁' := ⟨⟨p, hr₁, hr₁'⟩, hbits₁, hbits₁'⟩
    have hlook := hlit.settles_lookupFilled hab hinit (by decide)
    simp only
    revert hlook
    cases lit.lookupFilled br₁ with
    | error e =>
      rintro (rfl | heq)
      · exact Settles.starve _
      · rw [heq]
        exact Settles.fail e
    | ok r =>
      obtain ⟨entry, br₂⟩ := r
      rintro ⟨⟨_, br₂'⟩, heq, hentry, rfl, hstep₂⟩
      rw [heq]
      simp only at hentry ⊢
      by_cases hliteral : entry &&& HUFFDEC_LITERAL ≠ 0
      · rw [if_pos hliteral, if_pos hliteral]
        exact Settles.pure (.inl ⟨rfl, hstep₂.mono (Nat.zero_le _)⟩)
      · rw [if_neg hliteral, if_neg hliteral]
        exact settles_symbolTail hdist hlen hentry (not_not.mp hliteral) out hinit hstep₂
  · have hfalse : (br.refill 48).1 = false := by
      rw [← Bool.not_eq_true, hiff]
      exact hroom
    generalize br.refill 48 = r at hfalse
    obtain ⟨_, br₁⟩ := r
    obtain rfl : _ = false := hfalse
    exact Settles.starve _

/-- The symbol loop settles. -/
theorem settles_decodeBlock (hlit : lit.Implements lits .litLen)
    (hdist : dist.Implements dists .dist) (hlen : lits.length ≤ 288) (out : List UInt8)
    (hinit : input <+: input') (hstep : InStep 0 input input' br br') :
    Settles .unexpectedEof (Alike 0 input input') (decodeBlock lit dist out br)
      (decodeBlock lit dist out br') := by
  obtain ⟨bs, hat⟩ := hstep.at
  obtain ⟨p, hr, hr'⟩ := hstep.pos
  have hspec := kernelSpec_decodeBlock input lit dist lits dists out br bs hlen hlit hdist hat
  have hshort := hinit.length_le
  refine Settles.iterate (L := Alike 0 input input') ?_
    (by rw [hr.input_eq, hr'.input_eq]; omega) ⟨rfl, hstep⟩ fun hfuel => ?_
  · rintro ⟨out, br⟩ ⟨_, br'⟩ ⟨rfl, hstep⟩
    exact settles_round hlit hdist hlen out hinit hstep
  · rw [decodeBlock, hfuel] at hspec
    exact hspec.1 rfl

/-- A block on a partial input: more input is needed, or the block's end and its output,
or the error it has, are the ones of the whole input. -/
theorem settles_inflateBlock (out : List UInt8) (hinit : input <+: input')
    (hstep : InStep 0 input input' br br') :
    Settles .unexpectedEof (Alike 0 input input') (inflateBlock out br)
      (inflateBlock out br') := by
  unfold inflateBlock blockWith
  refine (hstep.read hinit (n := 1) (by decide) (by decide)).bind ?_
  rintro ⟨bfinal, br₁⟩ ⟨_, br₁'⟩ ⟨rfl, hstep₁⟩
  refine (hstep₁.read hinit (n := 2) (by decide) (by decide)).bind ?_
  rintro ⟨btype, br₂⟩ ⟨_, br₂'⟩ ⟨rfl, hstep₂⟩
  have hcontents : Settles .unexpectedEof (Alike 0 input input')
      (blockContents decodeBlock btype out br₂) (blockContents decodeBlock btype out br₂') := by
    unfold blockContents
    split
    · exact settles_decodeStored out hinit hstep₂
    · refine (settles_blockTrees btype hinit hstep₂).bind ?_
      rintro ⟨⟨lit, dist⟩, br₃⟩ ⟨_, br₃'⟩ ⟨⟨lens, ⟨hlit, hdist⟩, hlen⟩, rfl, hstep₃⟩
      exact settles_decodeBlock hlit hdist hlen out hinit hstep₃
  apply hcontents.bind
  rintro ⟨out', br₃⟩ ⟨_, br₃'⟩ ⟨rfl, hstep₃⟩
  exact Settles.pure ⟨rfl, hstep₃⟩

end Inflate

end Loop

/-! ## What a failed block leaves

A block that fails has written some of its output. It never touches what was there before.
-/

/-- The output after reading up to `n` bytes, as far as there were any. -/
def pushBytesOut : ℕ → List UInt8 → BitReader → List UInt8
  | 0, out, _ => out
  | n + 1, out, br =>
    match br.read 8 with
    | .error _ => out
    | .ok (b, br) => pushBytesOut n (out ++ [UInt8.ofNat b]) br

/-- The output after a stored block that may have failed. -/
def decodeStoredOut (br : BitReader) (out : List UInt8) : List UInt8 :=
  match br.byteAlign.read 16 with
  | .error _ => out
  | .ok (len, br) =>
    match br.read 16 with
    | .error _ => out
    | .ok (nlen, br) => if (65535 - len) ^^^ nlen ≠ 0 then out else pushBytesOut len out br

namespace Inflate

/-- The output after the symbol loop, which may have failed. -/
def decodeBlockOut (lit dist : HuffmanDecoder) (out : List UInt8) (br : BitReader) :
    List UInt8 :=
  (Loop.last (round lit dist) (8 * br.input.length + 1) (out, br)).1

/-- The output after the contents of a block, which may have failed. -/
def blockContentsOut (btype : ℕ) (out : List UInt8) (br : BitReader) : List UInt8 :=
  if btype = 0 then decodeStoredOut br out
  else
    match blockTrees btype br with
    | .error _ => out
    | .ok ((lit, dist), br) => decodeBlockOut lit dist out br

/-- The output after a block that may have failed. -/
def inflateBlockOut (out : List UInt8) (br : BitReader) : List UInt8 :=
  match br.read 1 with
  | .error _ => out
  | .ok (_, br) =>
    match br.read 2 with
    | .error _ => out
    | .ok (btype, br) => blockContentsOut btype out br

end Inflate

/-- Stored bytes are appended, also where they are cut off. -/
theorem isPrefix_pushBytesOut (k : ℕ) (out : List UInt8) (br : BitReader) :
    out <+: pushBytesOut k out br := by
  induction k generalizing out br with
  | zero => exact List.prefix_rfl
  | succ k ih =>
    unfold pushBytesOut
    split
    · exact List.prefix_rfl
    · exact (List.prefix_append _ _).trans (ih _ _)

/-- A stored block appends, also where it is cut off. -/
theorem isPrefix_decodeStoredOut (br : BitReader) (out : List UInt8) :
    out <+: decodeStoredOut br out := by
  unfold decodeStoredOut
  split
  · exact List.prefix_rfl
  split
  · exact List.prefix_rfl
  split
  · exact List.prefix_rfl
  · exact isPrefix_pushBytesOut _ _ _

namespace Inflate

/-- A match appends. -/
theorem isPrefix_resolve {out out' : List UInt8} {distance length : ℕ}
    (h : resolve out distance length = .ok out') : out <+: out' := by
  unfold resolve at h
  split at h
  · cases h
  next hbounds =>
  split at h
  · cases h
  cases h
  rw [copyBackRaw_eq (by omega) (by omega)]
  exact Lz.copyBack_extends _ _ _

/-- A round that goes on only appends. -/
theorem isPrefix_round {lit dist : HuffmanDecoder} {s s' : List UInt8 × BitReader}
    (h : round lit dist s = .ok (.inl s')) : s.1 <+: s'.1 := by
  unfold round at h
  split at h
  · cases h
  split at h
  · cases h
  split at h
  · cases h
    exact List.prefix_append _ _
  unfold symbolTail at h
  split at h
  · split at h <;> cases h
  simp only at h
  split at h
  · cases h
  next hmatch =>
  cases h
  unfold copyMatch at hmatch
  simp only [bind, Except.bind] at hmatch
  split at hmatch
  · cases hmatch
  split at hmatch
  · cases hmatch
  next hresolve =>
  cases hmatch
  exact isPrefix_resolve hresolve

/-- A failed block leaves the output as it was, and something after it. -/
theorem isPrefix_inflateBlockOut (out : List UInt8) (br : BitReader) :
    out <+: inflateBlockOut out br := by
  unfold inflateBlockOut
  split
  · exact List.prefix_rfl
  split
  · exact List.prefix_rfl
  unfold blockContentsOut
  split
  · exact isPrefix_decodeStoredOut _ _
  split
  · exact List.prefix_rfl
  · next lit dist br _ =>
    exact Loop.last_induction (P := fun s : List UInt8 × BitReader => out <+: s.1)
      (fun _ _ hs h => hs.trans (isPrefix_round h)) _ (s := (out, br)) List.prefix_rfl

end Inflate

end RustyRapidgzip
