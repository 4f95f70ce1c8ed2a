import RustyRapidgzip.Deflate.BlockFinder
import RustyRapidgzip.Lib.Kraft

/-!
# The strict header parser

The block finder has a header parser of its own, which asks for complete codes and builds plain
decoders; the decoder's parser takes incomplete codes and packs its entries. Both read the same
code lengths, so the strict parser accepts the headers of the other one whose three codes are
complete, and the decoders of both parsers find the same symbols.
-/

namespace RustyRapidgzip

open LsbBits Canonical

namespace HuffmanDecoder

/-! ## Strict building -/

/-- The scaled sum is full where the sum is one. -/
theorem kraftTotal_eq_iff {lens : List ℕ} {counts : ℕ → ℕ}
    (hcounts : ∀ l, 0 < l → counts l = lens.count l) (hle : ∀ l ∈ lens, l ≤ MAX_CODE_LEN) :
    kraftTotal counts = 1 <<< MAX_CODE_LEN ↔ kraftSum lens = 1 := by
  rw [kraftTotal_eq hcounts, kraftSum_eq_one_iff hle]
  exact Iff.rfl

/-- The counts add up to the symbols in use. -/
theorem nSymbols_eq {lens : List ℕ} {counts : ℕ → ℕ}
    (hcounts : ∀ l, 0 < l → counts l = lens.count l) (hle : ∀ l ∈ lens, l ≤ MAX_CODE_LEN) :
    nSymbols counts = used lens := by
  rw [← sum_count hle, nSymbols]
  congr 1
  apply List.map_congr_left
  intro l hl
  exact hcounts l (List.mem_range'_1.mp hl).1

/-- A strict build accepts the complete codes among those that a lenient one accepts, and builds
the same decoder. -/
theorem buildInto_strict_iff {lens : List ℕ} {encoding : Encoding} {d : HuffmanDecoder} :
    buildInto lens true encoding = .ok d ↔
      buildInto lens false encoding = .ok d ∧ Complete lens := by
  unfold buildInto blCount
  rcases countLengths_eq "huffman code length > 15" lens (fun _ => 0) with
    ⟨counts', hok, hle, hcount⟩ | ⟨herr, -⟩
  · have hcounts : ∀ l, 0 < l → Function.update counts' 0 0 l = lens.count l := by
      intro l hl
      rw [Function.update_apply, if_neg (by omega), hcount, Nat.zero_add]
    rw [hok]
    simp only
    generalize Function.update counts' 0 0 = counts at hcounts
    have htotal := kraftTotal_eq_iff hcounts hle
    have hused := nSymbols_eq hcounts hle
    by_cases hover : 2 ≤ nSymbols counts ∧ 1 <<< MAX_CODE_LEN < kraftTotal counts
    · rw [if_pos hover, if_pos hover]
      simp
    · rw [if_neg hover, if_neg hover]
      by_cases hshort : 2 ≤ nSymbols counts ∧ kraftTotal counts ≠ 1 <<< MAX_CODE_LEN
      · have hincomplete : ¬Complete lens := by
          rintro (hfew | hone)
          · omega
          · exact hshort.2 (htotal.mpr hone)
        rw [if_pos ⟨trivial, hshort⟩]
        simp [hincomplete]
      · have hcomplete : Complete lens := by
          by_cases hfew : used lens < 2
          · exact Or.inl hfew
          · refine Or.inr (htotal.mp ?_)
            by_contra hne
            exact hshort ⟨by omega, hne⟩
        rw [if_neg (fun h => hshort h.2), if_neg (by simp)]
        simp [hcomplete]
  · rw [herr]
    simp

/-! ## Decoders of one code -/

/-- What a plain decoder and a packed one return where they find the same: the same error, or a
symbol and its entry, and the same reader. -/
def SameSymbol (lens : List ℕ) (encoding : Encoding) :
    Except DeflateError (ℕ × BitReader) → Except DeflateError (ℕ × BitReader) → Prop
  | .error e, .error e' => e = e'
  | .ok (sym, br), .ok (entry, br') => br = br' ∧ sym < lens.length ∧ 0 < lens.getD sym 0 ∧
      entry = encodeEntry sym (lens.getD sym 0) encoding
  | _, _ => False

end HuffmanDecoder

/-- A peek returns as many bits as it is asked for. -/
theorem BitReader.peek_lt {br br' : BitReader} {n v : ℕ} (h : br.peek n = .ok (v, br')) :
    v < 2 ^ n := by
  unfold BitReader.peek at h
  split at h
  · cases h
    rw [BitReader.peekBitsUnchecked, Nat.and_two_pow_sub_one_eq_mod]
    exact Nat.mod_lt _ (Nat.two_pow_pos n)
  · cases h

namespace HuffmanDecoder

section SameCode

variable {plain packed : HuffmanDecoder} {lens : List ℕ} {encoding : Encoding}

/-- The tables of two decoders of one code have their entries at the same places. -/
theorem Implements.lut_agree (h : plain.Implements lens .simple)
    (h' : packed.Implements lens encoding) {v : ℕ} (hv : v < 2 ^ LUT_BITS) :
    (∃ s ∈ inCodeOrder lens MAX_CODE_LEN,
      plain.lut v = encodeEntry s (lens.getD s 0) .simple ∧
      packed.lut v = encodeEntry s (lens.getD s 0) encoding) ∨
    (plain.lut v = 0 ∧ packed.lut v = 0) := by
  obtain ⟨bs, hlen, rfl⟩ := exists_ofLsb hv
  rcases h.emitted.short bs hlen with ⟨s, hs, hle, hpre, hentry⟩ | ⟨hnone, hzero⟩
  · rcases h'.emitted.short bs hlen with ⟨t, ht, -, hpre', hentry'⟩ | ⟨hnone', -⟩
    · have hdec := h.decode_iff.mp ⟨hs, hpre⟩
      rw [h.decode_iff.mp ⟨ht, hpre'⟩] at hdec
      obtain rfl : t = s := congrArg Prod.fst (Option.some.inj hdec)
      exact Or.inl ⟨t, hs, hentry, hentry'⟩
    · exact absurd hpre (hnone' s hs hle)
  · rcases h'.emitted.short bs hlen with ⟨t, ht, hle', hpre', -⟩ | ⟨-, hzero'⟩
    · exact absurd hpre' (hnone t ht hle')
    · exact Or.inr ⟨hzero, hzero'⟩

/-- The scans of the long codes stop at the same symbol. -/
theorem Implements.decodeLong_agree (h : plain.Implements lens .simple)
    (h' : packed.Implements lens encoding) (br : BitReader) :
    SameSymbol lens encoding
      (match plain.lookupLong br with
        | .error e => .error e
        | .ok (entry, br) => .ok (entry >>> 16, br))
      (packed.lookupLong br) := by
  unfold lookupLong
  cases hpeek : br.peek MAX_CODE_LEN with
  | error e => rfl
  | ok r =>
    obtain ⟨v, br'⟩ := r
    simp only
    rw [h.emitted.long, h'.emitted.long, List.find?_map, List.find?_map]
    simp only [Function.comp_def]
    generalize hfind : List.find? _ _ = found
    cases found with
    | none => rfl
    | some s =>
      have hs := mem_inCodeOrder.mp (List.mem_of_mem_filter (List.mem_of_find?_eq_some hfind))
      simp only [Option.map_some]
      refine ⟨rfl, ?_⟩
      rw [encodeEntry_simple s hs.2.2]
      exact ⟨hs.1, hs.2.1, rfl⟩

/-- A plain decoder and a packed one of the same code find the same symbols. -/
theorem Implements.decode_agree (h : plain.Implements lens .simple)
    (h' : packed.Implements lens encoding) (br : BitReader) :
    SameSymbol lens encoding (plain.decode br) (packed.lookup br) := by
  unfold decode lookup
  cases hpeek : br.peek LUT_BITS with
  | error e => rfl
  | ok r =>
    obtain ⟨v, br'⟩ := r
    simp only
    rcases h.lut_agree h' (BitReader.peek_lt hpeek) with ⟨s, hs, hentry, hentry'⟩ | ⟨hzero, hzero'⟩
    · obtain ⟨hlt, hpos, hle⟩ := mem_inCodeOrder.mp hs
      have hne : lens.getD s 0 ≠ 0 := by omega
      rw [hentry, hentry', encodeEntry_length s _ hle, encodeEntry_length s _ hle, if_neg hne,
        if_neg hne]
      refine ⟨rfl, ?_⟩
      rw [encodeEntry_simple s hle]
      exact ⟨hlt, hpos, rfl⟩
    · rw [hzero, hzero']
      simp only [Nat.zero_and, if_true]
      exact h.decodeLong_agree h' br'

end SameCode

end HuffmanDecoder

open HuffmanDecoder

/-! ## The lengths of a header -/

/-- The code lengths of a dynamic header: of the code-length code and of the two codes of the
block. -/
structure TreeLengths where
  cl : List ℕ
  lit : List ℕ
  dist : List ℕ

/-- Read the code lengths of a dynamic header, as the decoder's parser does. -/
def readTreeLengths (br : BitReader) : Except DeflateError (TreeLengths × BitReader) := do
  let (v, br) ← br.read 5
  let hlit := v + 257
  let (v, br) ← br.read 5
  let hdist := v + 1
  let (v, br) ← br.read 4
  let hclen := v + 4
  if 286 < hlit ∨ 30 < hdist then .error (.invalid "dynamic block: HLIT/HDIST out of range")
  else
    let (clLengths, br) ←
      readClDecoderLengths (CODE_LENGTH_ORDER.take hclen) (List.replicate 19 0) br
    let clDecoder ← fromLengths clLengths
    let total := hlit + hdist
    let (lengths, br) ← readCodeLengths clDecoder total (total + 1) [] br
    .ok (⟨clLengths, lengths.take hlit, lengths.drop hlit⟩, br)

section Bind

variable {ε α β : Type}

/-- A computation succeeds where each of its steps does. -/
theorem bind_eq_ok {x : Except ε α} {f : α → Except ε β} {b : β} :
    (x >>= f) = .ok b ↔ ∃ a, x = .ok a ∧ f a = .ok b := by
  cases x with
  | error e => simp [bind, Except.bind]
  | ok a => simp [bind, Except.bind]

/-- A computation is ok where it has a result. -/
theorem isOk_iff {x : Except ε α} : x.isOk = true ↔ ∃ a, x = .ok a := by
  cases x <;> simp [Except.isOk, Except.toBool]

/-- A guarded computation succeeds where the guard does not hold. -/
theorem ite_error_eq_ok {c : Prop} [Decidable c] {e : ε} {x : Except ε α} {a : α} :
    (if c then .error e else x) = .ok a ↔ ¬c ∧ x = .ok a := by
  by_cases h : c
  · simp [h]
  · simp [h]

end Bind

/-- The end of a block is among the literal and length symbols. -/
theorem getD_take_256 (lengths : List ℕ) (v : ℕ) :
    (lengths.take (v + 257)).getD 256 0 = lengths.getD 256 0 := by
  rw [List.getD_eq_getElem?_getD, List.getElem?_take_of_lt (by omega), List.getD_eq_getElem?_getD]

/-- The decoder's parser builds decoders from the lengths it has read. -/
theorem readDynamicHeader_ok_iff {br br' : BitReader} {lit dist : HuffmanDecoder} :
    readDynamicHeader br = .ok ((lit, dist), br') ↔
      ∃ t, readTreeLengths br = .ok (t, br') ∧ t.lit.getD 256 0 ≠ 0 ∧
        fromLengthsLitlen t.lit = .ok lit ∧ fromLengthsDist t.dist = .ok dist := by
  unfold readDynamicHeader readTreeLengths
  simp only [bind_eq_ok, ite_error_eq_ok, Prod.exists, Except.ok.injEq, Prod.mk.injEq]
  constructor
  · rintro ⟨v, br₁, hv, w, br₂, hw, u, br₃, hu, hrange, cl, br₄, hcl, d, hd, lens, br₅, hlens, heob,
      l, hl, d', hd', ⟨rfl, rfl⟩, rfl⟩
    refine ⟨_, ⟨v, br₁, hv, w, br₂, hw, u, br₃, hu, hrange, cl, br₄, hcl, d, hd, lens, br₅, hlens,
      rfl, rfl⟩, ?_, hl, hd'⟩
    rwa [getD_take_256]
  · rintro ⟨t, ⟨v, br₁, hv, w, br₂, hw, u, br₃, hu, hrange, cl, br₄, hcl, d, hd, lens, br₅, hlens,
      rfl, rfl⟩, heob, hl, hd'⟩
    rw [getD_take_256] at heob
    exact ⟨v, br₁, hv, w, br₂, hw, u, br₃, hu, hrange, cl, br₄, hcl, d, hd, lens, br₅, hlens, heob,
      lit, hl, dist, hd', ⟨rfl, rfl⟩, rfl⟩

namespace BlockFinder

/-- Both parsers write the same lengths for a symbol. -/
theorem writeLengthsStrict_ok_iff {total sym : ℕ} {lengths : List ℕ} {br : BitReader}
    {r : List ℕ × BitReader} : writeLengthsStrict total lengths sym br = .ok r ↔
      writeCodeLengths total lengths sym br = .ok r := by
  unfold writeLengthsStrict writeCodeLengths
  by_cases h15 : sym ≤ 15
  · rw [if_pos h15, if_pos h15]
  rw [if_neg h15, if_neg h15]
  by_cases h16 : sym = 16
  · rw [if_pos h16, if_pos h16]
    cases lengths.getLast? with
    | none => simp
    | some prev => simp only [bind_eq_ok, ite_error_eq_ok]
  rw [if_neg h16, if_neg h16]
  by_cases h17 : sym = 17
  · rw [if_pos h17, if_pos h17]
    simp only [bind_eq_ok, ite_error_eq_ok]
  rw [if_neg h17, if_neg h17]
  by_cases h18 : sym = 18
  · rw [if_pos h18, if_pos h18]
    simp only [bind_eq_ok, ite_error_eq_ok]
  · rw [if_neg h18, if_neg h18]
    simp

/-- Both parsers read the same lengths. -/
theorem readLengthsStrict_ok_iff {cl : HuffmanDecoder} {total rounds : ℕ} {lengths : List ℕ}
    {br : BitReader} {r : List ℕ × BitReader} :
    readLengthsStrict cl total rounds lengths br = .ok r ↔
      readCodeLengths cl total rounds lengths br = .ok r := by
  induction rounds generalizing lengths br with
  | zero => simp [readLengthsStrict, readCodeLengths]
  | succ rounds ih =>
    rw [readLengthsStrict, readCodeLengths]
    by_cases hlt : lengths.length < total
    · rw [if_pos hlt, if_pos hlt]
      simp only [bind_eq_ok, writeLengthsStrict_ok_iff, ih]
    · rw [if_neg hlt, if_neg hlt]

/-- The strict parser asks for complete codes. -/
theorem readDynamicHeaderStrict_ok_iff {br br' : BitReader} {lit dist : HuffmanDecoder} :
    readDynamicHeaderStrict br = .ok ((lit, dist), br') ↔
      ∃ t, readTreeLengths br = .ok (t, br') ∧ t.lit.getD 256 0 ≠ 0 ∧ Complete t.cl ∧
        fromLengthsStrict t.lit = .ok lit ∧ fromLengthsStrict t.dist = .ok dist := by
  unfold readDynamicHeaderStrict readTreeLengths
  simp only [bind_eq_ok, ite_error_eq_ok, Prod.exists, Except.ok.injEq, Prod.mk.injEq,
    readLengthsStrict_ok_iff]
  constructor
  · rintro ⟨v, br₁, hv, w, br₂, hw, u, br₃, hu, hrange, cl, br₄, hcl, d, hd, lens, br₅, hlens, heob,
      l, hl, d', hd', ⟨rfl, rfl⟩, rfl⟩
    obtain ⟨hlenient, hcomplete⟩ := buildInto_strict_iff.mp hd
    refine ⟨_, ⟨v, br₁, hv, w, br₂, hw, u, br₃, hu, hrange, cl, br₄, hcl, d, hlenient, lens, br₅,
      hlens, rfl, rfl⟩, ?_, hcomplete, hl, hd'⟩
    rwa [getD_take_256]
  · rintro ⟨t, ⟨v, br₁, hv, w, br₂, hw, u, br₃, hu, hrange, cl, br₄, hcl, d, hd, lens, br₅, hlens,
      rfl, rfl⟩, heob, hcomplete, hl, hd'⟩
    rw [getD_take_256] at heob
    exact ⟨v, br₁, hv, w, br₂, hw, u, br₃, hu, hrange, cl, br₄, hcl, d,
      buildInto_strict_iff.mpr ⟨hd, hcomplete⟩, lens, br₅, hlens, heob, lit, hl, dist, hd',
      ⟨rfl, rfl⟩, rfl⟩

/-! ## Agreement -/

/-- Whether a decoder can be built does not depend on what its entries carry. -/
theorem exists_buildInto_iff (lens : List ℕ) (encoding encoding' : Encoding) :
    (∃ d, buildInto lens false encoding = .ok d) ↔ ∃ d, buildInto lens false encoding' = .ok d :=
  ⟨fun ⟨_, h⟩ => buildInto_ok (buildInto_inv h).2 encoding',
    fun ⟨_, h⟩ => buildInto_ok (buildInto_inv h).2 encoding⟩

/-- The strict parser succeeds where the lenient one does and all three codes are complete. -/
theorem exists_readDynamicHeaderStrict_iff (br : BitReader) :
    (∃ r, readDynamicHeaderStrict br = .ok r) ↔
      (∃ r, readDynamicHeader br = .ok r) ∧
        ∃ t br', readTreeLengths br = .ok (t, br') ∧
          Complete t.cl ∧ Complete t.lit ∧ Complete t.dist := by
  constructor
  · rintro ⟨⟨⟨lit, dist⟩, br'⟩, hok⟩
    obtain ⟨t, hread, heob, hcl, hlit, hdist⟩ := readDynamicHeaderStrict_ok_iff.mp hok
    obtain ⟨hlit, hlitComplete⟩ := buildInto_strict_iff.mp hlit
    obtain ⟨hdist, hdistComplete⟩ := buildInto_strict_iff.mp hdist
    obtain ⟨lit', hlit'⟩ := (exists_buildInto_iff t.lit .simple .litLen).mp ⟨lit, hlit⟩
    obtain ⟨dist', hdist'⟩ := (exists_buildInto_iff t.dist .simple .dist).mp ⟨dist, hdist⟩
    exact ⟨⟨_, readDynamicHeader_ok_iff.mpr ⟨t, hread, heob, hlit', hdist'⟩⟩, t, br', hread, hcl,
      hlitComplete, hdistComplete⟩
  · rintro ⟨⟨⟨⟨lit', dist'⟩, br'⟩, hok⟩, t, br'', hread, hcl, hlitComplete, hdistComplete⟩
    obtain ⟨t', hread', heob, hlit', hdist'⟩ := readDynamicHeader_ok_iff.mp hok
    rw [hread] at hread'
    cases hread'
    obtain ⟨lit, hlit⟩ := (exists_buildInto_iff t.lit .simple .litLen).mpr ⟨lit', hlit'⟩
    obtain ⟨dist, hdist⟩ := (exists_buildInto_iff t.dist .simple .dist).mpr ⟨dist', hdist'⟩
    exact ⟨_, readDynamicHeaderStrict_ok_iff.mpr ⟨t, hread, heob, hcl,
      buildInto_strict_iff.mpr ⟨hlit, hlitComplete⟩,
      buildInto_strict_iff.mpr ⟨hdist, hdistComplete⟩⟩⟩

/-- What two successful parses of one header have in common. -/
structure SameTrees (br : BitReader)
    (strict lenient : (HuffmanDecoder × HuffmanDecoder) × BitReader) : Prop where
  stop_eq : strict.2 = lenient.2
  codes : ∃ t, readTreeLengths br = .ok (t, strict.2) ∧
    (∀ br', SameSymbol t.lit .litLen (strict.1.1.decode br') (lenient.1.1.lookup br')) ∧
    ∀ br', SameSymbol t.dist .dist (strict.1.2.decode br') (lenient.1.2.lookup br')

/-- Where both parsers succeed, they build decoders of the same codes. -/
theorem sameTrees_of_ok {br : BitReader}
    {strict lenient : (HuffmanDecoder × HuffmanDecoder) × BitReader}
    (h : readDynamicHeaderStrict br = .ok strict) (h' : readDynamicHeader br = .ok lenient) :
    SameTrees br strict lenient := by
  obtain ⟨⟨lit, dist⟩, br₁⟩ := strict
  obtain ⟨⟨lit', dist'⟩, br₂⟩ := lenient
  obtain ⟨t, hread, -, -, hlit, hdist⟩ := readDynamicHeaderStrict_ok_iff.mp h
  obtain ⟨t', hread', -, hlit', hdist'⟩ := readDynamicHeader_ok_iff.mp h'
  rw [hread] at hread'
  cases hread'
  have hsame {lens : List ℕ} {encoding : Encoding} {plain packed : HuffmanDecoder}
      (hplain : fromLengthsStrict lens = .ok plain)
      (hpacked : buildInto lens false encoding = .ok packed) (br' : BitReader) :
      SameSymbol lens encoding (plain.decode br') (packed.lookup br') :=
    (buildInto_inv hplain).1.decode_agree (buildInto_inv hpacked).1 br'
  exact ⟨rfl, t, hread, hsame hlit hlit', hsame hdist hdist'⟩

/-- A block that the finder returns has the three header bits of a non-final dynamic block, and
the decoder's parser takes the rest of its header. -/
def Parses (data : List UInt8) (pos : ℕ) : Prop :=
  ∃ br br' r, (BitReader.new data).seekToBit pos = .ok br ∧ br.read 3 = .ok (0b100, br') ∧
    readDynamicHeader br' = .ok r

/-- A found block parses in the decoder. -/
theorem Block.parses {data : List UInt8} {fromBit untilBit pos : ℕ}
    (h : Block data fromBit untilBit pos) : Parses data pos := by
  have hverified := h.verified
  unfold verifyCandidate at hverified
  simp only at hverified
  obtain ⟨u, hparsed⟩ := isOk_iff.mp hverified
  simp only [bind_eq_ok, Prod.exists] at hparsed
  obtain ⟨br, hseek, v, br', hbits, lit, dist, br'', hstrict, -⟩ := hparsed
  obtain ⟨⟨r, hlenient⟩, -⟩ := (exists_readDynamicHeaderStrict_iff br').mp ⟨_, hstrict⟩
  have hroom := h.room
  have hle : pos ≤ 8 * (BitReader.new data).input.length := by
    show pos ≤ 8 * data.length
    omega
  obtain ⟨br₀, hseek₀, hreads, -⟩ := (BitReader.new data).seekToBit_ok hle
  rw [hseek] at hseek₀
  cases hseek₀
  have hthree : v = 0b100 := by
    obtain ⟨-, hv, -, -⟩ := hreads.read_inv (by decide) hbits
    have hwindow := isDynamicCandidate_iff.mp h.candidate
    have hmod : peekAt data pos LUT_BITS % 2 ^ 3 = peekAt data pos 3 :=
      peekAt_mod data pos (by decide : 3 ≤ LUT_BITS)
    have hv' : v = peekAt data pos 3 := hv
    omega
  subst hthree
  exact ⟨br, br', r, hseek, hbits, hlenient⟩

/-- The strict and the lenient parser agree: the strict one accepts the headers of the lenient one
whose codes are complete, both stop at the same bit, and their decoders find the same symbols. So
the decoder parses every block that the finder returns. -/
theorem readDynamicHeaderStrict_agrees :
    (∀ br, (∃ r, readDynamicHeaderStrict br = .ok r) ↔
      (∃ r, readDynamicHeader br = .ok r) ∧ ∃ t br', readTreeLengths br = .ok (t, br') ∧
        Complete t.cl ∧ Complete t.lit ∧ Complete t.dist) ∧
    (∀ br strict lenient, readDynamicHeaderStrict br = .ok strict →
      readDynamicHeader br = .ok lenient → SameTrees br strict lenient) ∧
    ∀ data fromBit untilBit pos, findNextDynamicBlock data fromBit untilBit = some pos →
      Parses data pos := by
  refine ⟨exists_readDynamicHeaderStrict_iff, fun br strict lenient => sameTrees_of_ok,
    fun data fromBit untilBit pos hfind => ?_⟩
  rcases findNextDynamicBlock_cases data fromBit untilBit with ⟨n, hsome, hblock, -⟩ | ⟨hnone, -⟩
  · rw [hsome] at hfind
    cases hfind
    exact hblock.parses
  · rw [hnone] at hfind
    cases hfind

end BlockFinder

end RustyRapidgzip
