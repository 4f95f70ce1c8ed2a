import RustyRapidgzip.Lib.Kraft
import RustyRapidgzip.Deflate.Kernel

/-!
# What a lookup tells about the code

A table can be built from exactly the lengths of a prefix code. Its lookups then return the entry
of the symbol whose codeword comes next and fail when there is none. An entry determines its symbol,
except that all reserved distance symbols of one length share one entry.
-/

namespace RustyRapidgzip

open LsbBits Canonical

namespace HuffmanDecoder

/-! ## Entries as numbers -/

/-- The entry of a plain symbol, as a number. -/
theorem encodeEntry_simple_eq (s : ℕ) {length : ℕ} (h : length ≤ 15) :
    encodeEntry s length .simple = s * 65536 + length := by
  rw [encodeEntry, pack_two (by omega)]

/-- The entry of a literal, as a number. -/
theorem encodeEntry_literal_eq {s length : ℕ} (hs : s < 256) (h : length ≤ 15) :
    encodeEntry s length .litLen = 2 ^ 31 + s * 65536 + length := by
  rw [encodeEntry, if_pos hs, Nat.or_assoc, pack_two (by omega), HUFFDEC_LITERAL,
    ← Nat.shiftLeft_add_eq_or_of_lt (by omega), Nat.one_shiftLeft, Nat.add_assoc]

/-- The flag and a length do not overlap. -/
theorem exceptional_or {length : ℕ} (h : length ≤ 15) :
    HUFFDEC_EXCEPTIONAL ||| length = 32768 + length := by
  rw [HUFFDEC_EXCEPTIONAL, ← Nat.shiftLeft_add_eq_or_of_lt (by omega), Nat.one_shiftLeft]

/-- The entry of the end of a block, as a number. -/
theorem encodeEntry_eob_eq {length : ℕ} (h : length ≤ 15) :
    encodeEntry 256 length .litLen = 32768 + length := by
  rw [encodeEntry, if_neg (by decide), if_pos rfl, exceptional_or h]

/-- Lengths have at most five extra bits. -/
theorem lengthExtra_le : ∀ i < 29, LENGTH_EXTRA.getD i 0 ≤ 5 := by decide

/-- The bases of the lengths lie between 3 and 258. -/
theorem lengthBase_bounds : ∀ i < 29, 3 ≤ LENGTH_BASE.getD i 0 ∧ LENGTH_BASE.getD i 0 ≤ 258 := by
  decide

/-- Distances have at most 13 extra bits. -/
theorem distanceExtra_le : ∀ i < 30, DISTANCE_EXTRA.getD i 0 ≤ 13 := by decide

/-- The bases of the distances lie between 1 and 24577. -/
theorem distanceBase_bounds :
    ∀ i < 30, 1 ≤ DISTANCE_BASE.getD i 0 ∧ DISTANCE_BASE.getD i 0 ≤ 24577 := by decide

/-- Different length symbols have different bases. -/
theorem lengthBase_inj :
    ∀ i < 29, ∀ j < 29, LENGTH_BASE.getD i 0 = LENGTH_BASE.getD j 0 → i = j := by decide

/-- Different distance symbols have different bases. -/
theorem distanceBase_inj :
    ∀ i < 30, ∀ j < 30, DISTANCE_BASE.getD i 0 = DISTANCE_BASE.getD j 0 → i = j := by decide

/-- The entry of a length, as a number. -/
theorem encodeEntry_length_eq {s length : ℕ} (hs : 257 ≤ s) (hs' : s ≤ 285) (h : length ≤ 15) :
    encodeEntry s length .litLen =
      LENGTH_BASE.getD (s - 257) 0 * 65536 + LENGTH_EXTRA.getD (s - 257) 0 * 256 + length := by
  have hextra := lengthExtra_le (s - 257) (by omega)
  rw [encodeEntry, if_neg (by omega), if_neg (by omega), if_pos hs',
    pack_three (by omega) (by omega)]

/-- The entry of a reserved symbol, as a number. -/
theorem encodeEntry_reserved_eq {s length : ℕ} (hs : 286 ≤ s) (h : length ≤ 15) :
    encodeEntry s length .litLen = s * 65536 + 32768 + length := by
  have hor : HUFFDEC_EXCEPTIONAL ||| s <<< 16 = s * 65536 + 32768 := by
    rw [Nat.or_comm]
    exact pack_two (by decide)
  have hshift : s * 65536 + 32768 = (2 * s + 1) <<< 15 := by
    rw [Nat.shiftLeft_eq]
    omega
  rw [encodeEntry, if_neg (by omega), if_neg (by omega), if_neg (by omega), hor, hshift,
    ← Nat.shiftLeft_add_eq_or_of_lt (by omega)]

/-- The entry of a distance, as a number. -/
theorem encodeEntry_dist_eq {s length : ℕ} (hs : s ≤ 29) (h : length ≤ 15) :
    encodeEntry s length .dist =
      DISTANCE_BASE.getD s 0 * 65536 + DISTANCE_EXTRA.getD s 0 * 256 + length := by
  have hextra := distanceExtra_le s (by omega)
  rw [encodeEntry, if_pos hs, pack_three (by omega) (by omega)]

/-- The entry of a reserved distance, as a number. -/
theorem encodeEntry_distReserved_eq {s length : ℕ} (hs : 29 < s) (h : length ≤ 15) :
    encodeEntry s length .dist = 32768 + length := by
  rw [encodeEntry, if_neg (by omega), exceptional_or h]

/-- The four kinds of literal/length symbols. -/
theorem litLen_kinds (s : ℕ) : s < 256 ∨ s = 256 ∨ (257 ≤ s ∧ s ≤ 285) ∨ 286 ≤ s := by omega

/-- A reserved distance symbol: its entry says no more than its length. -/
def Reserved (encoding : Encoding) (s : ℕ) : Prop := encoding = .dist ∧ 29 < s

/-- Whether a symbol is reserved can be decided. -/
instance (encoding : Encoding) (s : ℕ) : Decidable (Reserved encoding s) :=
  inferInstanceAs (Decidable (_ ∧ _))

/-- Different symbols of one length have different entries. -/
theorem encodeEntry_litLen_inj {s t l : ℕ} (hs : s < 2 ^ 15) (ht : t < 2 ^ 15) (hl : l ≤ 15)
    (h : encodeEntry s l .litLen = encodeEntry t l .litLen) : s = t := by
  have hbase := lengthBase_inj (s - 257)
  have hsb := lengthBase_bounds (s - 257)
  have htb := lengthBase_bounds (t - 257)
  have hse := lengthExtra_le (s - 257)
  have hte := lengthExtra_le (t - 257)
  rcases litLen_kinds s with hlit | rfl | ⟨hge, hle⟩ | hres
  · rw [encodeEntry_literal_eq hlit hl] at h
    rcases litLen_kinds t with hlit' | rfl | ⟨hge', hle'⟩ | hres'
    · rw [encodeEntry_literal_eq hlit' hl] at h
      omega
    · rw [encodeEntry_eob_eq hl] at h
      omega
    · rw [encodeEntry_length_eq hge' hle' hl] at h
      omega
    · rw [encodeEntry_reserved_eq hres' hl] at h
      omega
  · rw [encodeEntry_eob_eq hl] at h
    rcases litLen_kinds t with hlit' | rfl | ⟨hge', hle'⟩ | hres'
    · rw [encodeEntry_literal_eq hlit' hl] at h
      omega
    · rfl
    · rw [encodeEntry_length_eq hge' hle' hl] at h
      omega
    · rw [encodeEntry_reserved_eq hres' hl] at h
      omega
  · rw [encodeEntry_length_eq hge hle hl] at h
    rcases litLen_kinds t with hlit' | rfl | ⟨hge', hle'⟩ | hres'
    · rw [encodeEntry_literal_eq hlit' hl] at h
      omega
    · rw [encodeEntry_eob_eq hl] at h
      omega
    · rw [encodeEntry_length_eq hge' hle' hl] at h
      have heq := hbase (by omega) (t - 257) (by omega) (by omega)
      omega
    · rw [encodeEntry_reserved_eq hres' hl] at h
      omega
  · rw [encodeEntry_reserved_eq hres hl] at h
    rcases litLen_kinds t with hlit' | rfl | ⟨hge', hle'⟩ | hres'
    · rw [encodeEntry_literal_eq hlit' hl] at h
      omega
    · rw [encodeEntry_eob_eq hl] at h
      omega
    · rw [encodeEntry_length_eq hge' hle' hl] at h
      omega
    · rw [encodeEntry_reserved_eq hres' hl] at h
      omega

/-- Different distances of one length have different entries, unless both are reserved. -/
theorem encodeEntry_dist_inj {s t l : ℕ} (hl : l ≤ 15)
    (h : encodeEntry s l .dist = encodeEntry t l .dist) : s = t ∨ (29 < s ∧ 29 < t) := by
  have hbase := distanceBase_inj s
  have hsb := distanceBase_bounds s
  have htb := distanceBase_bounds t
  have hse := distanceExtra_le s
  have hte := distanceExtra_le t
  by_cases hs : s ≤ 29
  · rw [encodeEntry_dist_eq hs hl] at h
    by_cases ht : t ≤ 29
    · rw [encodeEntry_dist_eq ht hl] at h
      exact Or.inl (hbase (by omega) t (by omega) (by omega))
    · rw [encodeEntry_distReserved_eq (by omega) hl] at h
      omega
  · by_cases ht : t ≤ 29
    · rw [encodeEntry_distReserved_eq (by omega) hl, encodeEntry_dist_eq ht hl] at h
      omega
    · omega

/-- An entry determines its symbol, unless that is a reserved distance. -/
theorem encodeEntry_inj {encoding : Encoding} {s t l l' : ℕ} (hs : s < 2 ^ 15) (ht : t < 2 ^ 15)
    (hl : l ≤ 15) (hl' : l' ≤ 15) (h : encodeEntry s l encoding = encodeEntry t l' encoding) :
    l = l' ∧ (s = t ∨ (Reserved encoding s ∧ Reserved encoding t)) := by
  have hlen := congrArg (· &&& 0xff) h
  simp only [encodeEntry_length s encoding hl, encodeEntry_length t encoding hl'] at hlen
  subst hlen
  refine ⟨rfl, ?_⟩
  cases encoding with
  | simple =>
    rw [encodeEntry_simple_eq s hl, encodeEntry_simple_eq t hl] at h
    exact Or.inl (by omega)
  | litLen => exact Or.inl (encodeEntry_litLen_inj hs ht hl h)
  | dist => exact (encodeEntry_dist_inj hl h).imp_right fun h => ⟨⟨rfl, h.1⟩, rfl, h.2⟩

/-- Reserved distance symbols of one length share their entry. -/
theorem encodeEntry_reserved {encoding : Encoding} {s t : ℕ} (hs : Reserved encoding s)
    (ht : Reserved encoding t) (l : ℕ) : encodeEntry s l encoding = encodeEntry t l encoding := by
  obtain ⟨rfl, hs⟩ := hs
  rw [encodeEntry, encodeEntry, if_neg (by omega), if_neg (by have := ht.2; omega)]

/-- What the fields of an entry say: the symbol; a literal byte, the end of the block, a base and
a number of extra bits, or a reserved symbol; a base and a number of extra bits, or a reserved
symbol. -/
def Carries (entry s : ℕ) : Encoding → Prop
  | .simple => entry >>> 16 = s
  | .litLen =>
    if s < 256 then entry &&& HUFFDEC_LITERAL ≠ 0 ∧ entry >>> 16 &&& 0xff = s
    else entry &&& HUFFDEC_LITERAL = 0 ∧
      if s = 256 then entry &&& HUFFDEC_EXCEPTIONAL ≠ 0 ∧ entry >>> 16 = 0
      else if s ≤ 285 then entry &&& HUFFDEC_EXCEPTIONAL = 0 ∧
        (entry >>> 16) &&& 0x1ff = LENGTH_BASE.getD (s - 257) 0 ∧
        (entry >>> 8) &&& 0x1f = LENGTH_EXTRA.getD (s - 257) 0
      else entry &&& HUFFDEC_EXCEPTIONAL ≠ 0 ∧ entry >>> 16 = s
  | .dist =>
    if s ≤ 29 then entry &&& HUFFDEC_EXCEPTIONAL = 0 ∧ entry >>> 16 = DISTANCE_BASE.getD s 0 ∧
      (entry >>> 8) &&& 0x1f = DISTANCE_EXTRA.getD s 0
    else entry &&& HUFFDEC_EXCEPTIONAL ≠ 0

/-- A number without the highest bit has no literal flag. -/
theorem and_literal_eq_zero {e : ℕ} (h : e / 2 ^ 31 % 2 = 0) : e &&& HUFFDEC_LITERAL = 0 := by
  have hiff := and_literal e
  by_contra hne
  have := hiff.mp hne
  omega

/-- Every entry carries its symbol. -/
theorem carries_encodeEntry (encoding : Encoding) {s l : ℕ} (hs : s < 2 ^ 15) (hl : l ≤ 15) :
    Carries (encodeEntry s l encoding) s encoding := by
  cases encoding with
  | simple => exact encodeEntry_simple s hl
  | litLen =>
    unfold Carries
    rcases litLen_kinds s with hlit | rfl | ⟨hge, hle⟩ | hres
    · rw [if_pos hlit, encodeEntry_literal_eq hlit hl, and_literal, Nat.shiftRight_eq_div_pow,
        show (0xff : ℕ) = 2 ^ 8 - 1 from rfl, Nat.and_two_pow_sub_one_eq_mod]
      omega
    · rw [if_neg (by decide), if_pos rfl, encodeEntry_eob_eq hl, and_exceptional,
        Nat.shiftRight_eq_div_pow]
      exact ⟨and_literal_eq_zero (by omega), by omega, by omega⟩
    · have hbase := lengthBase_bounds (s - 257) (by omega)
      have hextra := lengthExtra_le (s - 257) (by omega)
      obtain ⟨hhigh, hmid, hlit, hexc⟩ := pack_fields (LENGTH_BASE.getD (s - 257) 0)
        (LENGTH_EXTRA.getD (s - 257) 0) l (by omega) (by omega) (by omega)
      rw [if_neg (by omega), if_neg (by omega), if_pos hle, encodeEntry, if_neg (by omega),
        if_neg (by omega), if_pos hle]
      dsimp only
      rw [hhigh, show (0x1ff : ℕ) = 2 ^ 9 - 1 from rfl, Nat.and_two_pow_sub_one_eq_mod,
        Nat.mod_eq_of_lt (by omega)]
      exact ⟨hlit, hexc, rfl, hmid⟩
    · rw [if_neg (by omega), if_neg (by omega), if_neg (by omega), encodeEntry_reserved_eq hres hl,
        and_exceptional, Nat.shiftRight_eq_div_pow]
      exact ⟨and_literal_eq_zero (by omega), by omega, by omega⟩
  | dist =>
    unfold Carries
    by_cases hle : s ≤ 29
    · have hbase := distanceBase_bounds s (by omega)
      have hextra := distanceExtra_le s (by omega)
      obtain ⟨hhigh, hmid, -, hexc⟩ := pack_fields (DISTANCE_BASE.getD s 0)
        (DISTANCE_EXTRA.getD s 0) l (by omega) (by omega) (by omega)
      rw [if_pos hle, encodeEntry, if_pos hle]
      exact ⟨hexc, hhigh, hmid⟩
    · rw [if_neg hle, encodeEntry_distReserved_eq (by omega) hl, and_exceptional]
      omega

/-! ## Building and looking up -/

/-- A table can be built exactly from the lengths of a prefix code. -/
theorem buildInto_ok_iff (lens : List ℕ) (encoding : Encoding) :
    (∃ d, buildInto lens false encoding = .ok d) ↔
      (∀ l ∈ lens, l ≤ MAX_CODE_LEN) ∧ kraftSum lens ≤ 1 := by
  constructor
  · rintro ⟨d, hd⟩
    obtain ⟨hle, hkraft⟩ := (buildInto_inv hd).2
    exact ⟨hle, (kraftSum_le_one_iff hle).mpr hkraft⟩
  · rintro ⟨hle, hsum⟩
    exact buildInto_ok ⟨hle, (kraftSum_le_one_iff hle).mp hsum⟩ encoding

section Lookup

variable {d : HuffmanDecoder} {lens : List ℕ} {encoding : Encoding} {br : BitReader}
  {input : List UInt8} {p : ℕ}

/-- A decoder has no longer codewords than the format allows. -/
theorem Implements.getD_le (h : Implements d lens encoding) (s : ℕ) :
    lens.getD s 0 ≤ MAX_CODE_LEN := by
  by_cases hs : s < lens.length
  · rw [List.getD_eq_getElem _ _ hs]
    exact h.lens_le _ (List.getElem_mem hs)
  · rw [List.getD_eq_default _ _ (by omega)]
    exact Nat.zero_le _

/-- A reader with the longest codeword in its word needs no refill. -/
theorem lookup_eq_lookupFilled (hr : br.Reads input p) (hbits : MAX_CODE_LEN ≤ br.bits) :
    d.lookup br = d.lookupFilled br := by
  have hlut : LUT_BITS ≤ MAX_CODE_LEN := by decide
  unfold lookup lookupFilled
  rw [peek_of_le hr (by omega), hr.peekBitsUnchecked_eq (by omega)]

/-- The symbol whose codeword comes next is looked up, and its bits are consumed. -/
theorem Implements.lookup_codeword (h : Implements d lens encoding) (hr : br.Reads input p)
    (hroom : p + MAX_CODE_LEN ≤ 8 * input.length) {s : ℕ} (hs : s < lens.length)
    (hpos : 0 < lens.getD s 0) (hle : lens.getD s 0 ≤ MAX_CODE_LEN)
    (hpre : codeword lens s <+: (bits input).drop p) :
    ∃ br', d.lookup br = .ok (encodeEntry s (lens.getD s 0) encoding, br') ∧
      br'.Reads input (p + lens.getD s 0) := by
  have hdec := h.decode_iff.mp ⟨mem_inCodeOrder.mpr ⟨hs, hpos, hle⟩, hpre⟩
  obtain ⟨br', hok⟩ := h.lookup_ok hr hroom hdec
  obtain ⟨t, ht, -, hreads, -⟩ := h.lookup_inv hr hok
  rw [hdec] at ht
  obtain ⟨rfl, -⟩ := Prod.mk.inj (Option.some.inj ht)
  exact ⟨br', hok, hreads⟩

/-- A successful lookup consumed the codeword of a used symbol and returned its entry. -/
theorem Implements.exists_codeword (h : Implements d lens encoding) (hr : br.Reads input p)
    {entry : ℕ} {br' : BitReader} (hok : d.lookup br = .ok (entry, br')) :
    ∃ s, s < lens.length ∧ 0 < lens.getD s 0 ∧ lens.getD s 0 ≤ MAX_CODE_LEN ∧
      codeword lens s <+: (bits input).drop p ∧ entry = encodeEntry s (lens.getD s 0) encoding ∧
      br'.Reads input (p + lens.getD s 0) := by
  obtain ⟨s, hdec, hentry, hreads, -⟩ := h.lookup_inv hr hok
  rw [← List.drop_drop] at hdec
  obtain ⟨hmem, hpre⟩ := h.decode_iff.mpr hdec
  obtain ⟨hs, hpos, hle⟩ := mem_inCodeOrder.mp hmem
  exact ⟨s, hs, hpos, hle, hpre, hentry, hreads⟩

/-- A used symbol's entry is returned when its codeword comes next; the entry that reserved
distance symbols share, when the codeword of one of them does. -/
theorem Implements.lookup_entry_iff (h : Implements d lens encoding) (hr : br.Reads input p)
    (hroom : p + MAX_CODE_LEN ≤ 8 * input.length) (hlens : lens.length ≤ 288) {s : ℕ}
    (hs : s < lens.length) (hpos : 0 < lens.getD s 0) :
    (∃ br', d.lookup br = .ok (encodeEntry s (lens.getD s 0) encoding, br') ∧
        br'.Reads input (p + lens.getD s 0)) ↔
      codeword lens s <+: (bits input).drop p ∨
        (Reserved encoding s ∧ ∃ t < lens.length, Reserved encoding t ∧
          lens.getD t 0 = lens.getD s 0 ∧ codeword lens t <+: (bits input).drop p) := by
  have hle := h.getD_le s
  constructor
  · rintro ⟨br', hok, -⟩
    obtain ⟨t, ht, -, htle, hpre, hentry, -⟩ := h.exists_codeword hr hok
    obtain ⟨hlen, rfl | ⟨hres, hres'⟩⟩ := encodeEntry_inj (by omega) (by omega) hle htle hentry
    · exact Or.inl hpre
    · exact Or.inr ⟨hres, t, ht, hres', hlen.symm, hpre⟩
  · rintro (hpre | ⟨hres, t, ht, hres', hlen, hpre⟩)
    · exact h.lookup_codeword hr hroom hs hpos hle hpre
    · obtain ⟨br', hok, hreads⟩ := h.lookup_codeword hr hroom ht (by omega) (by omega) hpre
      rw [hlen, encodeEntry_reserved hres' hres] at hok
      rw [hlen] at hreads
      exact ⟨br', hok, hreads⟩

/-- A lookup fails when no codeword comes next. -/
theorem Implements.lookup_error_iff (h : Implements d lens encoding) (hr : br.Reads input p)
    (hroom : p + MAX_CODE_LEN ≤ 8 * input.length) :
    (∃ e, d.lookup br = .error e) ↔
      ∀ s < lens.length, 0 < lens.getD s 0 → ¬codeword lens s <+: (bits input).drop p := by
  constructor
  · rintro ⟨e, herr⟩ s hs hpos hpre
    obtain ⟨br', hok, -⟩ := h.lookup_codeword hr hroom hs hpos (h.getD_le s) hpre
    rw [hok] at herr
    cases herr
  · intro hnone
    cases hres : d.lookup br with
    | error e => exact ⟨e, rfl⟩
    | ok r =>
      obtain ⟨s, hs, hpos, -, hpre, -⟩ := h.exists_codeword hr hres
      exact absurd hpre (hnone s hs hpos)

end Lookup

/-- **The decoder decodes the canonical code.** For at most 288 lengths, building succeeds exactly
when no length is over 15 and the Kraft sum is at most one. With 15 bits left, a lookup then
returns a symbol's entry and consumes its bits exactly when the symbol's codeword comes next, where
reserved distance symbols of one length cannot be told apart; it fails exactly when no codeword
does; and the entries carry their symbols. -/
theorem buildInto_decodes_canonical (lens : List ℕ) (encoding : Encoding)
    (hlens : lens.length ≤ 288) :
    ((∃ d, buildInto lens false encoding = .ok d) ↔
      (∀ l ∈ lens, l ≤ 15) ∧ kraftSum lens ≤ 1) ∧
    ∀ d, buildInto lens false encoding = .ok d →
      (∀ s < lens.length, 0 < lens.getD s 0 →
        Carries (encodeEntry s (lens.getD s 0) encoding) s encoding) ∧
      ∀ (input : List UInt8) (p : ℕ) (br : BitReader), br.Reads input p →
        p + 15 ≤ 8 * input.length →
        (15 ≤ br.bits → d.lookupFilled br = d.lookup br) ∧
        (∀ s < lens.length, 0 < lens.getD s 0 →
          ((∃ br', d.lookup br = .ok (encodeEntry s (lens.getD s 0) encoding, br') ∧
              br'.Reads input (p + lens.getD s 0)) ↔
            codeword lens s <+: (bits input).drop p ∨
              (Reserved encoding s ∧ ∃ t < lens.length, Reserved encoding t ∧
                lens.getD t 0 = lens.getD s 0 ∧ codeword lens t <+: (bits input).drop p))) ∧
        ((∃ e, d.lookup br = .error e) ↔
          ∀ s < lens.length, 0 < lens.getD s 0 → ¬codeword lens s <+: (bits input).drop p) := by
  refine ⟨buildInto_ok_iff lens encoding, fun d hd => ?_⟩
  have himpl := (buildInto_inv hd).1
  refine ⟨fun s hs hpos => ?_, fun input p br hr hroom => ?_⟩
  · exact carries_encodeEntry encoding (by omega) (himpl.getD_le s)
  · refine ⟨fun hbits => (lookup_eq_lookupFilled hr hbits).symm, fun s hs hpos => ?_,
      himpl.lookup_error_iff hr hroom⟩
    exact himpl.lookup_entry_iff hr hroom hlens hs hpos

/-- The lengths 2, 1, 3 and 3 read their first symbol from two bits, the lengths 2 and 2 leave the
bits behind a one without a symbol, and three lengths of one bit build nothing. -/
theorem buildInto_decodes_canonical_four :
    (∃ d, buildInto [2, 1, 3, 3] false .simple = .ok d ∧
      ∃ br', d.lookup (.new [0b101, 0]) = .ok (encodeEntry 0 2 .simple, br') ∧
        br'.Reads [0b101, 0] 2) ∧
    (∃ d, buildInto [2, 2] false .simple = .ok d ∧
      ∃ e, d.lookup (.new [0b1, 0]) = .error e) ∧
    ¬∃ d, buildInto [1, 1, 1] false .simple = .ok d := by
  refine ⟨?_, ?_, ?_⟩
  · obtain ⟨hbuild, hlookup⟩ := buildInto_decodes_canonical [2, 1, 3, 3] .simple (by decide)
    obtain ⟨d, hd⟩ := hbuild.mpr ⟨by decide, by norm_num [kraftSum]⟩
    obtain ⟨-, hok, -⟩ := (hlookup d hd).2 [0b101, 0] 0 _ (BitReader.new_reads _) (by decide)
    exact ⟨d, hd, (hok 0 (by decide) (by decide)).mpr (Or.inl (by decide))⟩
  · obtain ⟨hbuild, hlookup⟩ := buildInto_decodes_canonical [2, 2] .simple (by decide)
    obtain ⟨d, hd⟩ := hbuild.mpr ⟨by decide, by rw [kraftSum]; decide +kernel⟩
    obtain ⟨-, -, herror⟩ := (hlookup d hd).2 [0b1, 0] 0 _ (BitReader.new_reads _) (by decide)
    exact ⟨d, hd, herror.mpr (by decide)⟩
  · obtain ⟨hbuild, -⟩ := buildInto_decodes_canonical [1, 1, 1] .simple (by decide)
    rw [hbuild, kraftSum]
    decide +kernel

/-- With 32 distances of five bits each, the codeword of distance 31 comes next, and the lookup
returns the entry of distance 30. -/
theorem lookup_reserved_distance :
    ∃ d, buildInto (List.replicate 32 5) false .dist = .ok d ∧
      (∃ br', d.lookup (.new [0xff, 0xff]) = .ok (encodeEntry 30 5 .dist, br') ∧
        br'.Reads [0xff, 0xff] 5) ∧
      ¬codeword (List.replicate 32 5) 30 <+: bits [0xff, 0xff] := by
  obtain ⟨d, hd⟩ := @buildInto_ok (List.replicate 32 5) (by decide) .dist
  have himpl := (buildInto_inv hd).1
  have hpre : codeword (List.replicate 32 5) 31 <+: (bits [0xff, 0xff]).drop 0 := by decide
  obtain ⟨br', hok, hreads⟩ := himpl.lookup_codeword (BitReader.new_reads [0xff, 0xff])
    (by decide) (by decide) (by decide) (by decide) hpre
  exact ⟨d, hd, ⟨br', hok, hreads⟩, by decide⟩

end HuffmanDecoder

end RustyRapidgzip
