import RustyRapidgzip.Deflate.SafeCorrect

/-!
# The table of the safe decoder

An entry of the table is what the canonical walk finds. But the codes that the table is built from
count the unused symbols too, and the byte swap of the reversal keeps their high byte. A code with
a bit there is stored beyond the index of its own codeword, so the table lacks at least that index
and the decoder walks. The table is complete exactly when no short code has such a bit.
-/

namespace RustyRapidgzip

open LsbBits Canonical

namespace SafeInflate

/-! ## The reversal -/

/-- The reversal has 24 bits at most. -/
theorem reverseBits_lt (c : ℕ) : reverseBits c 16 < 2 ^ 24 := by
  have hand (a m n k : ℕ) (hm : m <<< k < 2 ^ n) : (a &&& m) <<< k < 2 ^ n := by
    rw [Nat.shiftLeft_eq] at hm ⊢
    exact Nat.lt_of_le_of_lt (Nat.mul_le_mul_right _ Nat.and_le_right) hm
  have hright (a m n k : ℕ) (hm : m < 2 ^ n) : (a &&& m) >>> k < 2 ^ n :=
    Nat.lt_of_le_of_lt (Nat.shiftRight_le _ _) (Nat.lt_of_le_of_lt Nat.and_le_right hm)
  unfold reverseBits
  dsimp only
  generalize ((c &&& 0x5555) <<< 1 ||| (c &&& 0xaaaa) >>> 1) = x
  generalize ((x &&& 0x3333) <<< 2 ||| (x &&& 0xcccc) >>> 2) = y
  have hy : (y &&& 0x0f0f) <<< 4 ||| (y &&& 0xf0f0) >>> 4 < 2 ^ 16 :=
    Nat.or_lt_two_pow (hand y 0x0f0f 16 4 (by decide)) (hright y 0xf0f0 16 4 (by decide))
  generalize (y &&& 0x0f0f) <<< 4 ||| (y &&& 0xf0f0) >>> 4 = z at hy ⊢
  refine Nat.lt_of_le_of_lt (Nat.shiftRight_le _ _) (Nat.or_lt_two_pow ?_ ?_)
  · rw [Nat.shiftLeft_eq]
    omega
  · exact Nat.lt_of_le_of_lt (Nat.shiftRight_le _ _) (by omega)

/-- Nothing stands above the reversed digits exactly when the high byte of the code is clear. -/
theorem reverseBits_div_eq_zero_iff (c : ℕ) {len : ℕ} (hlen : len ≤ 16) :
    reverseBits c len / 2 ^ len = 0 ↔ c / 256 % 256 = 0 := by
  have hshift : reverseBits c len / 2 ^ len = reverseBits c 16 >>> 16 := by
    rw [show reverseBits c len = reverseBits c 16 >>> (16 - len) from rfl,
      ← Nat.shiftRight_eq_div_pow,
      ← Nat.shiftRight_add, Nat.sub_add_cancel hlen]
  have hhigh (j : ℕ) : (c / 256 % 256).testBit j = (decide (j < 8) && c.testBit (8 + j)) := by
    rw [show (256 : ℕ) = 2 ^ 8 from rfl, Nat.testBit_mod_two_pow, ← Nat.shiftRight_eq_div_pow,
      Nat.testBit_shiftRight]
  rw [hshift]
  constructor
  · intro hzero
    apply Nat.eq_of_testBit_eq
    intro j
    rw [hhigh, Nat.zero_testBit]
    by_cases hj : j < 8
    · have hbit := congrArg (Nat.testBit · (7 - j)) hzero
      simp only [Nat.testBit_shiftRight, Nat.zero_testBit] at hbit
      rw [testBit_reverseBits c (by omega),
        show 15 - (16 + (7 - j)) % 16 = 8 + j by omega] at hbit
      simp [hbit]
    · simp [hj]
  · intro hzero
    apply Nat.eq_of_testBit_eq
    intro i
    rw [Nat.testBit_shiftRight, Nat.zero_testBit]
    by_cases hi : i < 8
    · have hbit := hhigh (7 - i)
      rw [hzero, Nat.zero_testBit, show 8 + (7 - i) = 15 - (16 + i) % 16 by omega] at hbit
      rw [testBit_reverseBits c (by omega)]
      simpa [show 7 - i < 8 by omega] using hbit.symm
    · exact Nat.testBit_lt_two_pow (Nat.lt_of_lt_of_le (reverseBits_lt c)
        (Nat.pow_le_pow_right (by decide) (by omega)))

/-! ## The table -/

/-- The symbol's code, as it is entered into the table, has a clear high byte. -/
def HighByteClear (lens : List ℕ) (s : ℕ) : Prop :=
  (code lens s + lens.count 0 * 2 ^ lens.getD s 0) / 256 % 256 = 0

/-- Whether a high byte is clear can be decided. -/
instance (lens : List ℕ) (s : ℕ) : Decidable (HighByteClear lens s) :=
  inferInstanceAs (Decidable (_ = _))

/-- A symbol is stored from its own codeword on, exactly when its high byte is clear. -/
theorem firstIndex_eq_iff {lens : List ℕ} {s : ℕ} (hs : lens.getD s 0 ≤ LUT_BITS) :
    firstIndex lens (lens.count 0) s = ofLsb (codeword lens s) ↔ HighByteClear lens s := by
  have h9 : LUT_BITS = 9 := rfl
  have hmod := @firstIndex_mod lens s (lens.count 0) (by omega)
  have hdiv := Nat.div_add_mod (firstIndex lens (lens.count 0) s) (2 ^ lens.getD s 0)
  rw [hmod] at hdiv
  rw [HighByteClear, ← reverseBits_div_eq_zero_iff _ (by omega : lens.getD s 0 ≤ 16)]
  constructor
  · intro heq
    have hmul : 2 ^ lens.getD s 0 * (firstIndex lens (lens.count 0) s / 2 ^ lens.getD s 0) = 0 := by
      omega
    exact (Nat.mul_eq_zero.mp hmul).resolve_left (Nat.two_pow_pos _).ne'
  · intro hzero
    have hzero' : firstIndex lens (lens.count 0) s / 2 ^ lens.getD s 0 = 0 := hzero
    rw [hzero'] at hdiv
    omega

/-- The bits of a table index, in the order they are read. -/
def indexBits (idx : ℕ) : List Bool := (List.range LUT_BITS).map idx.testBit

/-- An index has nine bits. -/
@[simp] theorem indexBits_length (idx : ℕ) : (indexBits idx).length = LUT_BITS := by
  simp [indexBits]

/-- The number of the bits is the index. -/
theorem ofLsb_indexBits {idx : ℕ} (hidx : idx < LUT_SIZE) : ofLsb (indexBits idx) = idx := by
  apply Nat.eq_of_testBit_eq
  intro i
  rw [testBit_ofLsb]
  by_cases hi : i < LUT_BITS
  · rw [List.getD_eq_getElem _ _ (by simpa using hi)]
    simp [indexBits]
  · rw [List.getD_eq_default _ _ (by simp; omega)]
    refine (Nat.testBit_lt_two_pow (Nat.lt_of_lt_of_le hidx ?_)).symm
    rw [LUT_SIZE, Nat.one_shiftLeft]
    exact Nat.pow_le_pow_right (by decide) (by omega)

/-- An index starts with a short codeword exactly when its low digits are the codeword's. -/
theorem prefix_indexBits_iff {lens : List ℕ} {s idx : ℕ} (hs : Short lens s)
    (hidx : idx < LUT_SIZE) :
    codeword lens s <+: indexBits idx ↔
      idx % 2 ^ lens.getD s 0 = ofLsb (codeword lens s) := by
  have hiff := @HuffmanDecoder.codeword_prefix_iff lens s (indexBits idx)
    (by rw [indexBits_length]; exact hs.2.2)
  rwa [ofLsb_indexBits hidx] at hiff

variable {h : Huffman} {lens : List ℕ}

/-- Only one codeword starts an index. -/
theorem Implements.short_unique (hi : Implements h lens) {s t : ℕ} {bs : List Bool}
    (hs : Short lens s) (ht : Short lens t) (hsb : codeword lens s <+: bs)
    (htb : codeword lens t <+: bs) : s = t := by
  have h9 : LUT_BITS = 9 := rfl
  obtain ⟨r, rfl⟩ := hsb
  obtain ⟨r', htb⟩ := htb
  have hsle := hs.2.2
  have htle := ht.2.2
  have hsdec := decode_codeword hi.code.2 r hs.1 hs.2.1 (by omega)
  have htdec := decode_codeword hi.code.2 r' ht.1 ht.2.1 (by omega)
  rw [htb, hsdec] at htdec
  exact (Prod.mk.inj (Option.some.inj htdec)).1

/-- The table that a successful construction leaves, if a symbol is used. -/
theorem construct_entered (hok : construct lens = .ok h) (hused : ∃ l ∈ lens, 0 < l) :
    Entered lens (lens.count 0) lens.length h.lut := by
  unfold construct at hok
  rcases HuffmanDecoder.countLengths_eq "code length exceeds 15" lens (fun _ => 0) with
    ⟨count, hcounts, -, hcount⟩ | ⟨herr, -⟩
  · simp only [Nat.zero_add] at hcount
    rw [hcounts] at hok
    simp only at hok
    split at hok
    · next hall =>
      obtain ⟨l, hl, hpos⟩ := hused
      rw [hcount] at hall
      have hzero := List.count_eq_length.mp hall l hl
      omega
    · split at hok
      · cases hok
      · cases hok
        rw [← hcount 0]
        exact fillLut_nil_entered (fun l _ => hcount l)
  · rw [herr] at hok
    cases hok

/-- A code that is built implements its lengths. -/
theorem construct_implements (hok : construct lens = .ok h) : Implements h lens := by
  rcases construct_cases lens with ⟨-, h', hok', himpl⟩ | ⟨-, e, herr, -⟩
  · rw [hok] at hok'
    cases hok'
    exact himpl
  · rw [hok] at herr
    cases herr

/-! ## The table against the walk -/

/-- An entry is the symbol and the length that the walk would return. -/
theorem Implements.decodeShort_lut (hi : Implements h lens) {idx : ℕ} (hidx : idx < LUT_SIZE)
    (hne : h.lut idx ≠ 0) {br : BitReader} (hbits : LUT_BITS ≤ br.bits)
    (hbuf : br.buf % LUT_SIZE = idx) :
    decodeShort br h = .ok (lutSym (h.lut idx), br.consume (lutLen (h.lut idx))) := by
  have h9 : LUT_BITS = 9 := rfl
  rcases hi.lut idx hidx with hzero | ⟨s, hs, hpos, hle, hstart, hentry⟩
  · exact absurd hzero hne
  obtain ⟨hlen, hsym⟩ := lutPack_fields s (by omega : lens.getD s 0 ≤ 9)
  -- The walk sees the valid bits of the word, which start with the index.
  let bs := (List.range br.bits).map br.buf.testBit
  have hget (i : ℕ) (hlt : i < br.bits) : br.buf.testBit i = bs.getD i false := by
    rw [List.getD_eq_getElem _ _ (by simpa [bs] using hlt)]
    simp [bs]
  have htake : bs.take LUT_BITS = indexBits idx := by
    apply List.ext_getElem
    · simp [bs, hbits]
    · intro i hi₁ hi₂
      have hlt : i < LUT_BITS := by simpa using hi₂
      have hbit : idx.testBit i = br.buf.testBit i := by
        rw [← hbuf, show LUT_SIZE = 2 ^ LUT_BITS from rfl, Nat.testBit_mod_two_pow]
        simp [hlt]
      simp [bs, indexBits, hbit]
  have hpre : codeword lens s <+: bs := by
    have hshort := (prefix_indexBits_iff ⟨hs, hpos, hle⟩ hidx).mpr hstart
    rw [← htake] at hshort
    exact hshort.trans (List.take_prefix _ _)
  obtain ⟨rest, hrest⟩ := hpre
  have hdec := decode_codeword hi.code.2 rest hs hpos (by omega)
  rw [hrest] at hdec
  have hwalk := hi.walk_cases MAXBITS 0 0 br.buf br.bits bs hget (by simp [bs])
    (Or.inl (by simp [bs])) (Nat.zero_le _)
  rw [hentry, hlen, hsym]
  unfold decodeShort
  rcases hwalk with ⟨t, rest', n, htdec, -, hn, -, hrest', hok⟩ | ⟨hnone, -⟩
  · rw [show decodeFrom lens MAXBITS 0 0 bs = some (s, rest) from hdec] at htdec
    obtain ⟨rfl, rfl⟩ := Prod.mk.inj (Option.some.inj htdec)
    have hlenbs : n = lens.getD s 0 := by
      have hl₁ := congrArg List.length hrest
      have hl₂ := congrArg List.length hrest'
      rw [List.length_append, codeword_length] at hl₁
      rw [List.length_drop] at hl₂
      have hl₃ : bs.length = br.bits := by simp [bs]
      omega
    rw [show walk h MAXBITS 1 br.buf br.bits 0 0 0 = _ from hok]
    simp only [Nat.zero_add, hlenbs]
    rfl
  · rw [show decodeFrom lens MAXBITS 0 0 bs = some (s, rest) from hdec] at hnone
    cases hnone

/-- The table is complete and agrees with the walk: each index that starts with a short codeword
holds its symbol and length, an empty index starts with none, and an entry is what the walk returns
on a word with that index. -/
structure TableAgrees (lens : List ℕ) (h : Huffman) : Prop where
  complete : ∀ idx < LUT_SIZE, ∀ s, Short lens s → codeword lens s <+: indexBits idx →
    h.lut idx = lutPack s (lens.getD s 0)
  empty : ∀ idx < LUT_SIZE, h.lut idx = 0 → ∀ s, Short lens s → ¬codeword lens s <+: indexBits idx
  walk : ∀ idx < LUT_SIZE, h.lut idx ≠ 0 → ∀ br : BitReader, LUT_BITS ≤ br.bits →
    br.buf % LUT_SIZE = idx →
    decodeShort br h = .ok (lutSym (h.lut idx), br.consume (lutLen (h.lut idx)))

/-- An entry is not zero. -/
theorem lutPack_ne_zero (s : ℕ) {len : ℕ} (hpos : 0 < len) : lutPack s len ≠ 0 := by
  intro hzero
  have := (Nat.or_eq_zero_iff.mp hzero).2
  omega

/-- With every high byte clear, the table is complete. -/
theorem Entered.complete (he : Entered lens (lens.count 0) lens.length h.lut)
    (hi : Implements h lens) (hclear : ∀ s, Short lens s → HighByteClear lens s) {idx s : ℕ}
    (hidx : idx < LUT_SIZE) (hs : Short lens s) (hpre : codeword lens s <+: indexBits idx) :
    h.lut idx = lutPack s (lens.getD s 0) := by
  have hstart := (prefix_indexBits_iff hs hidx).mp hpre
  rcases he idx hidx with ⟨t, -, ht, htstart, -, hentry⟩ | ⟨-, hnone⟩
  · obtain rfl := hi.short_unique hs ht hpre ((prefix_indexBits_iff ht hidx).mpr htstart)
    exact hentry
  · have hbelow := hnone s hs.1 hs hstart
    rw [(firstIndex_eq_iff hs.2.2).mpr (hclear s hs), ← hstart] at hbelow
    exact absurd (Nat.mod_le idx _) (Nat.not_le_of_lt hbelow)

/-- A complete table has an entry at the index of each codeword itself, so its high byte is
clear. -/
theorem Entered.highByteClear (he : Entered lens (lens.count 0) lens.length h.lut)
    (hi : Implements h lens)
    (hfull : ∀ idx < LUT_SIZE, ∀ s, Short lens s → codeword lens s <+: indexBits idx →
      h.lut idx = lutPack s (lens.getD s 0)) {s : ℕ} (hs : Short lens s) :
    HighByteClear lens s := by
  have hlt : ofLsb (codeword lens s) < 2 ^ lens.getD s 0 := by
    have hbound := ofLsb_lt (codeword lens s)
    rwa [codeword_length] at hbound
  have hidx : ofLsb (codeword lens s) < LUT_SIZE := by
    apply Nat.lt_of_lt_of_le hlt
    rw [LUT_SIZE, Nat.one_shiftLeft]
    exact Nat.pow_le_pow_right (by decide) hs.2.2
  have hstart : ofLsb (codeword lens s) % 2 ^ lens.getD s 0 = ofLsb (codeword lens s) :=
    Nat.mod_eq_of_lt hlt
  have hpre := (prefix_indexBits_iff hs hidx).mpr hstart
  have hentry := hfull _ hidx s hs hpre
  rw [← firstIndex_eq_iff hs.2.2]
  rcases he _ hidx with ⟨t, -, ht, htstart, hfirst, -⟩ | ⟨hzero, -⟩
  · obtain rfl := hi.short_unique hs ht hpre ((prefix_indexBits_iff ht hidx).mpr htstart)
    have h9 : LUT_BITS = 9 := rfl
    have hmod := @firstIndex_mod lens s (lens.count 0)
      (by have := hs.2.2; omega)
    rw [← hmod] at hfirst ⊢
    exact Nat.le_antisymm hfirst (Nat.mod_le _ _)
  · rw [hzero] at hentry
    exact absurd hentry.symm (lutPack_ne_zero s hs.2.1)

/-- A table agrees exactly where all high bytes are clear. -/
theorem Entered.tableAgrees_iff (he : Entered lens (lens.count 0) lens.length h.lut)
    (hi : Implements h lens) :
    TableAgrees lens h ↔ ∀ s, Short lens s → HighByteClear lens s := by
  constructor
  · intro hagrees s hs
    exact he.highByteClear hi hagrees.complete hs
  · intro hclear
    constructor
    · exact fun idx hidx s hs hpre => he.complete hi hclear hidx hs hpre
    · intro idx hidx hzero s hs hpre
      have hentry := he.complete hi hclear hidx hs hpre
      rw [hzero] at hentry
      exact lutPack_ne_zero s hs.2.1 hentry.symm
    · exact fun idx hidx hne br hbits hbuf => hi.decodeShort_lut hidx hne hbits hbuf

/-- **The table is complete exactly when no short code has a bit in its high byte**, where the code
is the canonical one plus the unused symbols shifted by its length. -/
theorem construct_tableAgrees_iff (lens : List ℕ) (h : Huffman) (hok : construct lens = .ok h)
    (hused : ∃ l ∈ lens, 0 < l) :
    TableAgrees lens h ↔ ∀ s, Short lens s → HighByteClear lens s :=
  (construct_entered hok hused).tableAgrees_iff (construct_implements hok)

/-- Two symbols of one bit have a complete table. With one length of each of the bits one to ten
and a second of ten, the symbol of nine bits has a bit in its high byte, and the table is not
complete. -/
theorem construct_tableAgrees_iff_two :
    (∃ h, construct [1, 1] = .ok h ∧ TableAgrees [1, 1] h) ∧
    ∃ h, construct [1, 2, 3, 4, 5, 6, 7, 8, 9, 10, 10] = .ok h ∧
      ¬TableAgrees [1, 2, 3, 4, 5, 6, 7, 8, 9, 10, 10] h := by
  refine ⟨⟨_, rfl, ?_⟩, ?_⟩
  · refine (construct_tableAgrees_iff [1, 1] _ rfl ⟨1, by decide, by decide⟩).mpr fun s hs => ?_
    have hlt : s < 2 := hs.1
    interval_cases s <;> decide
  · have hcode : Reference.PrefixCode [1, 2, 3, 4, 5, 6, 7, 8, 9, 10, 10] := by decide
    rcases construct_cases [1, 2, 3, 4, 5, 6, 7, 8, 9, 10, 10] with ⟨-, h, hok, -⟩ | ⟨hno, -⟩
    · refine ⟨h, hok, fun hagrees => ?_⟩
      have hiff := construct_tableAgrees_iff _ h hok ⟨1, by decide, by decide⟩
      exact absurd (hiff.mp hagrees 8 (by decide)) (by decide)
    · exact absurd hcode hno

/-- A complete code whose nine-bit codes are 510 and 511: the table lacks both. -/
theorem construct_misses_long_codes :
    ∃ h, construct [1, 2, 3, 4, 5, 6, 7, 8, 9, 9] = .ok h ∧
      ¬TableAgrees [1, 2, 3, 4, 5, 6, 7, 8, 9, 9] h := by
  have hcode : Reference.PrefixCode [1, 2, 3, 4, 5, 6, 7, 8, 9, 9] := by decide
  rcases construct_cases [1, 2, 3, 4, 5, 6, 7, 8, 9, 9] with ⟨-, h, hok, himpl⟩ | ⟨hno, -⟩
  · refine ⟨h, hok, fun hagrees => ?_⟩
    have hentered := construct_entered hok ⟨1, by decide, by decide⟩
    have hclear := (hentered.tableAgrees_iff himpl).mp hagrees 8 (by decide)
    exact absurd hclear (by decide)
  · exact absurd hcode hno

end SafeInflate

end RustyRapidgzip
