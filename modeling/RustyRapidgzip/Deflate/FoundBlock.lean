import RustyRapidgzip.Deflate.Strict

/-!
# The room behind a found block

The finder parses the whole header of a block and decodes a symbol of it before it returns the
block's position. So a block is not found before its first bits are there: 48 of them are enough
for the decoders to read the block before it to its end.
-/

namespace RustyRapidgzip

open LsbBits Canonical

namespace Reference

variable {bs rest : List Bool} {total sym rounds : ℕ} {cl lens lens' : List ℕ}

/-- With the bit of its code, a code-length symbol adds at most 18 lengths a bit. -/
theorem addLengths_cost (h : addLengths total lens sym bs = some (lens', rest)) :
    lens'.length + 18 * rest.length ≤ lens.length + 18 * bs.length + 18 := by
  have hrepeated {n k v : ℕ} (hcost : 2 ^ n + k ≤ 18 * n + 19) (h : ((readBits n bs).bind fun r =>
      if lens.length + (r.1 + k) ≤ total then
        some (lens ++ List.replicate (r.1 + k) v, r.2)
      else none) = some (lens', rest)) :
      lens'.length + 18 * rest.length ≤ lens.length + 18 * bs.length + 18 := by
    obtain ⟨⟨m, mid⟩, hread, h⟩ := Option.bind_eq_some_iff.mp h
    have hlength := readBits_length hread
    have hlt := readBits_lt hread
    simp only [Option.ite_none_right_eq_some, Option.some.injEq, Prod.mk.injEq] at h
    obtain ⟨-, rfl, rfl⟩ := h
    rw [List.length_append, List.length_replicate]
    omega
  simp only [addLengths] at h
  split at h
  · cases h
    rw [List.length_append, List.length_singleton]
    omega
  split at h
  · obtain ⟨prev, -, h⟩ := Option.bind_eq_some_iff.mp h
    exact hrepeated (by decide) h
  split at h
  · exact hrepeated (by decide) h
  split at h
  · exact hrepeated (by decide) h
  · cases h

/-- A bit of code lengths makes 18 lengths at most. -/
theorem readLengths_cost (h : readLengths cl total rounds lens bs = some (lens', rest)) :
    lens'.length + 18 * rest.length ≤ lens.length + 18 * bs.length ∧ total ≤ lens'.length := by
  induction rounds generalizing lens bs with
  | zero => cases h
  | succ rounds ih =>
    rw [readLengths] at h
    split at h
    · obtain ⟨⟨sym, mid⟩, hdec, h⟩ := Option.bind_eq_some_iff.mp h
      obtain ⟨⟨lens₁, mid₁⟩, hadd, h⟩ := Option.bind_eq_some_iff.mp h
      have hlt := decode_length hdec
      have hcost := addLengths_cost hadd
      have hrest := ih h
      omega
    · cases h
      exact ⟨le_rfl, by omega⟩

/-- Each length of the length code takes three bits. -/
theorem readClLengths_cost {order : List ℕ} (h : readClLengths order lens bs = some (lens', rest)) :
    rest.length + 3 * order.length = bs.length := by
  induction order generalizing lens bs with
  | nil =>
    cases h
    rfl
  | cons i order ih =>
    rw [readClLengths] at h
    obtain ⟨⟨l, mid⟩, hread, hrest⟩ := Option.bind_eq_some_iff.mp h
    have hlength := readBits_length hread
    have hmore := ih hrest
    rw [List.length_cons]
    omega

/-- The code lengths of a dynamic block take 41 bits or more. -/
theorem readTrees_cost {codes : List ℕ × List ℕ} (h : readTrees bs = some (codes, rest)) :
    rest.length + 41 ≤ bs.length := by
  obtain ⟨⟨hlit, bs₁⟩, h₁, h⟩ := Option.bind_eq_some_iff.mp h
  obtain ⟨⟨hdist, bs₂⟩, h₂, h⟩ := Option.bind_eq_some_iff.mp h
  obtain ⟨⟨hclen, bs₃⟩, h₃, h⟩ := Option.bind_eq_some_iff.mp h
  simp only [Option.ite_none_right_eq_some] at h
  obtain ⟨-, h⟩ := h
  obtain ⟨⟨cl, bs₄⟩, h₄, h⟩ := Option.bind_eq_some_iff.mp h
  simp only [Option.ite_none_right_eq_some] at h
  obtain ⟨⟨lens, bs₅⟩, h₅, h⟩ := Option.bind_eq_some_iff.mp h.2
  simp only [Option.ite_none_right_eq_some, Option.some.injEq, Prod.mk.injEq] at h
  obtain ⟨-, -, rfl⟩ := h
  have h₁ := readBits_length h₁
  have h₂ := readBits_length h₂
  have h₃ := readBits_length h₃
  have h₄ := readClLengths_cost h₄
  have h₅ := readLengths_cost h₅
  have hnineteen : CODE_LENGTH_ORDER.length = 19 := rfl
  rw [List.length_take, hnineteen] at h₄
  rw [List.length_nil] at h₅
  omega

end Reference

open Reference

/-- A symbol is looked up among ten bits. -/
theorem BitReader.At.room_of_decode {d : HuffmanDecoder} {input : List UInt8} {bs : List Bool}
    {br br' : BitReader} {sym : ℕ} (hat : br.At input bs) (h : d.decode br = .ok (sym, br')) :
    10 ≤ bs.length := by
  obtain ⟨p, hr, rfl⟩ := hat.reads
  by_contra hshort
  have hpos := hr.pos_le
  rw [List.length_drop, bits_length] at hshort
  have hten : LUT_BITS = 10 := rfl
  have hpeek := hr.peek_eof (n := LUT_BITS) (by decide) (by omega)
  simp [HuffmanDecoder.decode, HuffmanDecoder.lookup, hpeek] at h

namespace BlockFinder

/-- The first bits of a found block are there. -/
theorem Block.room48 {data : List UInt8} {fromBit untilBit pos : ℕ}
    (h : Block data fromBit untilBit pos) : pos + 48 ≤ 8 * data.length := by
  have hverified := h.verified
  unfold verifyCandidate at hverified
  simp only at hverified
  obtain ⟨u, hparsed⟩ := isOk_iff.mp hverified
  simp only [bind_eq_ok, Prod.exists] at hparsed
  obtain ⟨br, hseek, v, br₁, hthree, lit, dist, br₂, hstrict, htrial⟩ := hparsed
  obtain ⟨hle, hat⟩ := BitReader.at_of_seekToBit hseek
  obtain ⟨_, bs₁, hread, -, hat₁⟩ := (hat.agrees_read (n := 3) (by decide)).sound _ _ hthree
  obtain ⟨⟨⟨trees, br₂'⟩, hlenient⟩, -⟩ :=
    (exists_readDynamicHeaderStrict_iff br₁).mp ⟨_, hstrict⟩
  obtain rfl : br₂ = br₂' := (sameTrees_of_ok hstrict hlenient).stop_eq
  obtain ⟨codes, bs₂, htrees, -, hat₂⟩ :=
    (agrees_readDynamicHeader hat₁).sound _ _ hlenient
  have hfirst : ∃ sym br₃, lit.decode br₂ = .ok (sym, br₃) := by
    rw [TRIAL_SYMBOLS, trialDecode] at htrial
    obtain ⟨⟨sym, br₃⟩, hdec, -⟩ := bind_eq_ok.mp htrial
    exact ⟨sym, br₃, hdec⟩
  obtain ⟨sym, br₃, hdec⟩ := hfirst
  have hten := hat₂.room_of_decode hdec
  have h₁ := readBits_length hread
  have h₂ := readTrees_cost htrees
  rw [List.length_drop, bits_length] at h₁
  omega

/-- Behind a found position the first bits of the block are there. -/
theorem room_findNextDynamicBlock {data : List UInt8} {fromBit untilBit pos : ℕ}
    (h : findNextDynamicBlock data fromBit untilBit = some pos) :
    pos + 48 ≤ 8 * data.length := by
  rcases findNextDynamicBlock_cases data fromBit untilBit with ⟨n, hsome, hblock, -⟩ | ⟨hnone, -⟩
  · rw [hsome] at h
    cases h
    exact hblock.room48
  · rw [hnone] at h
    cases h

end BlockFinder

end RustyRapidgzip
