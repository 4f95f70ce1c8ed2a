import RustyRapidgzip.Deflate.Huffman

/-!
# Huffman decoders read canonical codes

The table built from code lengths is compared with the canonical code of those
lengths. A lookup returns the entry of exactly the symbol that the bit-by-bit
decoder finds, and fails when that decoder finds none.
-/

namespace RustyRapidgzip

open LsbBits Canonical

namespace HuffmanDecoder

/-! ## Counting and sorting -/

/-- Counting succeeds on lengths up to 15 only, and counts them. -/
theorem countLengths_eq (msg : String) (lengths : List ℕ) (counts : ℕ → ℕ) :
    (∃ counts', countLengths msg lengths counts = .ok counts' ∧
      (∀ l ∈ lengths, l ≤ MAX_CODE_LEN) ∧ ∀ l, counts' l = counts l + lengths.count l) ∨
    (countLengths msg lengths counts = .error (.invalid msg) ∧
      ∃ l ∈ lengths, MAX_CODE_LEN < l) := by
  induction lengths generalizing counts with
  | nil => exact Or.inl ⟨counts, rfl, by simp, by simp⟩
  | cons l lengths ih =>
    by_cases hl : MAX_CODE_LEN < l
    · exact Or.inr ⟨by rw [countLengths, if_pos hl], l, List.mem_cons_self, hl⟩
    · rw [countLengths, if_neg hl]
      rcases ih (Function.update counts l (counts l + 1)) with
        ⟨counts', hok, hle, hcount⟩ | ⟨herr, k, hk, hlt⟩
      · refine Or.inl ⟨counts', hok, ?_, fun k => ?_⟩
        · simp only [List.mem_cons, forall_eq_or_imp]
          exact ⟨by omega, hle⟩
        · rw [hcount, List.count_cons, Function.update_apply]
          by_cases hkl : k = l
          · subst k
            simp
            omega
          · simp [hkl, Ne.symm hkl]
      · exact Or.inr ⟨herr, k, List.mem_cons_of_mem l hk, hlt⟩

/-- The share in use is what the codewords fill. -/
theorem kraftTotal_eq {lens : List ℕ} {counts : ℕ → ℕ}
    (hcounts : ∀ l, 0 < l → counts l = lens.count l) : kraftTotal counts = filled lens 15 := by
  simp only [kraftTotal, MAX_CODE_LEN, List.range', List.map, List.sum_cons, List.sum_nil,
    Nat.shiftLeft_eq, filled]
  simp only [Nat.reduceAdd, Nat.reduceSub, Nat.reducePow]
  rw [hcounts 1, hcounts 2, hcounts 3, hcounts 4, hcounts 5, hcounts 6, hcounts 7, hcounts 8,
    hcounts 9, hcounts 10, hcounts 11, hcounts 12, hcounts 13, hcounts 14, hcounts 15]
  all_goals omega

/-- A code of at most one symbol is never oversubscribed. -/
theorem kraftTotal_le {counts : ℕ → ℕ} (h : nSymbols counts < 2) :
    kraftTotal counts ≤ 1 <<< MAX_CODE_LEN := by
  simp only [nSymbols, MAX_CODE_LEN, List.range', List.map, List.sum_cons, List.sum_nil] at h
  simp only [kraftTotal, MAX_CODE_LEN, List.range', List.map, List.sum_cons, List.sum_nil,
    Nat.shiftLeft_eq]
  simp only [Nat.reduceAdd, Nat.reduceSub, Nat.reducePow] at h ⊢
  omega

/-- The buckets of different lengths are disjoint. -/
theorem bucketOffset_add_le (counts : ℕ → ℕ) {l k : ℕ} (hl : 0 < l) (hlk : l < k) :
    bucketOffset counts l + counts l ≤ bucketOffset counts k := by
  obtain ⟨l, rfl⟩ : ∃ m, l = m + 1 := ⟨l - 1, by omega⟩
  induction k, hlk using Nat.le_induction with
  | base => rfl
  | succ k hk ih =>
    obtain ⟨k, rfl⟩ : ∃ m, k = m + 1 := ⟨k - 1, by omega⟩
    rw [bucketOffset]
    omega

/-- The place of a used symbol in the sorted order. -/
def sortedIndex (counts : ℕ → ℕ) (lens : List ℕ) (s : ℕ) : ℕ :=
  bucketOffset counts (lens.getD s 0) + (lens.take s).count (lens.getD s 0)

/-- Different symbols have different places. -/
theorem sortedIndex_ne {counts : ℕ → ℕ} {lens : List ℕ}
    (hcounts : ∀ l, 0 < l → counts l = lens.count l) {s t : ℕ} (hst : s < t)
    (ht : t < lens.length) (hs0 : 0 < lens.getD s 0) (ht0 : 0 < lens.getD t 0) :
    sortedIndex counts lens s ≠ sortedIndex counts lens t := by
  have hs : s < lens.length := by omega
  have hslt := count_take_lt hs hs
  have htlt := count_take_lt ht ht
  rw [List.take_length] at hslt htlt
  unfold sortedIndex
  rcases Nat.lt_trichotomy (lens.getD s 0) (lens.getD t 0) with hlt | heq | hgt
  · have hle := bucketOffset_add_le counts hs0 hlt
    rw [hcounts _ hs0] at hle
    omega
  · have hlt := count_take_lt hs hst
    rw [heq] at hlt ⊢
    omega
  · have hle := bucketOffset_add_le counts ht0 hgt
    rw [hcounts _ ht0] at hle
    omega

/-- The counting sort puts every used symbol in its place. -/
theorem sortSyms_eq {counts : ℕ → ℕ} {lens : List ℕ}
    (hcounts : ∀ l, 0 < l → counts l = lens.count l) (suffix pre : List ℕ)
    (cursors sorted : ℕ → ℕ) (hlens : lens = pre ++ suffix)
    (hcursors : ∀ l, 0 < l → cursors l = bucketOffset counts l + pre.count l)
    (hsorted : ∀ s < pre.length, 0 < lens.getD s 0 → sorted (sortedIndex counts lens s) = s)
    {s : ℕ} (hs : s < lens.length) (hpos : 0 < lens.getD s 0) :
    sortSyms suffix pre.length cursors sorted (sortedIndex counts lens s) = s := by
  induction suffix generalizing pre cursors sorted with
  | nil =>
    rw [sortSyms]
    exact hsorted s (by simpa [hlens] using hs) hpos
  | cons l suffix ih =>
    have hlens' : lens = (pre ++ [l]) ++ suffix := by simp [hlens]
    have hget : lens.getD pre.length 0 = l := by simp [hlens]
    have htake : lens.take pre.length = pre := by simp [hlens]
    have hlt : pre.length < lens.length := by simp [hlens]
    have hsucc (t : ℕ) (ht : t < (pre ++ [l]).length) : t < pre.length ∨ t = pre.length := by
      rw [List.length_append, List.length_singleton] at ht
      omega
    have hlen : (pre ++ [l]).length = pre.length + 1 := by simp
    rw [sortSyms, ← hlen]
    by_cases hl : l ≠ 0
    · rw [if_pos hl]
      have hplace : cursors l = sortedIndex counts lens pre.length := by
        rw [hcursors l (by omega), sortedIndex, hget, htake]
      apply ih (pre ++ [l]) _ _ hlens'
      · intro k hk
        rw [Function.update_apply, List.count_append, List.count_singleton]
        by_cases hkl : k = l
        · subst k
          rw [if_pos rfl, hcursors l hk]
          simp
          omega
        · rw [if_neg hkl, hcursors k hk]
          simp [Ne.symm hkl]
      · intro t ht ht0
        rw [hplace, Function.update_apply]
        rcases hsucc t ht with hold | rfl
        · rw [if_neg (sortedIndex_ne hcounts hold hlt ht0 (by omega))]
          exact hsorted t hold ht0
        · rw [if_pos rfl]
    · rw [if_neg hl]
      apply ih (pre ++ [l]) _ _ hlens'
      · intro k hk
        rw [hcursors k hk, List.count_append, List.count_singleton]
        simp
        omega
      · intro t ht ht0
        rcases hsucc t ht with hold | rfl
        · exact hsorted t hold ht0
        · omega

/-! ## Filling the tables -/

/-- The strided fill stores the entry at every index it reaches. -/
theorem fillStride_apply (size entry stride rounds idx : ℕ) (lut : ℕ → ℕ) (j : ℕ) :
    fillStride size entry stride rounds idx lut j =
      if j < size ∧ ∃ k < rounds, j = idx + k * stride then entry else lut j := by
  induction rounds generalizing idx lut with
  | zero => simp [fillStride]
  | succ rounds ih =>
    rw [fillStride]
    by_cases hidx : idx < size
    · rw [if_pos hidx, ih, Function.update_apply]
      by_cases hj : j < size ∧ ∃ k < rounds, j = idx + stride + k * stride
      · obtain ⟨hlt, k, hk, rfl⟩ := hj
        rw [if_pos ⟨hlt, k, hk, rfl⟩, if_pos ⟨hlt, k + 1, by omega, by ring⟩]
      · rw [if_neg hj]
        by_cases hji : j = idx
        · rw [if_pos hji, if_pos ⟨by omega, 0, by omega, by omega⟩]
        · rw [if_neg hji, if_neg]
          rintro ⟨hlt, k, hk, rfl⟩
          cases k with
          | zero => exact hji (by ring)
          | succ k => exact hj ⟨hlt, k, by omega, by ring⟩
    · rw [if_neg hidx, if_neg]
      rintro ⟨hlt, k, -, rfl⟩
      omega

/-- A fill from a bit-reversed codeword covers the indices that start with it. -/
theorem fillStride_codeword (entry l rev : ℕ) (lut : ℕ → ℕ) {j : ℕ} (hrev : rev < 2 ^ l)
    (hj : j < LUT_SIZE) :
    fillStride LUT_SIZE entry (1 <<< l) LUT_SIZE rev lut j =
      if j % 2 ^ l = rev then entry else lut j := by
  rw [fillStride_apply, Nat.one_shiftLeft]
  by_cases hmod : j % 2 ^ l = rev
  · have hdiv := Nat.div_add_mod' j (2 ^ l)
    have hle : j / 2 ^ l ≤ j := Nat.div_le_self _ _
    rw [if_pos hmod, if_pos ⟨hj, j / 2 ^ l, by omega, by omega⟩]
  · rw [if_neg hmod, if_neg]
    rintro ⟨-, k, -, rfl⟩
    exact hmod (by rw [Nat.add_mul_mod_self_right, Nat.mod_eq_of_lt hrev])

/-- A window starts with a codeword exactly when its low digits are the reversed codeword. -/
theorem codeword_prefix_iff (lens : List ℕ) (s : ℕ) {bs : List Bool}
    (hlen : lens.getD s 0 ≤ bs.length) :
    codeword lens s <+: bs ↔ ofLsb bs % 2 ^ lens.getD s 0 = ofLsb (codeword lens s) := by
  rw [← ofLsb_take, List.prefix_iff_eq_take, codeword_length]
  refine ⟨fun h => by rw [← h], fun h => ofLsb_inj ?_ h.symm⟩
  rw [codeword_length, List.length_take_of_le hlen]

/-- What the tables hold once the listed symbols have been entered. -/
structure Emitted (lens : List ℕ) (encoding : Encoding) (emitted : List ℕ) (lut : ℕ → ℕ)
    (longCodes : List LongCode) : Prop where
  /-- An index that starts with a short codeword holds the entry of such a symbol;
  any other index is empty. -/
  short : ∀ bs : List Bool, bs.length = LUT_BITS →
    (∃ s ∈ emitted, lens.getD s 0 ≤ LUT_BITS ∧ codeword lens s <+: bs ∧
      lut (ofLsb bs) = encodeEntry s (lens.getD s 0) encoding) ∨
    ((∀ s ∈ emitted, lens.getD s 0 ≤ LUT_BITS → ¬codeword lens s <+: bs) ∧
      lut (ofLsb bs) = 0)
  /-- The long codes are listed in order. -/
  long : longCodes = (emitted.filter (fun s => LUT_BITS < lens.getD s 0)).map
    (fun s => ⟨ofLsb (codeword lens s), lens.getD s 0,
      encodeEntry s (lens.getD s 0) encoding⟩)

/-- An empty table has emitted no symbols. -/
theorem Emitted.nil (lens : List ℕ) (encoding : Encoding) :
    Emitted lens encoding [] (fun _ => 0) [] :=
  ⟨fun _ _ => Or.inr ⟨by simp, rfl⟩, rfl⟩

/-- Entering a short code. -/
theorem Emitted.addShort {lens : List ℕ} {encoding : Encoding} {emitted : List ℕ} {lut : ℕ → ℕ}
    {longCodes : List LongCode} (h : Emitted lens encoding emitted lut longCodes) {s : ℕ}
    (hs : lens.getD s 0 ≤ LUT_BITS) :
    Emitted lens encoding (emitted ++ [s])
      (fillStride LUT_SIZE (encodeEntry s (lens.getD s 0) encoding) (1 <<< lens.getD s 0)
        LUT_SIZE (ofLsb (codeword lens s)) lut) longCodes where
  short := by
    intro bs hbs
    have hidx : ofLsb bs < LUT_SIZE := by
      have := ofLsb_lt bs
      rwa [hbs] at this
    have hrev : ofLsb (codeword lens s) < 2 ^ lens.getD s 0 := by
      simpa using ofLsb_lt (codeword lens s)
    rw [fillStride_codeword _ _ _ _ hrev hidx]
    by_cases hmatch : codeword lens s <+: bs
    · rw [if_pos ((codeword_prefix_iff lens s (by omega)).mp hmatch)]
      exact Or.inl ⟨s, by simp, hs, hmatch, rfl⟩
    · rw [if_neg fun hmod => hmatch ((codeword_prefix_iff lens s (by omega)).mpr hmod)]
      rcases h.short bs hbs with ⟨t, ht, hold⟩ | ⟨hnone, hzero⟩
      · exact Or.inl ⟨t, List.mem_append_left _ ht, hold⟩
      · refine Or.inr ⟨fun t ht => ?_, hzero⟩
        rcases List.mem_append.mp ht with hold | hnew
        · exact hnone t hold
        · rw [List.mem_singleton.mp hnew]
          exact fun _ => hmatch
  long := by
    rw [List.filter_append, h.long, List.filter_cons_of_neg (by simpa using hs)]
    simp

/-- Entering a long code. -/
theorem Emitted.addLong {lens : List ℕ} {encoding : Encoding} {emitted : List ℕ} {lut : ℕ → ℕ}
    {longCodes : List LongCode} (h : Emitted lens encoding emitted lut longCodes) {s : ℕ}
    (hs : LUT_BITS < lens.getD s 0) :
    Emitted lens encoding (emitted ++ [s]) lut
      (longCodes ++ [⟨ofLsb (codeword lens s), lens.getD s 0,
        encodeEntry s (lens.getD s 0) encoding⟩]) where
  short := by
    intro bs hbs
    rcases h.short bs hbs with ⟨t, ht, hold⟩ | ⟨hnone, hzero⟩
    · exact Or.inl ⟨t, List.mem_append_left _ ht, hold⟩
    · refine Or.inr ⟨fun t ht => ?_, hzero⟩
      rcases List.mem_append.mp ht with hold | hnew
      · exact hnone t hold
      · rw [List.mem_singleton.mp hnew]
        intro hle
        omega
  long := by
    rw [List.filter_append, h.long, List.filter_cons_of_pos (by simpa using hs)]
    simp

/-- The reversed codewords of one length follow each other. -/
theorem nextRev_eq {l : ℕ} (hl : 0 < l) (c : ℕ) :
    nextRev l (ofLsb (msb l c)) = ofLsb (msb l (c + 1)) := by
  have hbit : 1 <<< (l - 1) = 2 ^ l / 2 := by
    obtain ⟨k, rfl⟩ : ∃ k, l = k + 1 := ⟨l - 1, by omega⟩
    rw [Nat.one_shiftLeft, Nat.add_sub_cancel, pow_succ]
    omega
  rw [nextRev, hbit, carry_msb]

/-- A codeword extended by a clear bit has the same reversed value. -/
theorem ofLsb_msb_double (l c : ℕ) : ofLsb (msb (l + 1) (2 * c)) = ofLsb (msb l c) := by
  have hzero : (2 * c).testBit 0 = false := by simp [Nat.testBit_zero]
  rw [msb_succ, hzero, ofLsb_append, Nat.mul_div_cancel_left c (by decide)]
  simp

/-- The symbols of each length from 1 to `l`, in codeword order. -/
def inCodeOrder (lens : List ℕ) (l : ℕ) : List ℕ := (List.range' 1 l).flatMap (ordered lens)

/-- The emission loops' variables: the first `i` symbols of length `l` have been
entered and the next codeword is the `c`-th of its length. -/
structure Emitting (lens : List ℕ) (encoding : Encoding) (counts : ℕ → ℕ) (l i c : ℕ)
    (st : BuildState) : Prop where
  emitted : Emitted lens encoding (inCodeOrder lens (l - 1) ++ (ordered lens l).take i)
    st.lut st.longCodes
  rev : st.rev = ofLsb (msb l (firstCode lens l + c))
  start : st.start = bucketOffset counts l

section Emission

variable {lens : List ℕ} {encoding : Encoding} {counts syms : ℕ → ℕ}

/-- The `i`-th symbol of a length has the `i`-th codeword of that length. -/
theorem codeword_ordered {l i : ℕ} (hi : i < (ordered lens l).length) :
    lens.getD (ordered lens l)[i] 0 = l ∧
      codeword lens (ordered lens l)[i] = msb l (firstCode lens l + i) := by
  have hlen := (mem_ordered.mp (List.getElem_mem hi)).2
  exact ⟨hlen, by rw [codeword, hlen, code_ordered hi]⟩

/-- The sorted order lists the symbols of a length in their order. -/
theorem sortSyms_ordered (hcounts : ∀ l, 0 < l → counts l = lens.count l) {l i : ℕ} (hl : 0 < l)
    (hi : i < (ordered lens l).length) :
    sortSyms lens 0 (bucketOffset counts) (fun _ => 0) (bucketOffset counts l + i) =
      (ordered lens l)[i] := by
  have hcode := code_ordered hi
  obtain ⟨hlt, hlen⟩ := mem_ordered.mp (List.getElem_mem hi)
  generalize (ordered lens l)[i] = s at hcode hlt hlen ⊢
  have hcount : (lens.take s).count l = i := by
    rw [code, hlen] at hcode
    omega
  have hsort := sortSyms_eq hcounts lens [] (bucketOffset counts) (fun _ => 0) rfl
    (by simp) (by simp) hlt (by omega)
  rwa [sortedIndex, hlen, hcount] at hsort

variable (hcounts : ∀ l, 0 < l → counts l = lens.count l)
  (hsyms : ∀ l i, 0 < l → ∀ hi : i < (ordered lens l).length,
    syms (bucketOffset counts l + i) = (ordered lens l)[i])

include hcounts hsyms

/-- One round of the inner loop enters one symbol. -/
theorem Emitting.emitSym {l i : ℕ} {st : BuildState} (hl : 0 < l)
    (h : Emitting lens encoding counts l i i st) (hi : i < counts l) :
    Emitting lens encoding counts l (i + 1) (if i + 1 < counts l then i + 1 else i)
      (emitSym encoding syms l (counts l) st i) := by
  have hi' : i < (ordered lens l).length := by rwa [ordered_length, ← hcounts l hl]
  obtain ⟨hlen, hword⟩ := codeword_ordered hi'
  have htake : inCodeOrder lens (l - 1) ++ (ordered lens l).take (i + 1) =
      inCodeOrder lens (l - 1) ++ (ordered lens l).take i ++ [(ordered lens l)[i]] := by
    rw [List.take_succ_eq_append_getElem hi', List.append_assoc]
  have hrev : st.rev = ofLsb (codeword lens (ordered lens l)[i]) := by rw [h.rev, hword]
  have hnext : nextRev l st.rev = ofLsb (msb l (firstCode lens l + (i + 1))) := by
    rw [h.rev, nextRev_eq hl, Nat.add_assoc]
  have hsym : syms (st.start + i) = (ordered lens l)[i] := by rw [h.start, hsyms l i hl hi']
  unfold HuffmanDecoder.emitSym
  rw [hsym]
  by_cases hshort : l ≤ LUT_BITS
  · have hadd := h.emitted.addShort (s := (ordered lens l)[i]) (by rwa [hlen])
    rw [hlen, ← hrev, ← htake] at hadd
    simp only [if_pos hshort]
    by_cases hlast : i + 1 < counts l
    · simp only [if_pos hlast]
      exact ⟨hadd, hnext, h.start⟩
    · simp only [if_neg hlast]
      exact ⟨hadd, h.rev, h.start⟩
  · have hadd := h.emitted.addLong (s := (ordered lens l)[i]) (by rw [hlen]; omega)
    rw [hlen, ← hrev, ← htake] at hadd
    simp only [if_neg hshort]
    by_cases hlast : i + 1 < counts l
    · simp only [if_pos hlast]
      exact ⟨hadd, hnext, h.start⟩
    · simp only [if_neg hlast]
      exact ⟨hadd, h.rev, h.start⟩

/-- The inner loop enters the symbols of its length in order. -/
theorem Emitting.emitSyms {l n : ℕ} {st : BuildState} (hl : 0 < l)
    (h : Emitting lens encoding counts l 0 0 st) (hn : n ≤ counts l) :
    Emitting lens encoding counts l n (min n (counts l - 1))
      ((List.range n).foldl (HuffmanDecoder.emitSym encoding syms l (counts l)) st) := by
  induction n with
  | zero => simpa using h
  | succ n ih =>
    have hprev := ih (by omega)
    rw [Nat.min_eq_left (by omega)] at hprev
    have hstep := hprev.emitSym hcounts hsyms hl (by omega)
    rw [List.range_succ, List.foldl_append]
    have hmin : (if n + 1 < counts l then n + 1 else n) = min (n + 1) (counts l - 1) := by
      split <;> omega
    rwa [← hmin]

/-- One round of the outer loop enters the symbols of one length. -/
theorem Emitting.emitLength {l : ℕ} {st : BuildState} (hl : 0 < l)
    (h : Emitting lens encoding counts l 0 0 st) :
    Emitting lens encoding counts (l + 1) 0 0 (emitLength encoding counts syms st l) := by
  have hall := h.emitSyms hcounts hsyms hl le_rfl
  have hfilled : firstCode lens l + counts l = filled lens l := by
    obtain ⟨k, rfl⟩ : ∃ k, l = k + 1 := ⟨l - 1, by omega⟩
    rw [firstCode, filled, hcounts _ hl, Nat.add_sub_cancel]
  have horder : inCodeOrder lens (l + 1 - 1) =
      inCodeOrder lens (l - 1) ++ (ordered lens l).take (counts l) := by
    obtain ⟨k, rfl⟩ : ∃ k, l = k + 1 := ⟨l - 1, by omega⟩
    rw [hcounts _ hl, ← ordered_length, List.take_length, Nat.add_sub_cancel, Nat.add_sub_cancel,
      inCodeOrder, inCodeOrder, List.range'_1_concat, List.flatMap_append, Nat.add_comm 1 k]
    simp
  refine ⟨?_, ?_, ?_⟩
  · rw [horder, List.take_zero, List.append_nil]
    exact hall.emitted
  · have hnext : firstCode lens (l + 1) + 0 = 2 * filled lens l := rfl
    rw [hnext, ofLsb_msb_double, ← hfilled]
    unfold HuffmanDecoder.emitLength
    by_cases hzero : 0 < counts l
    · simp only [if_pos hzero]
      rw [hall.rev, nextRev_eq hl]
      congr 2
      omega
    · simp only [if_neg hzero]
      rw [hall.rev]
      congr 2
      omega
  · obtain ⟨k, rfl⟩ : ∃ k, l = k + 1 := ⟨l - 1, by omega⟩
    unfold HuffmanDecoder.emitLength
    simp only [hall.start]
    rfl

/-- The outer loop enters all lengths. -/
theorem Emitting.emitLengths (encoding : Encoding) (n : ℕ) :
    Emitting lens encoding counts (n + 1) 0 0
      ((List.range' 1 n).foldl (HuffmanDecoder.emitLength encoding counts syms)
        ⟨fun _ => 0, [], 0, 0⟩) := by
  induction n with
  | zero =>
    refine ⟨?_, ?_, rfl⟩
    · simpa [inCodeOrder] using Emitted.nil lens encoding
    · simp [firstCode, filled, msb]
  | succ n ih =>
    rw [List.range'_1_concat, List.foldl_append, Nat.add_comm 1 n]
    exact ih.emitLength hcounts hsyms (by omega)

end Emission

/-- The decoder of a well-formed canonical code. -/
structure Implements (d : HuffmanDecoder) (lens : List ℕ) (encoding : Encoding) : Prop where
  lens_le : ∀ l ∈ lens, l ≤ MAX_CODE_LEN
  kraft : Kraft lens MAX_CODE_LEN
  emitted : Emitted lens encoding (inCodeOrder lens MAX_CODE_LEN) d.lut d.longCodes

/-- The lengths a decoder can be built from. -/
def Accepts (lens : List ℕ) : Prop :=
  (∀ l ∈ lens, l ≤ MAX_CODE_LEN) ∧ Kraft lens MAX_CODE_LEN

/-- Whether lengths are accepted can be decided. -/
instance (lens : List ℕ) : Decidable (Accepts lens) := inferInstanceAs (Decidable (_ ∧ _))

/-- Building succeeds only on a prefix code, and implements it. -/
theorem buildInto_inv {lens : List ℕ} {strict : Bool} {encoding : Encoding} {d : HuffmanDecoder}
    (h : buildInto lens strict encoding = .ok d) :
    Implements d lens encoding ∧ Accepts lens := by
  unfold buildInto blCount at h
  rcases countLengths_eq "huffman code length > 15" lens (fun _ => 0) with
    ⟨counts', hok, hle, hcount⟩ | ⟨herr, -⟩
  · have hcounts : ∀ l, 0 < l → Function.update counts' 0 0 l = lens.count l := by
      intro l hl
      rw [Function.update_apply, if_neg (by omega), hcount, Nat.zero_add]
    rw [hok] at h
    simp only at h
    generalize Function.update counts' 0 0 = counts at h hcounts
    split at h
    · cases h
    split at h
    · cases h
    next hover _ =>
    have hkraft : Kraft lens MAX_CODE_LEN := by
      have htotal : kraftTotal counts ≤ 1 <<< MAX_CODE_LEN := by
        by_cases hn : nSymbols counts < 2
        · exact kraftTotal_le hn
        · omega
      rwa [kraftTotal_eq hcounts] at htotal
    have hemit := Emitting.emitLengths hcounts
      (fun l i hl hi => sortSyms_ordered hcounts hl hi) encoding MAX_CODE_LEN
    cases h
    refine ⟨⟨hle, hkraft, ?_⟩, hle, hkraft⟩
    simpa using hemit.emitted
  · rw [herr] at h
    cases h

/-- Building succeeds on every prefix code. -/
theorem buildInto_ok {lens : List ℕ} (h : Accepts lens) (encoding : Encoding) :
    ∃ d, buildInto lens false encoding = .ok d := by
  unfold buildInto blCount
  rcases countLengths_eq "huffman code length > 15" lens (fun _ => 0) with
    ⟨counts', hok, -, hcount⟩ | ⟨-, l, hl, hlt⟩
  · have hcounts : ∀ l, 0 < l → Function.update counts' 0 0 l = lens.count l := by
      intro l hl
      rw [Function.update_apply, if_neg (by omega), hcount, Nat.zero_add]
    have hle : kraftTotal (Function.update counts' 0 0) ≤ 1 <<< MAX_CODE_LEN := by
      rw [kraftTotal_eq hcounts]
      exact h.2
    rw [hok]
    simp only
    rw [if_neg (by omega), if_neg (by simp)]
    exact ⟨_, rfl⟩
  · have := h.1 l hl
    omega

/-! ## Entries -/

/-- The code length is the low byte of an entry. -/
theorem encodeEntry_length {length : ℕ} (sym : ℕ) (encoding : Encoding) (h : length ≤ 15) :
    encodeEntry sym length encoding &&& 0xff = length := by
  have hlow (a : ℕ) : (a <<< 8 ||| length) &&& 0xff = length := by
    rw [← Nat.shiftLeft_add_eq_or_of_lt (by omega : length < 2 ^ 8), Nat.shiftLeft_eq,
      show (0xff : ℕ) = 2 ^ 8 - 1 from rfl, Nat.and_two_pow_sub_one_eq_mod]
    omega
  have hshift (a : ℕ) : a <<< 16 = (a <<< 8) <<< 8 := by rw [← Nat.shiftLeft_add]
  have hlit : HUFFDEC_LITERAL = (1 <<< 23) <<< 8 := rfl
  have hexc : HUFFDEC_EXCEPTIONAL = (1 <<< 7) <<< 8 := rfl
  unfold encodeEntry
  cases encoding with
  | simple =>
    simp only [hshift]
    exact hlow _
  | litLen =>
    simp only [hshift, hlit, hexc, ← Nat.shiftLeft_or_distrib]
    repeat' split
    all_goals exact hlow _
  | dist =>
    simp only [hshift, hexc, ← Nat.shiftLeft_or_distrib]
    split <;> exact hlow _

/-- A plain entry carries its symbol. -/
theorem encodeEntry_simple {length : ℕ} (sym : ℕ) (h : length ≤ 15) :
    encodeEntry sym length .simple >>> 16 = sym := by
  rw [encodeEntry, ← Nat.shiftLeft_add_eq_or_of_lt (by omega : length < 2 ^ 16),
    Nat.shiftLeft_eq, Nat.shiftRight_eq_div_pow]
  omega

/-! ## Lookups -/

/-- The symbols in the order of their codes are those in use. -/
theorem mem_inCodeOrder {lens : List ℕ} {n s : ℕ} :
    s ∈ inCodeOrder lens n ↔ s < lens.length ∧ 0 < lens.getD s 0 ∧ lens.getD s 0 ≤ n := by
  simp only [inCodeOrder, List.mem_flatMap, List.mem_range'_1, mem_ordered]
  constructor
  · rintro ⟨l, hl, hs, rfl⟩
    omega
  · rintro ⟨hs, hpos, hle⟩
    exact ⟨_, by omega, hs, rfl⟩

section Lookup

variable {d : HuffmanDecoder} {lens : List ℕ} {encoding : Encoding} {br : BitReader}
  {input : List UInt8} {p : ℕ}

/-- A codeword that fits a window starts the window when it starts the bits. -/
theorem take_prefix_of_length {s n : ℕ} {bs : List Bool} (hn : lens.getD s 0 ≤ n) :
    codeword lens s <+: bs.take n ↔ codeword lens s <+: bs ∧ lens.getD s 0 ≤ bs.length := by
  constructor
  · intro h
    have hbs := h.trans (List.take_prefix n bs)
    have hlen := hbs.length_le
    rw [codeword_length] at hlen
    exact ⟨hbs, hlen⟩
  · rintro ⟨⟨rest, rfl⟩, -⟩
    rw [List.take_append, List.take_of_length_le (by rwa [codeword_length])]
    exact List.prefix_append _ _

/-- A code bit by bit: the remaining bits start with a used symbol's codeword exactly
when the bit-by-bit decoder finds that symbol. -/
theorem Implements.decode_iff (h : Implements d lens encoding) {bs : List Bool} {s : ℕ} :
    (s ∈ inCodeOrder lens MAX_CODE_LEN ∧ codeword lens s <+: bs) ↔
      Canonical.decode lens MAX_CODE_LEN bs = some (s, bs.drop (lens.getD s 0)) := by
  constructor
  · rintro ⟨hs, rest, rfl⟩
    obtain ⟨hlt, hpos, hle⟩ := mem_inCodeOrder.mp hs
    rw [decode_codeword h.kraft rest hlt hpos hle,
      List.drop_left' (codeword_length lens s)]
  · intro hdec
    obtain ⟨hlt, hpos, hle, hbs⟩ := decode_some hdec
    exact ⟨mem_inCodeOrder.mpr ⟨hlt, hpos, hle⟩, _, hbs.symm⟩

/-- What a successful decode leaves. -/
theorem Implements.decode_rest {bs rest : List Bool} {s : ℕ}
    (hdec : Canonical.decode lens MAX_CODE_LEN bs = some (s, rest)) :
    rest = bs.drop (lens.getD s 0) := by
  obtain ⟨-, -, -, hbs⟩ := decode_some hdec
  rw [hbs, List.drop_left' (codeword_length lens s)]

/-- Ten bits index the entry of the symbol they start with, if its codeword fits. -/
theorem Implements.lut_cases (h : Implements d lens encoding) (bs : List Bool)
    (hbs : LUT_BITS ≤ bs.length) :
    (∃ s, Canonical.decode lens MAX_CODE_LEN bs = some (s, bs.drop (lens.getD s 0)) ∧
      lens.getD s 0 ≤ LUT_BITS ∧ 0 < lens.getD s 0 ∧
      d.lut (ofLsb (bs.take LUT_BITS)) = encodeEntry s (lens.getD s 0) encoding) ∨
    ((∀ s rest, Canonical.decode lens MAX_CODE_LEN bs = some (s, rest) →
      LUT_BITS < lens.getD s 0) ∧ d.lut (ofLsb (bs.take LUT_BITS)) = 0) := by
  rcases h.emitted.short (bs.take LUT_BITS) (by simp [hbs]) with
    ⟨s, hs, hle, hpre, hlut⟩ | ⟨hnone, hzero⟩
  · refine Or.inl ⟨s, h.decode_iff.mp ⟨hs, ?_⟩, hle, (mem_inCodeOrder.mp hs).2.1, hlut⟩
    exact hpre.trans (List.take_prefix _ _)
  · refine Or.inr ⟨fun s rest hdec => ?_, hzero⟩
    by_contra hle
    have hrest := Implements.decode_rest hdec
    subst hrest
    obtain ⟨hs, hpre⟩ := h.decode_iff.mpr hdec
    exact hnone s hs (by omega) ((take_prefix_of_length (by omega)).mpr ⟨hpre, by omega⟩)

/-- The scan of the long codes finds the long symbol the bits start with. -/
theorem Implements.find_longCodes (h : Implements d lens encoding) (bs : List Bool)
    (hbs : MAX_CODE_LEN ≤ bs.length)
    (hlong : ∀ s rest, Canonical.decode lens MAX_CODE_LEN bs = some (s, rest) →
      LUT_BITS < lens.getD s 0) :
    d.longCodes.find? (fun c =>
        ofLsb (bs.take MAX_CODE_LEN) &&& (1 <<< c.length - 1) == c.reversed) =
      (Canonical.decode lens MAX_CODE_LEN bs).map (fun r =>
        ⟨ofLsb (codeword lens r.1), lens.getD r.1 0,
          encodeEntry r.1 (lens.getD r.1 0) encoding⟩) := by
  have hmatch (s : ℕ) (hs : s ∈ inCodeOrder lens MAX_CODE_LEN) :
      (ofLsb (bs.take MAX_CODE_LEN) &&& (1 <<< lens.getD s 0 - 1) ==
        ofLsb (codeword lens s)) = true ↔ codeword lens s <+: bs := by
    have hle := (mem_inCodeOrder.mp hs).2.2
    rw [beq_iff_eq, Nat.one_shiftLeft, Nat.and_two_pow_sub_one_eq_mod,
      ← codeword_prefix_iff lens s (by rw [List.length_take_of_le hbs]; exact hle),
      take_prefix_of_length hle]
    exact and_iff_left (by omega)
  rw [h.emitted.long, List.find?_map]
  cases hdec : Canonical.decode lens MAX_CODE_LEN bs with
  | none =>
    rw [Option.map_none, Option.map_eq_none_iff, List.find?_eq_none]
    intro s hs htrue
    have hs' := List.mem_of_mem_filter hs
    rw [h.decode_iff.mp ⟨hs', (hmatch s hs').mp htrue⟩] at hdec
    cases hdec
  | some r =>
    obtain ⟨s, rest⟩ := r
    have hslong := hlong s rest hdec
    have hrest := Implements.decode_rest hdec
    subst hrest
    obtain ⟨hs, hpre⟩ := h.decode_iff.mpr hdec
    have hmem : s ∈ (inCodeOrder lens MAX_CODE_LEN).filter
        (fun s => LUT_BITS < lens.getD s 0) := List.mem_filter.mpr ⟨hs, by simpa using hslong⟩
    obtain ⟨t, ht⟩ : ∃ t, ((inCodeOrder lens MAX_CODE_LEN).filter
        (fun s => LUT_BITS < lens.getD s 0)).find? (fun s =>
          ofLsb (bs.take MAX_CODE_LEN) &&& (1 <<< lens.getD s 0 - 1) ==
            ofLsb (codeword lens s)) = some t := by
      rw [← Option.isSome_iff_exists, List.find?_isSome]
      exact ⟨s, hmem, (hmatch s hs).mpr hpre⟩
    have htmem := List.mem_of_mem_filter (List.mem_of_find?_eq_some ht)
    have hthit := List.find?_some (p := fun s => ofLsb (bs.take MAX_CODE_LEN) &&&
      (1 <<< lens.getD s 0 - 1) == ofLsb (codeword lens s)) ht
    have htpre := (hmatch t htmem).mp hthit
    have htdec := h.decode_iff.mp ⟨htmem, htpre⟩
    rw [hdec] at htdec
    cases htdec
    simp only [Function.comp_def, ht]
    rfl

/-- The result of looking a symbol up in a reader that holds its codeword. -/
def found (lens : List ℕ) (encoding : Encoding) (br : BitReader) :
    Option (ℕ × List Bool) → Except DeflateError (ℕ × BitReader)
  | some (s, _) =>
    .ok (encodeEntry s (lens.getD s 0) encoding, br.consume (lens.getD s 0))
  | none => .error (.invalid "no matching huffman code")

/-- With enough valid bits, peeking leaves the reader as it is. -/
theorem peek_of_le {n : ℕ} (hr : br.Reads input p) (hn : n ≤ br.bits) :
    br.peek n = .ok (peekAt input p n, br) := by
  simp only [BitReader.peek, BitReader.refill, if_pos hn, hr.peekBitsUnchecked_eq hn]

/-- The scan decodes the long codes. -/
theorem Implements.lookupLong_eq (h : Implements d lens encoding) (hr : br.Reads input p)
    (hbits : MAX_CODE_LEN ≤ br.bits)
    (hlong : ∀ s rest, Canonical.decode lens MAX_CODE_LEN ((bits input).drop p) = some (s, rest) →
      LUT_BITS < lens.getD s 0) :
    d.lookupLong br = found lens encoding br
      (Canonical.decode lens MAX_CODE_LEN ((bits input).drop p)) := by
  have hpos := hr.pos_le
  have hfind := h.find_longCodes ((bits input).drop p) (by simp; omega) hlong
  unfold lookupLong
  rw [peek_of_le hr hbits]
  simp only [peekAt]
  rw [hfind]
  cases Canonical.decode lens MAX_CODE_LEN ((bits input).drop p) with
  | none => rfl
  | some r => rfl

/-- A lookup in a reader that holds the longest codeword decodes one symbol. -/
theorem Implements.lookupFilled_eq (h : Implements d lens encoding) (hr : br.Reads input p)
    (hbits : MAX_CODE_LEN ≤ br.bits) :
    d.lookupFilled br = found lens encoding br
      (Canonical.decode lens MAX_CODE_LEN ((bits input).drop p)) := by
  have hpos := hr.pos_le
  have hlut : LUT_BITS ≤ MAX_CODE_LEN := by decide
  unfold lookupFilled
  rw [hr.peekBitsUnchecked_eq (by omega), peekAt]
  rcases h.lut_cases ((bits input).drop p) (by simp; omega) with
    ⟨s, hdec, hle, hpos, hentry⟩ | ⟨hlong, hzero⟩
  · simp only [hentry, encodeEntry_length s encoding (Nat.le_trans hle (by decide)), hdec, found,
      if_neg (by omega : ¬lens.getD s 0 = 0)]
  · rw [hzero]
    simp only [Nat.zero_and, if_true]
    exact h.lookupLong_eq hr hbits hlong

/-- A successful lookup decoded one symbol. -/
theorem Implements.lookup_inv (h : Implements d lens encoding) (hr : br.Reads input p)
    {entry : ℕ} {br' : BitReader} (hok : d.lookup br = .ok (entry, br')) :
    ∃ s, Canonical.decode lens MAX_CODE_LEN ((bits input).drop p) =
        some (s, (bits input).drop (p + lens.getD s 0)) ∧
      entry = encodeEntry s (lens.getD s 0) encoding ∧
      br'.Reads input (p + lens.getD s 0) ∧ br'.bits ≤ 63 := by
  have hword {br : BitReader} {p n : ℕ} (hr : br.Reads input p) (hn : 0 < n) :
      (br.consume n).bits ≤ 63 := by
    have := hr.acc.nbits_le
    rw [BitReader.consume_bits]
    omega
  unfold lookup at hok
  by_cases hroom : p + LUT_BITS ≤ 8 * input.length
  · obtain ⟨br₁, hpeek, hr₁, hbits₁, -⟩ := hr.peek_ok (by decide) hroom
    rw [hpeek] at hok
    simp only at hok
    rcases h.lut_cases ((bits input).drop p) (by simp; omega) with
      ⟨s, hdec, hle, hpos, hentry⟩ | ⟨hlong, hzero⟩
    · rw [peekAt, hentry, encodeEntry_length s encoding (Nat.le_trans hle (by decide)),
        if_neg (by omega)] at hok
      cases hok
      rw [List.drop_drop] at hdec
      exact ⟨s, hdec, rfl, hr₁.consume (by omega), hword hr₁ hpos⟩
    · rw [peekAt, hzero] at hok
      simp only [Nat.zero_and, if_true] at hok
      by_cases hroom' : p + MAX_CODE_LEN ≤ 8 * input.length
      · obtain ⟨br₂, hpeek₂, hr₂, hbits₂, -⟩ := hr₁.peek_ok (by decide) hroom'
        have heq := h.lookupLong_eq hr₂ hbits₂ hlong
        unfold lookupLong at hok heq
        rw [peek_of_le hr₂ hbits₂] at heq
        rw [hpeek₂] at hok
        simp only at hok heq
        rw [heq] at hok
        cases hdec : Canonical.decode lens MAX_CODE_LEN ((bits input).drop p) with
        | none =>
          rw [hdec] at hok
          cases hok
        | some r =>
          obtain ⟨s, rest⟩ := r
          rw [hdec] at hok
          cases hok
          have hrest := Implements.decode_rest hdec
          obtain ⟨-, hpos, hlen, -⟩ := decode_some hdec
          rw [List.drop_drop] at hrest
          exact ⟨s, by rw [hrest], rfl, hr₂.consume (by omega), hword hr₂ hpos⟩
      · unfold lookupLong at hok
        rw [hr₁.peek_eof (by decide) (by omega)] at hok
        cases hok
  · rw [hr.peek_eof (by decide) (by omega)] at hok
    cases hok

/-- A lookup succeeds on every codeword with 15 bits left to read. -/
theorem Implements.lookup_ok (h : Implements d lens encoding) (hr : br.Reads input p)
    (hroom : p + MAX_CODE_LEN ≤ 8 * input.length) {s : ℕ} {rest : List Bool}
    (hdec : Canonical.decode lens MAX_CODE_LEN ((bits input).drop p) = some (s, rest)) :
    ∃ br', d.lookup br = .ok (encodeEntry s (lens.getD s 0) encoding, br') := by
  have hlut : LUT_BITS ≤ MAX_CODE_LEN := by decide
  obtain ⟨br₁, hpeek, hr₁, hbits₁, -⟩ := hr.peek_ok (n := LUT_BITS) (by decide) (by omega)
  unfold lookup
  rw [hpeek]
  simp only
  rcases h.lut_cases ((bits input).drop p) (by simp; omega) with
    ⟨t, htdec, hle, hpos, hentry⟩ | ⟨hlong, hzero⟩
  · rw [hdec] at htdec
    cases htdec
    rw [peekAt, hentry, encodeEntry_length s encoding (Nat.le_trans hle (by decide)),
      if_neg (by omega)]
    exact ⟨_, rfl⟩
  · rw [peekAt, hzero]
    simp only [Nat.zero_and, if_true]
    obtain ⟨br₂, hpeek₂, hr₂, hbits₂, -⟩ := hr₁.peek_ok (by decide) hroom
    have heq := h.lookupLong_eq hr₂ hbits₂ hlong
    unfold lookupLong at heq ⊢
    rw [peek_of_le hr₂ hbits₂, hdec] at heq
    rw [hpeek₂]
    exact ⟨_, heq⟩

end Lookup

end HuffmanDecoder

end RustyRapidgzip
