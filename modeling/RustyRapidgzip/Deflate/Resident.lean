import RustyRapidgzip.Deflate.BlockFinder

/-!
# The finder behind a prefix

A reader that starts at a whole byte does not see the bytes before it. So the finder finds in a
body what it finds in the rest of the body, once that starts at a whole byte: the dispatcher,
which has dropped the front of the body, cuts where a search of the whole body would.
-/

namespace RustyRapidgzip

open LsbBits

namespace BitReader

/-- The reader with more bytes in front of its input. -/
def behind (pre : List UInt8) (br : BitReader) : BitReader where
  input := pre ++ br.input
  bytePos := pre.length + br.bytePos
  buf := br.buf
  bits := br.bits

/-- With more bytes in front a step returns the same value, or the same error, and leaves the same
reader behind those bytes. -/
def Follows (pre : List UInt8) {α : Type} (step step' : Except DeflateError (α × BitReader)) :
    Prop :=
  step' = step.map fun r => (r.1, r.2.behind pre)

section Steps

variable {α β : Type} {pre : List UInt8} {step step' : Except DeflateError (α × BitReader)}

/-- The same value with the reader behind the bytes follows. -/
theorem Follows.ok (a : α) (br : BitReader) : Follows pre (.ok (a, br)) (.ok (a, br.behind pre)) :=
  rfl

/-- The same error follows. -/
theorem Follows.error (e : DeflateError) :
    Follows pre (.error e : Except DeflateError (α × BitReader)) (.error e) :=
  rfl

/-- One step after another. -/
theorem Follows.bind {f f' : α × BitReader → Except DeflateError (β × BitReader)}
    (h : Follows pre step step') (hf : ∀ a br, Follows pre (f (a, br)) (f' (a, br.behind pre))) :
    Follows pre (step >>= f) (step' >>= f') := by
  obtain rfl := h
  cases step with
  | error e => rfl
  | ok r => exact hf r.1 r.2

/-- A step, and then a computation that returns no reader. -/
theorem Follows.bind_eq {f f' : α × BitReader → Except DeflateError β}
    (h : Follows pre step step') (hf : ∀ a br, f' (a, br.behind pre) = f (a, br)) :
    (step' >>= f') = step >>= f := by
  obtain rfl := h
  cases step with
  | error e => rfl
  | ok r => exact hf r.1 r.2

/-- A computation that reads nothing comes before the step. -/
theorem Follows.bind_left {x : Except DeflateError β}
    {f f' : β → Except DeflateError (α × BitReader)} (hf : ∀ b, Follows pre (f b) (f' b)) :
    Follows pre (x >>= f) (x >>= f') := by
  cases x with
  | error e => rfl
  | ok b => exact hf b

end Steps

/-! ## The operations of the reader -/

section Operations

variable (pre : List UInt8) (br : BitReader)

/-- A load looks at the bytes from its place on. -/
theorem loadLeU64_behind (input : List UInt8) (pos : ℕ) :
    loadLeU64 (pre ++ input) (pre.length + pos) = loadLeU64 input pos := by
  rw [loadLeU64, loadLeU64, List.drop_append, List.drop_eq_nil_of_le (Nat.le_add_right _ _),
    List.nil_append, Nat.add_sub_cancel_left]

/-- Loading a byte behind the bytes loads the same one. -/
theorem pushByte_behind : (br.behind pre).pushByte = br.pushByte.behind pre := by
  have hbyte : (pre ++ br.input).getD (pre.length + br.bytePos) 0 =
      br.input.getD br.bytePos 0 := by
    rw [List.getD_append_right _ _ _ _ (Nat.le_add_right _ _), Nat.add_sub_cancel_left]
  simp only [pushByte, behind, hbyte, Nat.add_assoc]

/-- The fast refill behind the bytes loads the same word. -/
theorem refillFast_behind : (br.behind pre).refillFast = br.refillFast.behind pre := by
  simp only [refillFast, behind, loadLeU64_behind, Nat.add_assoc]

/-- The slow refill behind the bytes loads the same bytes. -/
theorem refillSlow_behind (rounds n : ℕ) :
    refillSlow rounds (br.behind pre) n =
      ((refillSlow rounds br n).1, (refillSlow rounds br n).2.behind pre) := by
  induction rounds generalizing br with
  | zero => rfl
  | succ rounds ih =>
    have hend : (br.behind pre).input.length ≤ (br.behind pre).bytePos ↔
        br.input.length ≤ br.bytePos := by
      rw [behind, List.length_append]
      exact Nat.add_le_add_iff_left
    rw [refillSlow, refillSlow]
    by_cases hbits : n ≤ br.bits
    · rw [if_pos hbits, if_pos (show n ≤ (br.behind pre).bits from hbits)]
    rw [if_neg hbits, if_neg (show ¬n ≤ (br.behind pre).bits from hbits)]
    by_cases hlast : br.input.length ≤ br.bytePos
    · rw [if_pos hlast, if_pos (hend.mpr hlast)]
    · rw [if_neg hlast, if_neg (fun h => hlast (hend.mp h)), pushByte_behind, ih]

/-- A refill behind the bytes takes the same way. -/
theorem refill_behind (n : ℕ) :
    (br.behind pre).refill n = ((br.refill n).1, (br.refill n).2.behind pre) := by
  have hfast : ((br.behind pre).bytePos + 8 ≤ (br.behind pre).input.length ∧
      (br.behind pre).bits ≤ 56) ↔ br.bytePos + 8 ≤ br.input.length ∧ br.bits ≤ 56 := by
    rw [behind, List.length_append]
    simp only
    omega
  unfold refill
  by_cases hbits : n ≤ br.bits
  · rw [if_pos hbits, if_pos (show n ≤ (br.behind pre).bits from hbits)]
  rw [if_neg hbits, if_neg (show ¬n ≤ (br.behind pre).bits from hbits)]
  by_cases hroom : br.bytePos + 8 ≤ br.input.length ∧ br.bits ≤ 56
  · rw [if_pos hroom, if_pos (hfast.mpr hroom), refillFast_behind]
  · rw [if_neg hroom, if_neg (fun h => hroom (hfast.mp h)), refillSlow_behind]

/-- A peek behind the bytes sees the same bits. -/
theorem peek_behind (n : ℕ) : Follows pre (br.peek n) ((br.behind pre).peek n) := by
  unfold peek
  rw [refill_behind]
  rcases br.refill n with ⟨enough, br'⟩
  cases enough <;> rfl

/-- A read behind the bytes returns the same bits. -/
theorem read_behind (n : ℕ) : Follows pre (br.read n) ((br.behind pre).read n) := by
  unfold read
  split
  · exact .ok 0 br
  · rw [refill_behind]
    rcases br.refill n with ⟨enough, br'⟩
    cases enough <;> rfl

/-- Seeking as much farther leads to the same place. -/
theorem seekToBit_behind (pos : ℕ) :
    (br.behind pre).seekToBit (8 * pre.length + pos) = (br.seekToBit pos).map (behind pre) := by
  have hdiv : (8 * pre.length + pos) / 8 = pre.length + pos / 8 := by omega
  have hmod : (8 * pre.length + pos) % 8 = pos % 8 := by omega
  have hend : (pre ++ br.input).length * 8 < 8 * pre.length + pos ↔ br.input.length * 8 < pos := by
    rw [List.length_append]
    omega
  have hrefill := refill_behind pre ⟨br.input, pos / 8, 0, 0⟩ (pos % 8)
  simp only [behind] at hrefill
  unfold seekToBit
  simp only [behind, hdiv, hmod, hend, hrefill]
  split
  · rfl
  split
  · rfl
  · rcases refill ⟨br.input, pos / 8, 0, 0⟩ (pos % 8) with ⟨enough, br'⟩
    cases enough <;> rfl

end Operations

end BitReader

open BitReader

/-! ## Symbols and headers -/

section Symbols

variable (pre : List UInt8) (br : BitReader)

/-- The scan of the long codes behind the bytes finds the same entry. -/
theorem HuffmanDecoder.lookupLong_behind (d : HuffmanDecoder) :
    Follows pre (d.lookupLong br) (d.lookupLong (br.behind pre)) := by
  have hpeek := peek_behind pre br MAX_CODE_LEN
  unfold lookupLong
  rw [hpeek]
  cases br.peek MAX_CODE_LEN with
  | error e => rfl
  | ok r =>
    simp only [Except.map]
    split <;> rfl

/-- Behind the bytes the same symbol is decoded. -/
theorem HuffmanDecoder.decode_behind (d : HuffmanDecoder) :
    Follows pre (d.decode br) (d.decode (br.behind pre)) := by
  have hlookup : Follows pre (d.lookup br) (d.lookup (br.behind pre)) := by
    have hpeek := peek_behind pre br LUT_BITS
    unfold lookup
    rw [hpeek]
    cases br.peek LUT_BITS with
    | error e => rfl
    | ok r =>
      simp only [Except.map]
      split
      · exact d.lookupLong_behind pre r.2
      · rfl
  unfold decode
  rw [hlookup]
  cases d.lookup br <;> rfl

/-- Behind the bytes the same lengths of the length code are read. -/
theorem readClDecoderLengths_behind (order clLengths : List ℕ) :
    Follows pre (readClDecoderLengths order clLengths br)
      (readClDecoderLengths order clLengths (br.behind pre)) := by
  induction order generalizing clLengths br with
  | nil => rfl
  | cons i order ih =>
    unfold readClDecoderLengths
    exact (read_behind pre br 3).bind fun l br => ih br (clLengths.set i l)

namespace BlockFinder

/-- Behind the bytes a code-length symbol writes the same lengths. -/
theorem writeLengthsStrict_behind (total : ℕ) (lengths : List ℕ) (sym : ℕ) :
    Follows pre (writeLengthsStrict total lengths sym br)
      (writeLengthsStrict total lengths sym (br.behind pre)) := by
  have hrepeat (n prev : ℕ) (e : DeflateError) (br : BitReader) :
      Follows pre
        (if total < lengths.length + n then .error e
          else .ok (lengths ++ List.replicate n prev, br))
        (if total < lengths.length + n then .error e
          else .ok (lengths ++ List.replicate n prev, br.behind pre)) := by
    split <;> rfl
  unfold writeLengthsStrict
  split
  · rfl
  split
  · cases lengths.getLast? with
    | none => rfl
    | some prev => exact (read_behind pre br 2).bind fun v br => hrepeat (v + 3) prev _ br
  split
  · exact (read_behind pre br 3).bind fun v br => hrepeat (v + 3) 0 _ br
  split
  · exact (read_behind pre br 7).bind fun v br => hrepeat (v + 11) 0 _ br
  · rfl

/-- Behind the bytes the same code lengths are read. -/
theorem readLengthsStrict_behind (cl : HuffmanDecoder) (total rounds : ℕ) (lengths : List ℕ) :
    Follows pre (readLengthsStrict cl total rounds lengths br)
      (readLengthsStrict cl total rounds lengths (br.behind pre)) := by
  induction rounds generalizing lengths br with
  | zero => rfl
  | succ rounds ih =>
    unfold readLengthsStrict
    split
    · refine (cl.decode_behind pre br).bind fun sym br => ?_
      exact (writeLengthsStrict_behind pre br total lengths sym).bind fun lengths br =>
        ih br lengths
    · rfl

/-- Behind the bytes the same header is parsed. -/
theorem readDynamicHeaderStrict_behind :
    Follows pre (readDynamicHeaderStrict br) (readDynamicHeaderStrict (br.behind pre)) := by
  unfold readDynamicHeaderStrict
  refine (read_behind pre br 5).bind fun hlit br => ?_
  refine (read_behind pre br 5).bind fun hdist br => ?_
  refine (read_behind pre br 4).bind fun hclen br => ?_
  simp only
  split
  · rfl
  refine (readClDecoderLengths_behind pre br _ _).bind fun clLengths br => ?_
  refine Follows.bind_left fun cl => ?_
  refine (readLengthsStrict_behind pre br cl _ _ _).bind fun lengths br => ?_
  simp only
  split
  · rfl
  refine Follows.bind_left fun lit => ?_
  exact Follows.bind_left fun dist => Follows.ok (lit, dist) br

/-- Behind the bytes as many extra bits are skipped. -/
theorem skipExtra_behind (extra : ℕ) :
    skipExtra extra (br.behind pre) = (skipExtra extra br).map (behind pre) := by
  have hread := read_behind pre br extra
  unfold skipExtra
  split
  · rw [hread]
    cases br.read extra <;> rfl
  · rfl

/-- Behind the bytes the trial ends in the same way. -/
theorem trialDecode_behind (lit dist : HuffmanDecoder) (nSymbols : ℕ) :
    trialDecode lit dist nSymbols (br.behind pre) = trialDecode lit dist nSymbols br := by
  induction nSymbols generalizing br with
  | zero => rfl
  | succ nSymbols ih =>
    have hskip (extra : ℕ) (f f' : BitReader → Except DeflateError Unit) (br : BitReader)
        (hf : ∀ br, f' (br.behind pre) = f br) :
        (skipExtra extra (br.behind pre) >>= f') = skipExtra extra br >>= f := by
      rw [skipExtra_behind]
      cases skipExtra extra br with
      | error e => rfl
      | ok br => exact hf br
    unfold trialDecode
    refine (lit.decode_behind pre br).bind_eq fun sym br => ?_
    simp only
    split
    · exact ih br
    split
    · rfl
    split
    · refine hskip _ _ _ br fun br => (dist.decode_behind pre br).bind_eq fun dsym br => ?_
      simp only
      split
      · rfl
      · exact hskip _ _ _ br fun br => ih br
    · rfl

end BlockFinder

end Symbols

/-! ## The finder -/

namespace BlockFinder

variable (pre data : List UInt8)

/-- A seek takes only the input over from the reader. -/
theorem seekToBit_append {probe probe' : BitReader} (hinput : probe'.input = pre ++ probe.input)
    (pos : ℕ) :
    probe'.seekToBit (8 * pre.length + pos) = (probe.seekToBit pos).map (behind pre) := by
  rw [← seekToBit_behind, seekToBit, seekToBit, hinput]
  rfl

/-- A candidate is verified from its own bits on. -/
theorem verifyCandidate_append (pos : ℕ) :
    verifyCandidate (.new (pre ++ data)) (8 * pre.length + pos) =
      verifyCandidate (.new data) pos := by
  have hseek := @seekToBit_append pre (.new data) (.new (pre ++ data)) rfl pos
  unfold verifyCandidate
  simp only [hseek]
  congr 1
  cases (BitReader.new data).seekToBit pos with
  | error e => rfl
  | ok br =>
    refine (read_behind pre br 3).bind_eq fun _ br => ?_
    exact (readDynamicHeaderStrict_behind pre br).bind_eq fun trees br =>
      trialDecode_behind pre br trees.1 trees.2 TRIAL_SYMBOLS

/-- The scan behind the bytes comes to the same positions. -/
theorem scan_append {probe probe' : BitReader} (hinput : probe'.input = pre ++ probe.input)
    (limit rounds pos : ℕ) :
    scan (.new (pre ++ data)) (8 * pre.length + limit) rounds probe' (8 * pre.length + pos) =
      (scan (.new data) limit rounds probe pos).map (8 * pre.length + ·) := by
  induction rounds generalizing probe probe' pos with
  | zero => rfl
  | succ rounds ih =>
    have hroom : 8 * pre.length + pos + LUT_BITS ≤ 8 * pre.length + limit ↔
        pos + LUT_BITS ≤ limit := by omega
    unfold scan
    simp only [hroom, seekToBit_append pre hinput, verifyCandidate_append]
    split
    swap
    · rfl
    cases probe.seekToBit pos with
    | error e => rfl
    | ok probe₁ =>
      have hpeek := peek_behind pre probe₁ LUT_BITS
      simp only [Except.map]
      rw [hpeek]
      cases probe₁.peek LUT_BITS with
      | error e => rfl
      | ok r =>
        simp only [Except.map, Nat.add_assoc]
        split_ifs
        · rfl
        · exact ih rfl (pos + 1)
        · exact ih rfl (pos + NEXT_LUT r.1)

/-- **Bytes in front of a body move what the finder finds**, and change nothing else. -/
theorem findNextDynamicBlock_append (fromBit untilBit : ℕ) :
    findNextDynamicBlock (pre ++ data) (8 * pre.length + fromBit) (8 * pre.length + untilBit) =
      (findNextDynamicBlock data fromBit untilBit).map (8 * pre.length + ·) := by
  have hlimit : min (8 * pre.length + untilBit) ((pre ++ data).length * 8) =
      8 * pre.length + min untilBit (data.length * 8) := by
    rw [List.length_append]
    omega
  have hrounds (limit : ℕ) :
      8 * pre.length + limit - (8 * pre.length + fromBit) = limit - fromBit := by omega
  have hempty (limit : ℕ) :
      8 * pre.length + limit ≤ 8 * pre.length + fromBit ↔ limit ≤ fromBit := by omega
  unfold findNextDynamicBlock
  simp only [hlimit, hempty, hrounds]
  split
  · rfl
  · exact scan_append pre data rfl _ _ _

/-- A dynamic block with one code, for the end of the block, and one distance. -/
def emptyBlock : List UInt8 := [4, 192, 129, 0, 0, 0, 0, 0, 16, 255, 213, 4, 0, 0, 0, 0]

/-- The block behind as many bytes as the shortest chunk has. -/
def blockBehindChunk : List UInt8 := List.replicate (64 * 1024) 0 ++ emptyBlock

/-- The chunk and the block have 65552 bytes. -/
theorem length_blockBehindChunk : blockBehindChunk.length = 65552 := by
  rw [blockBehindChunk, List.length_append, List.length_replicate]
  rfl

/-- The block is found right behind the chunk. -/
theorem findNextDynamicBlock_blockBehindChunk :
    findNextDynamicBlock blockBehindChunk 524288 524416 = some 524288 := by
  have hfound : findNextDynamicBlock emptyBlock 0 128 = some 0 := by decide +kernel
  have happend := findNextDynamicBlock_append (List.replicate (64 * 1024) 0) emptyBlock 0 128
  rw [hfound, List.length_replicate] at happend
  exact happend

end BlockFinder

end RustyRapidgzip
