import RustyRapidgzip.Deflate.Extend
import RustyRapidgzip.Deflate.Until

/-!
# The hand-off to the preload kernel

A first block of 64 KiB without a reference into the unknown history is decoded as cells, and
the next one by the preload kernel. What that kernel does depends on the reader only through
its position, so that a block fits behind the cells where it does behind a seek.
-/

namespace RustyRapidgzip

open LsbBits Reference HuffmanDecoder Lz Stop

/-! ## Readers at the same bit -/

namespace BitReader

variable {input : List UInt8} {br br' : BitReader}

/-- After a wide load the word shows 64 bits of the stream. -/
theorem testBit_refillWide {p i : ℕ} (h : br.Reads input p) (hi : i < 64) :
    br.refillWide.buf.testBit i = bitAt input (p + i) := by
  have htell := h.acc.tell
  have hload : br.refillWide.buf =
      br.buf ||| (loadLeU64 input br.bytePos <<< br.bits) % 2 ^ 64 := by
    rw [← h.input_eq]
    rfl
  rw [hload, Nat.testBit_or, Nat.testBit_mod_two_pow, Nat.testBit_shiftLeft]
  by_cases hvalid : i < br.bits
  · simp [h.acc.valid i hvalid, show ¬br.bits ≤ i by omega]
  · rw [testBit_loadLeU64 _ _ _ (by omega), show 8 * br.bytePos + (i - br.bits) = p + i by omega]
    simp only [hi, decide_true, Bool.true_and, show i ≥ br.bits by omega]
    cases hstale : br.buf.testBit i with
    | false => rfl
    | true => rw [h.acc.stale i hstale, Bool.or_self]

/-- The word has 64 bits. -/
theorem refillWide_buf_lt {p : ℕ} (h : br.Reads input p) : br.refillWide.buf < 2 ^ 64 :=
  Nat.or_lt_two_pow h.acc.buf_lt (Nat.mod_lt _ (by decide))

/-- Where the input goes on, a refill depends on the position only. -/
theorem InStep.refillKernel_eq (h : InStep 0 input input br br')
    (hroom : br.tellBit + 127 ≤ 8 * input.length) : br.refillKernel = br'.refillKernel := by
  obtain ⟨p, hr, hr'⟩ := h.pos
  obtain ⟨hle, hle'⟩ := h.bits_le
  have htell := hr.acc.tell
  have htell' := hr'.acc.tell
  rw [hr.tellBit_eq] at hroom
  obtain ⟨hbits, hadvance⟩ := wide_bits br.bits hle
  obtain ⟨hbits', hadvance'⟩ := wide_bits br'.bits hle'
  rw [refillKernel, refillKernel, hr.input_eq, hr'.input_eq, if_pos (by omega), if_pos (by omega)]
  have hbuf : br.refillWide.buf = br'.refillWide.buf := by
    apply Nat.eq_of_testBit_eq
    intro i
    by_cases hi : i < 64
    · rw [testBit_refillWide hr hi, testBit_refillWide hr' hi]
    · have hpow : 2 ^ 64 ≤ 2 ^ i := Nat.pow_le_pow_right (by decide) (by omega)
      rw [Nat.testBit_lt_two_pow (Nat.lt_of_lt_of_le (refillWide_buf_lt hr) hpow),
        Nat.testBit_lt_two_pow (Nat.lt_of_lt_of_le (refillWide_buf_lt hr') hpow)]
  have hpos : br.bytePos + (63 ^^^ br.bits) >>> 3 = br'.bytePos + (63 ^^^ br'.bits) >>> 3 := by
    rw [hadvance, hadvance']
    omega
  have hheld : br.bits ||| 56 = br'.bits ||| 56 := by
    rw [hbits, hbits']
    omega
  simp only [refillWide] at hbuf ⊢
  rw [hbuf, hpos, hheld, hr.input_eq, hr'.input_eq]

end BitReader

namespace PreloadRoom

/-- What a state's next step does, and its room, tell whether the run fits. -/
theorem NeverOverruns.congr {grow : Reserve} {copyN : ℕ} {lit dist : HuffmanDecoder} {s s' : State}
    (hloaded : s.loaded = s'.loaded) (hcur : s.cur = s'.cur) (hcap : s.cap = s'.cap)
    (hstep : step grow copyN lit dist s = step grow copyN lit dist s')
    (h : NeverOverruns grow copyN lit dist s) : NeverOverruns grow copyN lit dist s' := by
  intro t ht
  rcases ht.cases_head with rfl | ⟨next, hnext, hrest⟩
  · rw [← hloaded, ← hcur, ← hcap, ← hstep]
    exact h s .refl
  · exact h t (.head (by rw [hstep]; exact hnext) hrest)

end PreloadRoom

namespace Preload

open PreloadRoom

variable {build : Build} {input : List UInt8} {br br' br₁ : BitReader} {bfinal : ℕ}
  {lit dist : HuffmanDecoder}

/-- A header is the same one for readers at the same bit. -/
theorem Opens.exists_of_inStep (h : Opens br bfinal lit dist br₁)
    (hstep : BitReader.InStep 0 input input br br') :
    ∃ br₁', Opens br' bfinal lit dist br₁' ∧ BitReader.InStep 0 input input br₁ br₁' := by
  obtain ⟨brf, btype, brt, hfinal, htype, hstored, htrees⟩ := h.block
  have hread := hstep.read List.prefix_rfl (n := 1) (by decide) (by decide)
  rw [hfinal] at hread
  obtain ⟨⟨_, brf'⟩, hfinal', rfl, hstepf⟩ := hread
  have hread := hstepf.read List.prefix_rfl (n := 2) (by decide) (by decide)
  simp only at hread
  rw [htype] at hread
  obtain ⟨⟨_, brt'⟩, htype', rfl, hstept⟩ := hread
  have hread := settles_blockTrees btype List.prefix_rfl hstept
  simp only at hread
  rw [htrees] at hread
  obtain ⟨⟨_, br₁'⟩, htrees', -, rfl, hstep₁⟩ := hread
  exact ⟨br₁', ⟨brf', btype, brt', hfinal', htype', hstored, htrees'⟩, hstep₁⟩

/-- A block fits behind any reader at its bit, where the input goes on after its header. -/
theorem Opens.fits_of_inStep (h : Opens br bfinal lit dist br₁)
    (hstep : BitReader.InStep 0 input input br br') (hroom : br₁.tellBit + 127 ≤ 8 * input.length)
    (out : OutVec) : BlockFits build out br' ↔ NeverOverruns build.grow build.copyN lit dist
      (PreloadRoom.start build.grow out.bytes.length out.capacity br₁) := by
  obtain ⟨br₁', hopens', hstep₁⟩ := h.exists_of_inStep hstep
  obtain ⟨bs', hat'⟩ := hstep.symm.at
  have hsame : PreloadRoom.step build.grow build.copyN lit dist
      (PreloadRoom.start build.grow out.bytes.length out.capacity br₁') =
        PreloadRoom.step build.grow build.copyN lit dist
          (PreloadRoom.start build.grow out.bytes.length out.capacity br₁) := by
    simp only [PreloadRoom.start, PreloadRoom.step, hstep₁.refillKernel_eq hroom]
  rw [hopens'.fits_iff_neverOverruns hat']
  exact ⟨.congr rfl rfl rfl hsame, .congr rfl rfl rfl hsame.symm⟩

end Preload

namespace Speculative

/-- A first block of bytes fills the window and is followed by the hand-off. -/
theorem phase1_of_block {input : List UInt8} {br : BitReader} {bs mid : List Bool}
    {ts : List Token} {out : List UInt8} {endBitHint : ℕ} (scratch : ℕ → ℕ) (hat : br.At input bs)
    (hblock : Block 48 bs false ts mid) (hout : expand id [] ts = some out)
    (hfull : U16_HANDOFF_AT ≤ out.length) (hshort : out.length < U16_FLUSH_AT)
    (hhint : 8 * input.length < endBitHint) :
    ∃ w br', phase1 endBitHint ⟨scratch, 0, 0, ⟨[], []⟩⟩ br = .ok ((none, w), br') ∧
      w.extractAll = chunkOf (out.map UInt8.toNat) ∧ br'.At input mid := by
  have hbehind : (Window.mk scratch 0 0 ⟨[], []⟩).Behind markerPrefix :=
    ⟨[], by simp, Window.Holds.start _⟩
  have hcells : expand UInt8.toNat markerPrefix ts =
      some (markerPrefix ++ out.map UInt8.toNat) := by
    have hmap := map_expand UInt8.toNat id [] ts
    rw [hout, Option.map_some, List.map_nil] at hmap
    simpa using expand_append_left markerPrefix hmap.symm
  have hspec := blockFollows_decodeOneBlockU16 hbehind hat
  cases hdec : decodeOneBlockU16 ⟨scratch, 0, 0, ⟨[], []⟩⟩ br with
  | error e =>
    rw [hdec] at hspec
    exact absurd ⟨ts, hblock, hcells⟩ (hspec.2 false mid _)
  | ok r =>
    obtain ⟨⟨f, w⟩, br'⟩ := r
    rw [hdec] at hspec
    obtain ⟨f', rest, res, ⟨us, hblock', hres⟩, hf, ⟨cells, hcells', hholds⟩, hat'⟩ := hspec
    obtain ⟨rfl, rfl, rfl⟩ := hblock.unique hblock'
    rw [hcells, Option.some.injEq] at hres
    subst hres
    rw [List.append_cancel_left_eq] at hcells'
    subst hcells'
    obtain rfl : f = false := hf
    simp only at hholds hat'
    have hlen := hholds.length_eq
    rw [List.length_map] at hlen
    have hbase : w.windowBase = 0 := by
      rcases hholds.retained with hbase | ⟨-, hwide⟩
      · exact hbase
      · omega
    have hfree : markerFree w = true := by
      simp only [markerFree, Bool.and_eq_true, decide_eq_true_eq, List.all_eq_true,
        List.mem_range, beq_iff_eq]
      refine ⟨by omega, fun i hi => ?_⟩
      have hhandoff : U16_HANDOFF_AT = 2 * U16_WINDOW := rfl
      have hlive := hholds.live (w.cur - U16_WINDOW + i) (by omega)
      rw [hbase, Nat.zero_add, List.getElem?_map, List.getElem?_eq_getElem (by omega)] at hlive
      simp only [Option.map_some, Option.some.injEq] at hlive
      rw [← hlive]
      exact byte_cell (UInt8.toNat_lt _)
    have htell := hat'.tellBit
    refine ⟨w, br', ?_, hholds.extractAll, hat'⟩
    apply Loop.iterate_break
    simp only [phase1Round, hdec, Bool.false_eq_true, if_false, hfree, if_true]
    rw [if_neg (by omega)]

/-- After such a first block and a final one, the blocks fit where the loop of the final block
does, from a reader that seeks to it. -/
theorem untilFits_of_handOff {build : Build} {capacity endBitHint bfinal : ℕ}
    {input out res : List UInt8} {scratch : List ℕ} {mid rest : List Bool} {ts us : List Token}
    {br br₁ : BitReader} {lit dist : HuffmanDecoder} (hblock : Block 48 (bits input) false ts mid)
    (hout : expand id [] ts = some out) (hfull : U16_HANDOFF_AT ≤ out.length)
    (hshort : out.length < U16_FLUSH_AT) (hhint : 8 * input.length < endBitHint)
    (hfinal : Block 48 mid true us rest) (hres : expand id out us = some res)
    (hseek : (BitReader.new input).seekToBit (8 * input.length - mid.length) = .ok br)
    (hopens : Preload.Opens br bfinal lit dist br₁)
    (hroom : br₁.tellBit + 127 ≤ 8 * input.length) :
    UntilFits build capacity input 0 endBitHint (VecChunk.fresh 0) scratch ↔
      PreloadRoom.NeverOverruns build.grow build.copyN lit dist
        (PreloadRoom.start build.grow out.length (max out.length capacity) br₁) := by
  obtain ⟨w, br', hphase, hextract, hat'⟩ := phase1_of_block (prepareScratch scratch)
    (BitReader.new_at input) hblock hout hfull hshort hhint
  have hstart : (BitReader.new input).seekToBit 0 = .ok (BitReader.new input) := by
    simp [BitReader.seekToBit, BitReader.new]
  have hbytes : (VecChunk.ofChunk w.extractAll (max (VecChunk.fresh 0).bytes.capacity
      capacity)).bytes = OutVec.ofBytes out capacity := by
    rw [hextract, VecChunk.ofChunk, chunkOf, List.map_map,
      show narrow ∘ UInt8.toNat = id from funext narrow_toNat, List.map_id,
      show (VecChunk.fresh 0).bytes.capacity = 0 from rfl, Nat.zero_max]
  have hstep : BitReader.InStep 0 input input br br' := by
    obtain ⟨p, hr', rfl⟩ := hat'.reads
    have hpos := hr'.pos_le
    obtain ⟨br₂, hok, hr₂, hbits₂⟩ := BitReader.seekToBit_ok (BitReader.new input)
      (show 8 * input.length - ((bits input).drop p).length ≤ 8 * input.length from
        Nat.sub_le _ _)
    rw [hseek] at hok
    cases hok
    rw [List.length_drop, bits_length, show 8 * input.length - (8 * input.length - p) = p by
      omega] at hr₂
    exact ⟨⟨⟨p, hr₂, hr'⟩, Nat.zero_le _, Nat.zero_le _⟩, hbits₂, hat'.bits_le⟩
  have hiff : UntilFits build capacity input 0 endBitHint (VecChunk.fresh 0) scratch ↔
      Preload.BlocksFit build endBitHint (OutVec.ofBytes out capacity) br' := by
    constructor
    · intro h
      rw [← hbytes]
      exact h _ w br' hstart hphase
    · rintro h _ w₁ br₂ hstart' hphase'
      rw [hstart] at hstart'
      cases hstart'
      rw [show (VecChunk.fresh 0).unbounded = ⟨[], []⟩ from rfl, hphase] at hphase'
      cases hphase'
      rwa [hbytes]
  rw [hiff, @Preload.blocksFit_of_final _ _ _ _ (OutVec.ofBytes out capacity) _ _ _ endBitHint hat'
    hfinal hres]
  exact hopens.fits_of_inStep hstep hroom _

/-! ## A stream that overruns behind the hand-off -/

open Preload

/-- A copy of 179 bytes at distance 1. -/
def copyWord : List Bool × Token :=
  ([true, false, false, false, false, false, true, false], .copy 179 1)

/-- A first block of 66051 bytes, and a final one. -/
def handOffInput : List UInt8 :=
  [236, 192, 129, 9, 0, 0, 0, 131, 32, 255, 191, 122, 119, 4, 19] ++ List.replicate 128 0x77 ++
    [107, 7, 14, 76, 0, 0, 0, 24, 4, 249, 255, 213, 187, 35, 152, 238, 238, 238, 238, 238, 238,
      238, 130, 0, 0, 0, 0, 0, 0, 110, 0, 0, 0, 0, 0, 0, 0, 0]

/-- Three literals and 256 long copies. -/
def firstWords : List (List Bool × Token) :=
  List.replicate 3 zeroWord ++ List.replicate 256 longWord

/-- The word of the copy. -/
theorem isWord_copyWord :
    IsWord PreloadRoom.overrunLits nearDists copyWord.1 (some copyWord.2) :=
  isWord_of_short kraft_overrunLits kraft_nearDists (by decide +kernel)

/-- The first block is one of the format. -/
theorem handOffInput_block :
    Block 48 (bits handOffInput) false (firstWords.map Prod.snd)
      ((bits handOffInput).drop 1147) := by
  have hheader : readHeader (bits handOffInput) =
      some ((0, (PreloadRoom.overrunLits, nearDists)),
        (firstWords.map Prod.fst).flatten ++
          (endWord ++ (bits handOffInput).drop 1147)) := by
    decide +kernel
  refine block_of_header hheader (body_of_words ?_ isWord_endWord (by decide +kernel))
  intro w hw
  rw [firstWords, List.mem_append, List.mem_replicate, List.mem_replicate] at hw
  rcases hw with ⟨-, rfl⟩ | ⟨-, rfl⟩
  · exact isWord_zeroWord
  · exact isWord_longWord

/-- The first block expands to 66051 zeros. -/
theorem handOffInput_expand :
    expand id [] (firstWords.map Prod.snd) = some (List.replicate 66051 0) := by
  have huniform : ∀ t ∈ (List.replicate 2 zeroWord ++ List.replicate 256 longWord).map Prod.snd,
      Uniform 0 t := by
    intro t ht
    obtain ⟨w, hw, rfl⟩ := List.mem_map.mp ht
    rw [List.mem_append, List.mem_replicate, List.mem_replicate] at hw
    rcases hw with ⟨-, rfl⟩ | ⟨-, rfl⟩
    · exact Or.inl rfl
    · exact Or.inr ⟨258, rfl⟩
  rw [firstWords, List.replicate_succ, List.cons_append, List.map_cons]
  apply expand_lit_uniform huniform
  simp only [List.map_append, List.map_replicate, List.sum_append, List.sum_replicate_nat]
  rfl

/-- The second block is one of the format. -/
theorem handOffInput_final :
    Block 48 ((bits handOffInput).drop 1147) true ((overrunWords 1 copyWord).map Prod.snd)
      (List.replicate 64 false) := by
  have hheader : readHeader ((bits handOffInput).drop 1147) =
      some ((1, (PreloadRoom.overrunLits, nearDists)),
        ((overrunWords 1 copyWord).map Prod.fst).flatten ++
          (endWord ++ List.replicate 64 false)) := by
    decide +kernel
  exact block_of_header hheader (body_of_words
    (forall_mem_overrunWords isWord_zeroWord isWord_longWord isWord_copyWord) isWord_endWord
    (by decide))

/-- The stream has 181 bytes. -/
theorem handOffInput_length : handOffInput.length = 181 := by decide +kernel

/-- Behind the first block 301 bits are left. -/
theorem handOffInput_rest : ((bits handOffInput).drop 1147).length = 301 := by
  rw [List.length_drop, bits_length, handOffInput_length]

/-- Both blocks expand to 70149 zeros. -/
theorem handOffInput_expand_final :
    expand id (List.replicate 66051 0) ((overrunWords 1 copyWord).map Prod.snd) =
      some (List.replicate 70149 0) := by
  have huniform : ∀ t ∈ (overrunWords 1 copyWord).map Prod.snd, Uniform 0 t := by
    intro t ht
    obtain ⟨w, hw, rfl⟩ := List.mem_map.mp ht
    exact forall_mem_overrunWords (p := fun w => Uniform 0 w.2) (Or.inl rfl) (Or.inr ⟨258, rfl⟩)
      (Or.inr ⟨179, rfl⟩) w hw
  rw [expand_uniform huniform (by decide)]
  congr 2

/-- The two blocks, and the bytes they expand to. -/
theorem handOffInput_blocks :
    ∃ ts, Blocks 48 (stopAt handOffInput (2 ^ 40)) ((bits handOffInput).drop 0) true ts
      (List.replicate 64 false) ∧ expand id [] ts = some (List.replicate 70149 0) := by
  refine ⟨firstWords.map Prod.snd ++ (overrunWords 1 copyWord).map Prod.snd,
    .more handOffInput_block ?_ (.final handOffInput_final), ?_⟩
  · rw [stopAt, handOffInput_rest, handOffInput_length]
    decide
  · rw [expand_append, handOffInput_expand, Option.bind_some, handOffInput_expand_final]

/-- With room for 4096 bytes behind the cells the last copy is stored past the capacity. A
capacity of 71000 bytes is enough. -/
theorem handOffInput_run :
    withTreesAt (fun _ lit dist br =>
      decide (br.tellBit + 127 ≤ 8 * handOffInput.length) &&
      (((PreloadRoom.runSteps amortized 16 lit dist 80
          (PreloadRoom.start amortized 66051 70147 br)).map fun t =>
        (PreloadRoom.step amortized 16 lit dist t).1) == some [⟨69891, 258, 70147⟩] &&
      PreloadRoom.checkRun amortized 16 lit dist 100
        (PreloadRoom.start amortized 66051 71000 br))) handOffInput 1147 = true := by
  decide +kernel

/-- The blocks are valid. They do not fit where the vector has 70147 bytes at the hand-off, and
fit where it has 71000. -/
theorem handOffInput_cases (scratch : List ℕ) :
    FastInflate.decodeMemberU8 handOffInput 0 (2 ^ 40) [] =
        .ok ((1384, true), List.replicate 70149 0) ∧
      ¬UntilFits narrow16 70147 handOffInput 0 (2 ^ 40) (VecChunk.fresh 0) scratch ∧
      UntilFits narrow16 71000 handOffInput 0 (2 ^ 40) (VecChunk.fresh 0) scratch := by
  obtain ⟨br, hseek, _, lit, dist, br₁, hopens, hrun⟩ := exists_of_withTreesAt handOffInput_run
  rw [Bool.and_eq_true, Bool.and_eq_true, beq_iff_eq, decide_eq_true_eq] at hrun
  obtain ⟨hroom, hover, hcheck⟩ := hrun
  have hiff (capacity : ℕ) (hcap : 66051 ≤ capacity) :
      UntilFits narrow16 capacity handOffInput 0 (2 ^ 40) (VecChunk.fresh 0) scratch ↔
        PreloadRoom.NeverOverruns amortized 16 lit dist
          (PreloadRoom.start amortized 66051 capacity br₁) := by
    have h := @untilFits_of_handOff narrow16 capacity (2 ^ 40) _ _ _ _ scratch _ _ _ _ _ _ _ _
      handOffInput_block handOffInput_expand
      (by rw [List.length_replicate]; decide) (by rw [List.length_replicate]; decide)
      (by rw [handOffInput_length]; decide) handOffInput_final handOffInput_expand_final
      (by rw [handOffInput_rest, handOffInput_length]; exact hseek) hopens hroom
    rwa [List.length_replicate, Nat.max_eq_right hcap] at h
  refine ⟨?_, fun h => PreloadRoom.not_neverOverruns_of_runSteps hover (by decide)
    ((hiff 70147 (by decide)).mp h),
    (hiff 71000 (by decide)).mpr (PreloadRoom.neverOverruns_of_checkRun hcheck)⟩
  obtain ⟨ts, hblocks, hexpand⟩ := handOffInput_blocks
  have h := decodeMemberU8_of_blocks (Nat.zero_le _) hblocks hexpand
  rwa [handOffInput_length, List.length_replicate] at h

/-- The plain decoder returns 70149 bytes. The speculative one runs off its vector, whatever its
scratch window holds. -/
theorem handOffInput_overruns :
    FastInflate.decodeMemberU8 handOffInput 0 (2 ^ 40) [] =
        .ok ((1384, true), List.replicate 70149 0) ∧
      ∀ scratch, decodeUntilU16 narrow16 70147 handOffInput 0 (2 ^ 40) (VecChunk.fresh 0) scratch =
        .error .fault :=
  ⟨(handOffInput_cases []).1, fun scratch =>
    (decodeUntilU16_eq_fault_iff _ _ _ _ _).mpr (handOffInput_cases scratch).2.1⟩

/-- The same blocks, with a vector that is too small and with one that is large enough. -/
theorem decodeUntilU16_resolveMarkers_iff_handOffInput :
    ValidShort handOffInput 0 (2 ^ 40) [] ∧
    (¬UntilFits narrow16 70147 handOffInput 0 (2 ^ 40) (VecChunk.fresh 0) [] ∧
      decodeUntilU16 narrow16 70147 handOffInput 0 (2 ^ 40) (VecChunk.fresh 0) [] =
        .error .fault) ∧
    UntilFits narrow16 71000 handOffInput 0 (2 ^ 40) (VecChunk.fresh 0) [] ∧
      ∃ chunk, decodeUntilU16 narrow16 71000 handOffInput 0 (2 ^ 40) (VecChunk.fresh 0) [] =
          .ok ((1384, true), chunk) ∧
        resolveMarkers chunk.unbounded (lastWindow []) = .ok ⟨List.replicate 70149 0, []⟩ := by
  obtain ⟨hplain, hsmall, hlarge⟩ := handOffInput_cases []
  obtain ⟨hfault, -⟩ := decodeUntilU16_resolveMarkers_iff narrow16 70147 handOffInput 0 (2 ^ 40)
    [] []
  obtain ⟨-, hiff⟩ := decodeUntilU16_resolveMarkers_iff narrow16 71000 handOffInput 0 (2 ^ 40)
    [] []
  have hlength : (List.replicate 70149 (0 : UInt8)).length < 2 ^ 32 := by
    rw [List.length_replicate]
    decide
  obtain ⟨out, hout, hrun⟩ := (hiff.mpr fun _ => hlarge).1 1384 true _ hplain
  rw [List.nil_append] at hout
  subst hout
  exact ⟨(validShort_iff _ _ _ _).mpr ⟨1384, true, _, hplain, hlength⟩,
    ⟨hsmall, hfault.mpr hsmall⟩, hlarge, hrun hlength⟩

end Speculative

end RustyRapidgzip
