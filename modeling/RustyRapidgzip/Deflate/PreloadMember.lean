import RustyRapidgzip.Deflate.FastInflate
import RustyRapidgzip.Deflate.PreloadFits
import RustyRapidgzip.Deflate.Words

/-!
# The preload decoder and the plain one

Over an unbounded output the preload decoder agrees with the plain one. Over a vector it does
where the blocks of the member fit; a valid member whose blocks do not fit is decoded by the
plain decoder, and runs off the vector of the preload decoder.
-/

namespace RustyRapidgzip

open LsbBits Reference HuffmanDecoder Lz Stop PreloadRoom

/-- The blocks from the bit position are valid, leave 48 bits, and expand behind the output. -/
def ValidMember (input : List UInt8) (startBit endBitHint : ℕ) (out : List UInt8) : Prop :=
  startBit ≤ 8 * input.length ∧ ∃ f ts rest res,
    Blocks 48 (stopAt input endBitHint) ((bits input).drop startBit) f ts rest ∧
      expand id out ts = some res

/-- The plain decoder returns a result for the valid members, and for no others. -/
theorem validMember_iff (input : List UInt8) (startBit endBitHint : ℕ) (out : List UInt8) :
    ValidMember input startBit endBitHint out ↔
      ∃ r, FastInflate.decodeMemberU8 input startBit endBitHint out = .ok r := by
  have hspec := memberSpec_memberWith FastInflate.decodesBlocks_decodeOneBlock input startBit
    endBitHint out
  rw [FastInflate.decodeMemberU8]
  revert hspec
  cases memberWith FastInflate.decodeOneBlock input startBit endBitHint out with
  | error e =>
    rintro ⟨-, hnone⟩
    refine ⟨?_, nofun⟩
    rintro ⟨hle, f, ts, rest, res, hblocks, hres⟩
    rw [hnone f ts rest hle hblocks] at hres
    cases hres
  | ok r =>
    obtain ⟨⟨e, f⟩, res⟩ := r
    rintro ⟨hle, ts, rest, hblocks, -, hres⟩
    exact ⟨fun _ => ⟨_, rfl⟩, fun _ => ⟨hle, f, ts, rest, res, hblocks, hres⟩⟩

/-- What the plain decoder returns for a valid member. -/
theorem decodeMemberU8_of_blocks {input : List UInt8} {startBit endBitHint : ℕ} {f : Bool}
    {ts : List Token} {rest : List Bool} {out res : List UInt8} (hle : startBit ≤ 8 * input.length)
    (hblocks : Blocks 48 (stopAt input endBitHint) ((bits input).drop startBit) f ts rest)
    (hres : expand id out ts = some res) :
    FastInflate.decodeMemberU8 input startBit endBitHint out =
      .ok ((8 * input.length - rest.length, f), res) := by
  have hspec := memberSpec_memberWith FastInflate.decodesBlocks_decodeOneBlock input startBit
    endBitHint out
  rw [FastInflate.decodeMemberU8]
  revert hspec
  cases memberWith FastInflate.decodeOneBlock input startBit endBitHint out with
  | error e =>
    rintro ⟨-, hnone⟩
    rw [hnone f ts rest hle hblocks] at hres
    cases hres
  | ok r =>
    obtain ⟨⟨e, f'⟩, res'⟩ := r
    rintro ⟨-, us, rest', hblocks', he, hres'⟩
    obtain ⟨rfl, rfl, rfl⟩ := hblocks.unique hblocks'
    rw [hres] at hres'
    cases hres'
    rw [← he, Nat.add_sub_cancel]

namespace Preload

variable {build : Build} {input : List UInt8} {startBit endBitHint e : ℕ} {f : Bool}
  {res : List UInt8}

/-- Over an unbounded output the preload decoder returns what the plain one returns. -/
theorem unbounded_of_decodeMemberU8 {out : List UInt8}
    (h : FastInflate.decodeMemberU8 input startBit endBitHint out = .ok ((e, f), res)) :
    Unbounded.decodeMemberU8Preload input startBit endBitHint out = .ok ((e, f), res) := by
  have hplain := memberSpec_memberWith FastInflate.decodesBlocks_decodeOneBlock input startBit
    endBitHint out
  have hpreload := memberSpec_memberWith Unbounded.decodesBlocks_decodeOneBlockPreload input
    startBit endBitHint out
  rw [show memberWith FastInflate.decodeOneBlock input startBit endBitHint out =
    .ok ((e, f), res) from h] at hplain
  exact hplain.transfer hpreload (Or.inl le_rfl)

/-- Conversely where eight bytes follow the end. -/
theorem decodeMemberU8_of_unbounded {out : List UInt8}
    (h : Unbounded.decodeMemberU8Preload input startBit endBitHint out = .ok ((e, f), res))
    (hroom : e + 64 ≤ 8 * input.length) :
    FastInflate.decodeMemberU8 input startBit endBitHint out = .ok ((e, f), res) := by
  have hplain := memberSpec_memberWith FastInflate.decodesBlocks_decodeOneBlock input startBit
    endBitHint out
  have hpreload := memberSpec_memberWith Unbounded.decodesBlocks_decodeOneBlockPreload input
    startBit endBitHint out
  rw [show memberWith Unbounded.decodeOneBlockPreload input startBit endBitHint out =
    .ok ((e, f), res) from h] at hpreload
  exact hpreload.transfer hplain (Or.inr (by omega))

/-- Where the blocks fit, the decoder returns what it returns over an unbounded output. -/
theorem exists_of_memberFits {out : OutVec}
    (hfits : MemberFits build input startBit endBitHint out)
    (h : Unbounded.decodeMemberU8Preload input startBit endBitHint out.bytes =
      .ok ((e, f), res)) :
    ∃ out', decodeMemberU8Preload build input startBit endBitHint out = .ok ((e, f), out') ∧
      out'.bytes = res := by
  have hne : decodeMemberU8Preload build input startBit endBitHint out ≠ .error .fault :=
    fun hfault => (decodeMemberU8Preload_eq_fault_iff input startBit endBitHint out).mp hfault hfits
  obtain ⟨⟨r, out'⟩, hok, heq⟩ :=
    (tracks_decodeMemberU8Preload input startBit endBitHint out).exists_ok hne h
  obtain ⟨rfl, rfl⟩ := Prod.mk.inj heq
  exact ⟨out', hok, rfl⟩

/-- The preload decoder runs off its vector exactly where some block does not fit, and agrees
with the plain one exactly where the blocks of a valid member fit. -/
theorem decodeMemberU8Preload_decodeMemberU8_iff (build : Build) (input : List UInt8)
    (startBit endBitHint : ℕ) (out : OutVec) :
    (decodeMemberU8Preload build input startBit endBitHint out = .error .fault ↔
      ¬MemberFits build input startBit endBitHint out) ∧
    ((∀ e f,
        (∀ res, FastInflate.decodeMemberU8 input startBit endBitHint out.bytes =
            .ok ((e, f), res) →
          ∃ out', decodeMemberU8Preload build input startBit endBitHint out =
            .ok ((e, f), out') ∧ out'.bytes = res) ∧
        (∀ out', decodeMemberU8Preload build input startBit endBitHint out =
            .ok ((e, f), out') → e + 64 ≤ 8 * input.length →
          FastInflate.decodeMemberU8 input startBit endBitHint out.bytes =
            .ok ((e, f), out'.bytes))) ↔
      (ValidMember input startBit endBitHint out.bytes →
        MemberFits build input startBit endBitHint out)) := by
  have hfault := @decodeMemberU8Preload_eq_fault_iff build input startBit endBitHint out
  refine ⟨hfault, ?_, ?_⟩
  · intro h hvalid
    obtain ⟨⟨⟨e, f⟩, res⟩, hok⟩ := (validMember_iff _ _ _ _).mp hvalid
    obtain ⟨out', hpreload, -⟩ := (h e f).1 res hok
    by_contra hover
    rw [hfault.mpr hover] at hpreload
    cases hpreload
  · intro hfits e f
    constructor
    · intro res hok
      exact exists_of_memberFits (hfits ((validMember_iff _ _ _ _).mpr ⟨_, hok⟩))
        (unbounded_of_decodeMemberU8 hok)
    · intro out' hok hroom
      exact decodeMemberU8_of_unbounded
        ((tracks_decodeMemberU8Preload input startBit endBitHint out).ok_eq hok) hroom

/-! ## Blocks -/

/-- The decoders of the block at the reader, and a Boolean of them and of what is behind its
header. -/
def withTrees (p : ℕ → HuffmanDecoder → HuffmanDecoder → BitReader → Bool) (br : BitReader) :
    Bool :=
  match br.read 1 with
  | .error _ => false
  | .ok (bfinal, br) =>
    match br.read 2 with
    | .error _ => false
    | .ok (btype, br) =>
      match blockTrees btype br with
      | .error _ => false
      | .ok ((lit, dist), br) => btype != 0 && p bfinal lit dist br

/-- The block at the reader is compressed, and has the decoders. -/
structure Opens (br : BitReader) (bfinal : ℕ) (lit dist : HuffmanDecoder) (br' : BitReader) :
    Prop where
  block : ∃ br₁ btype br₂, br.read 1 = .ok (bfinal, br₁) ∧ br₁.read 2 = .ok (btype, br₂) ∧
    btype ≠ 0 ∧ blockTrees btype br₂ = .ok ((lit, dist), br')

/-- What was checked with the codes of a block holds where the block opens. -/
theorem exists_of_withTrees {p : ℕ → HuffmanDecoder → HuffmanDecoder → BitReader → Bool}
    {br : BitReader} (h : withTrees p br = true) :
    ∃ bfinal lit dist br', Opens br bfinal lit dist br' ∧ p bfinal lit dist br' = true := by
  unfold withTrees at h
  split at h
  · cases h
  next bfinal br₁ hfinal =>
  split at h
  · cases h
  next btype br₂ htype =>
  split at h
  · cases h
  next lit dist br₃ htrees =>
  rw [Bool.and_eq_true, bne_iff_ne] at h
  exact ⟨bfinal, lit, dist, br₃, ⟨br₁, btype, br₂, hfinal, htype, h.1, htrees⟩, h.2⟩

/-- A Boolean of the decoders of the block at a bit of the input. -/
def withTreesAt (p : ℕ → HuffmanDecoder → HuffmanDecoder → BitReader → Bool)
    (input : List UInt8) (pos : ℕ) : Bool :=
  match (BitReader.new input).seekToBit pos with
  | .error _ => false
  | .ok br => withTrees p br

/-- What was checked at a position holds where the block opens there. -/
theorem exists_of_withTreesAt {p : ℕ → HuffmanDecoder → HuffmanDecoder → BitReader → Bool}
    {pos : ℕ} (h : withTreesAt p input pos = true) :
    ∃ br, (BitReader.new input).seekToBit pos = .ok br ∧
      ∃ bfinal lit dist br', Opens br bfinal lit dist br' ∧ p bfinal lit dist br' = true := by
  unfold withTreesAt at h
  split at h
  · cases h
  next br hseek => exact ⟨br, hseek, exists_of_withTrees h⟩

section Block

variable {bfinal : ℕ} {lit dist : HuffmanDecoder} {br br' : BitReader} {bs : List Bool}

/-- A coded block fits exactly where its long runs do. -/
theorem Opens.fits_iff (h : Opens br bfinal lit dist br') (out : OutVec) :
    BlockFits build out br ↔ LongRunsFit build.grow build.copyN lit dist
      (PreloadRoom.start build.grow out.bytes.length out.capacity br') := by
  obtain ⟨br₁, btype, br₂, hfinal, htype, hstored, htrees⟩ := h.block
  constructor
  · exact fun hfits => hfits _ _ _ _ _ _ _ hfinal htype hstored htrees
  · rintro hfits _ _ _ _ _ _ _ hfinal' htype' - htrees'
    rw [hfinal] at hfinal'
    cases hfinal'
    rw [htype] at htype'
    cases htype'
    rw [htrees] at htrees'
    cases htrees'
    exact hfits

/-- A block fits where its loop never overruns. -/
theorem Opens.fits_iff_neverOverruns (h : Opens br bfinal lit dist br') (hat : br.At input bs)
    (out : OutVec) :
    BlockFits build out br ↔ NeverOverruns build.grow build.copyN lit dist
      (PreloadRoom.start build.grow out.bytes.length out.capacity br') := by
  rw [h.fits_iff]
  obtain ⟨br₁, btype, br₂, hfinal, htype, -, htrees⟩ := h.block
  obtain ⟨_, bs₁, -, -, hat₁⟩ := (hat.agrees_read (by decide)).sound _ _ hfinal
  obtain ⟨_, bs₂, -, -, hat₂⟩ := (hat₁.agrees_read (by decide)).sound _ _ htype
  obtain ⟨⟨lits, dists⟩, bs₃, hcodes, ⟨hlit, hdist⟩, hat₃⟩ :=
    (agrees_blockTrees btype hat₂).sound (lit, dist) br' htrees
  exact ⟨neverOverruns_of_longRunsFit build.copyN_eq (readCodes_inv hcodes).2.2.2 hlit hdist rfl
    (start_reads hat₃ _ _) (start_room _ 1 out.fits br'), longRunsFit_of_neverOverruns⟩

/-- Over an unbounded output a valid block is decoded. -/
theorem exists_unboundedBlock {f : Bool} {ts : List Token} {rest : List Bool}
    {out res : List UInt8} (hat : br.At input bs) (hblock : Block 48 bs f ts rest)
    (hres : expand id out ts = some res) :
    ∃ br', Unbounded.decodeOneBlockPreload out br = .ok ((f, res), br') ∧ br'.At input rest := by
  have hspec := Unbounded.decodesBlocks_decodeOneBlockPreload input out br bs hat
  cases hdec : Unbounded.decodeOneBlockPreload out br with
  | error e =>
    rw [hdec] at hspec
    exact absurd ⟨ts, hblock, hres⟩ (hspec.2 f rest res)
  | ok r =>
    obtain ⟨⟨f', res'⟩, br'⟩ := r
    rw [hdec] at hspec
    obtain ⟨rest', ⟨us, hblock', hres'⟩, hat'⟩ := hspec
    obtain ⟨rfl, rfl, rfl⟩ := hblock.unique hblock'
    rw [hres] at hres'
    cases hres'
    exact ⟨br', rfl, hat'⟩

end Block

/-! ## A member that overruns -/

/-- A final block is the only one. -/
theorem blocksFit_of_final {br : BitReader} {bs : List Bool} {out : OutVec} {ts : List Token}
    {rest : List Bool} {res : List UInt8} (endBitHint : ℕ) (hat : br.At input bs)
    (hblock : Block 48 bs true ts rest) (hres : expand id out.bytes ts = some res) :
    BlocksFit build endBitHint out br ↔ BlockFits build out br := by
  obtain ⟨br', hdec, -⟩ := exists_unboundedBlock hat hblock hres
  constructor
  · exact fun hfits => hfits _ .refl
  · intro hfits t hcomes
    rcases hcomes.cases_head with rfl | ⟨t', hnext, -⟩
    · exact hfits
    · have hround := (tracks_blocksRound endBitHint (out, br)).ok_eq hnext
      rw [RustyRapidgzip.blocksRound, show (unbounded (out, br)).1 = out.bytes from rfl,
        show (unbounded (out, br)).2 = br from rfl, hdec] at hround
      cases hround

/-- A member of one block fits where its block does. -/
theorem memberFits_of_final {br : BitReader} {startBit : ℕ} {out : OutVec} {ts : List Token}
    {rest : List Bool} {res : List UInt8} (endBitHint : ℕ)
    (hseek : (BitReader.new input).seekToBit startBit = .ok br)
    (hblock : Block 48 ((bits input).drop startBit) true ts rest)
    (hres : expand id out.bytes ts = some res) :
    MemberFits build input startBit endBitHint out ↔ BlockFits build out br := by
  rw [← blocksFit_of_final endBitHint (BitReader.at_of_seekToBit hseek).2 hblock hres]
  constructor
  · exact fun hfits => hfits _ hseek
  · intro hfits br' hseek'
    rw [hseek] at hseek'
    cases hseek'
    exact hfits

/-- One code, for the distance 1. -/
def nearDists : List ℕ := [1]

/-- One bit for the literal 0. -/
def zeroWord : List Bool × Token := ([false], .lit 0)

/-- A copy of 258 bytes at distance 1. -/
def longWord : List Bool × Token := ([true, true, true, false], .copy 258 1)

/-- The end of a block. -/
def endWord : List Bool := [true, true, false]

/-- The literal code is a prefix code. -/
theorem kraft_overrunLits : Canonical.Kraft overrunLits 15 := by decide +kernel

/-- The distance code is a prefix code. -/
theorem kraft_nearDists : Canonical.Kraft nearDists 15 := by decide +kernel

/-- The word of the literal. -/
theorem isWord_zeroWord : IsWord overrunLits nearDists zeroWord.1 (some zeroWord.2) :=
  isWord_of_short kraft_overrunLits kraft_nearDists (by decide +kernel)

/-- The word of the long copy. -/
theorem isWord_longWord : IsWord overrunLits nearDists longWord.1 (some longWord.2) :=
  isWord_of_short kraft_overrunLits kraft_nearDists (by decide +kernel)

/-- The word of the end. -/
theorem isWord_endWord : IsWord overrunLits nearDists endWord none :=
  isWord_of_short kraft_overrunLits kraft_nearDists (by decide +kernel)

/-- Some literals, fourteen long copies and a shorter one, then 48 literals of one bit and a
long copy. -/
def overrunWords (k : ℕ) (shorter : List Bool × Token) : List (List Bool × Token) :=
  List.replicate k zeroWord ++ List.replicate 14 longWord ++ [shorter] ++
    List.replicate 48 zeroWord ++ [longWord]

/-- What holds of the three words holds of the whole block. -/
theorem forall_mem_overrunWords {p : List Bool × Token → Prop} {k : ℕ}
    {shorter : List Bool × Token} (hzero : p zeroWord) (hlong : p longWord)
    (hshorter : p shorter) : ∀ w ∈ overrunWords k shorter, p w := by
  intro w hw
  simp only [overrunWords, List.mem_append, List.mem_replicate, List.mem_singleton] at hw
  rcases hw with (((⟨-, rfl⟩ | ⟨-, rfl⟩) | rfl) | ⟨-, rfl⟩) | rfl <;> assumption

/-- A final block of such words: the copies leave 304 bytes of the first 4096. -/
def overrunMember : List UInt8 :=
  [237, 192, 129, 9, 0, 0, 0, 131, 32, 255, 191, 122, 119, 4, 19, 238, 238, 238, 238, 238, 238,
    238, 106, 0, 0, 0, 0, 0, 0, 110, 0, 0, 0, 0, 0, 0, 0, 0]

/-- A copy of 176 bytes at distance 1. -/
def shortWord : List Bool × Token :=
  ([true, false, true, false, true, true, false, false], .copy 176 1)

/-- The word of the shorter copy. -/
theorem isWord_shortWord : IsWord overrunLits nearDists shortWord.1 (some shortWord.2) :=
  isWord_of_short kraft_overrunLits kraft_nearDists (by decide +kernel)

/-- The member is one block of these words. -/
theorem overrunMember_block :
    Block 48 (bits overrunMember) true ((overrunWords 4 shortWord).map Prod.snd)
      (List.replicate 64 false) := by
  have hheader : readHeader (bits overrunMember) = some ((1, (overrunLits, nearDists)),
      ((overrunWords 4 shortWord).map Prod.fst).flatten ++
        (endWord ++ List.replicate 64 false)) := by
    decide +kernel
  exact block_of_header hheader (body_of_words
    (forall_mem_overrunWords isWord_zeroWord isWord_longWord isWord_shortWord) isWord_endWord
    (by decide))

/-- The words expand to 4098 zeros. -/
theorem overrunMember_expand :
    expand id [] ((overrunWords 4 shortWord).map Prod.snd) = some (List.replicate 4098 0) := by
  have huniform : ∀ t ∈ (overrunWords 3 shortWord).map Prod.snd, Uniform 0 t := by
    intro t ht
    obtain ⟨w, hw, rfl⟩ := List.mem_map.mp ht
    exact forall_mem_overrunWords (p := fun w => Uniform 0 w.2) (Or.inl rfl) (Or.inr ⟨258, rfl⟩)
      (Or.inr ⟨176, rfl⟩) w hw
  exact expand_lit_uniform huniform (by decide +kernel)

/-- The last copy is stored from 3840, past a capacity of 4096. A capacity of 5000 is enough. -/
theorem overrunMember_run :
    withTrees (fun _ lit dist br =>
      ((runSteps amortized 16 lit dist 83 (PreloadRoom.start amortized 0 0 br)).map fun t =>
        (PreloadRoom.step amortized 16 lit dist t).1) == some [⟨3840, 258, 4096⟩] &&
      checkRun amortized 16 lit dist 100 (PreloadRoom.start amortized 0 5000 br))
      (BitReader.new overrunMember) = true := by
  decide +kernel

/-- The member is valid. It does not fit in an empty vector, and fits in one of 5000 bytes. -/
theorem overrunMember_cases (endBitHint : ℕ) :
    FastInflate.decodeMemberU8 overrunMember 0 endBitHint [] =
        .ok ((240, true), List.replicate 4098 0) ∧
      ¬MemberFits narrow16 overrunMember 0 endBitHint (OutVec.ofBytes [] 0) ∧
      MemberFits narrow16 overrunMember 0 endBitHint (OutVec.ofBytes [] 5000) := by
  have hseek : (BitReader.new overrunMember).seekToBit 0 = .ok (BitReader.new overrunMember) := by
    simp [BitReader.seekToBit, BitReader.new]
  obtain ⟨_, lit, dist, br, hopens, hrun⟩ := exists_of_withTrees overrunMember_run
  rw [Bool.and_eq_true, beq_iff_eq] at hrun
  have hiff (capacity : ℕ) :
      MemberFits narrow16 overrunMember 0 endBitHint (OutVec.ofBytes [] capacity) ↔
        NeverOverruns amortized 16 lit dist (PreloadRoom.start amortized 0 capacity br) := by
    have h := (@memberFits_of_final narrow16 _ _ _ (OutVec.ofBytes [] capacity) _ _ _
      endBitHint hseek overrunMember_block overrunMember_expand).trans
        (hopens.fits_iff_neverOverruns (BitReader.new_at overrunMember) _)
    rwa [show (OutVec.ofBytes [] capacity).capacity = capacity from Nat.zero_max capacity] at h
  exact ⟨decodeMemberU8_of_blocks (Nat.zero_le _) (.final overrunMember_block)
    overrunMember_expand, fun h => not_neverOverruns_of_runSteps hrun.1 (by decide) ((hiff 0).mp h),
    (hiff 5000).mpr (neverOverruns_of_checkRun hrun.2)⟩

/-- The plain decoder returns 4098 bytes. The preload decoder runs off the 4096 bytes that it
reserves for an empty vector. -/
theorem overrunMember_overruns :
    FastInflate.decodeMemberU8 overrunMember 0 0 [] =
        .ok ((240, true), List.replicate 4098 0) ∧
      decodeMemberU8Preload narrow16 overrunMember 0 0 (OutVec.ofBytes [] 0) =
        .error .fault := by
  obtain ⟨hok, hsmall, -⟩ := overrunMember_cases 0
  exact ⟨hok, (decodeMemberU8Preload_eq_fault_iff _ _ _ _).mpr hsmall⟩

/-- The same member, into a vector that is too small and into one that is large enough. -/
theorem decodeMemberU8Preload_decodeMemberU8_iff_overrunMember :
    ValidMember overrunMember 0 0 [] ∧
    (¬MemberFits narrow16 overrunMember 0 0 (OutVec.ofBytes [] 0) ∧
      decodeMemberU8Preload narrow16 overrunMember 0 0 (OutVec.ofBytes [] 0) =
        .error .fault) ∧
    MemberFits narrow16 overrunMember 0 0 (OutVec.ofBytes [] 5000) ∧
      ∃ out', decodeMemberU8Preload narrow16 overrunMember 0 0 (OutVec.ofBytes [] 5000) =
        .ok ((240, true), out') ∧
        FastInflate.decodeMemberU8 overrunMember 0 0 [] = .ok ((240, true), out'.bytes) := by
  obtain ⟨hplain, hsmall, hlarge⟩ := overrunMember_cases 0
  obtain ⟨hfault, -⟩ := decodeMemberU8Preload_decodeMemberU8_iff narrow16 overrunMember 0 0
    (OutVec.ofBytes [] 0)
  obtain ⟨-, hiff⟩ := decodeMemberU8Preload_decodeMemberU8_iff narrow16 overrunMember 0 0
    (OutVec.ofBytes [] 5000)
  obtain ⟨out', hok, hbytes⟩ := (hiff.mpr (fun _ => hlarge) 240 true).1 _ hplain
  exact ⟨(validMember_iff _ _ _ _).mpr ⟨_, hplain⟩, ⟨hsmall, hfault.mpr hsmall⟩, hlarge, out', hok,
    by rw [hbytes]; exact hplain⟩

end Preload

end RustyRapidgzip
