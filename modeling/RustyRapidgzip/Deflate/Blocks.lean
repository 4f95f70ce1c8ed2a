import RustyRapidgzip.Deflate.Kernel

/-!
# Blocks and runs of blocks

The byte decoders differ in the symbol loop only: the header bits, the stored
blocks, the trees and the loop over the blocks are the same. They are written once,
with the symbol loop and the stopping rule as parameters.
-/

namespace RustyRapidgzip

open LsbBits Reference HuffmanDecoder Lz

/-- The symbol loop of a kernel. -/
abbrev Compressed (α : Type) : Type :=
  HuffmanDecoder → HuffmanDecoder → List α → BitReader → Except DeflateError (List α × BitReader)

/-- The decoders of a compressed block of type 1 or 2. -/
def blockTrees (btype : ℕ) (br : BitReader) :
    Except DeflateError ((HuffmanDecoder × HuffmanDecoder) × BitReader) :=
  if btype = 1 then do
    let lit ← fromLengthsLitlen fixedLiteralLengths
    let dist ← fromLengthsDist fixedDistanceLengths
    .ok ((lit, dist), br)
  else if btype = 2 then readDynamicHeader br
  else .error (.invalid "reserved block type")

/-- The contents of a block of the given type. -/
def blockContents (compressed : Compressed UInt8) (btype : ℕ) (out : List UInt8)
    (br : BitReader) : Except DeflateError (List UInt8 × BitReader) :=
  if btype = 0 then decodeStored br out
  else do
    let ((lit, dist), br) ← blockTrees btype br
    compressed lit dist out br

/-- Decode one block. The flag is BFINAL. -/
def blockWith (compressed : Compressed UInt8) (out : List UInt8) (br : BitReader) :
    Except DeflateError ((Bool × List UInt8) × BitReader) := do
  let (bfinal, br) ← br.read 1
  let (btype, br) ← br.read 2
  let (out, br) ← blockContents compressed btype out br
  .ok ((bfinal != 0, out), br)

/-- A decoder of single blocks. -/
abbrev BlockDecoder : Type :=
  List UInt8 → BitReader → Except DeflateError ((Bool × List UInt8) × BitReader)

/-- One round of the loop over the blocks: leave it after the final block, or after a
block where `stop` holds. -/
def blocksRound (block : BlockDecoder) (stop : BitReader → Bool) (s : List UInt8 × BitReader) :
    Except DeflateError ((List UInt8 × BitReader) ⊕ ((Bool × List UInt8) × BitReader)) :=
  match block s.1 s.2 with
  | .error e => .error e
  | .ok ((bfinal, out), br) =>
    if bfinal then .ok (.inr ((true, out), br))
    else if stop br then .ok (.inr ((false, out), br))
    else .ok (.inl (out, br))

/-- Decode blocks until the loop is left. Each block has a bit, which bounds the rounds. -/
def blocksWith (block : BlockDecoder) (stop : BitReader → Bool) (out : List UInt8)
    (br : BitReader) : Except DeflateError ((Bool × List UInt8) × BitReader) :=
  Loop.iterate .outOfFuel (blocksRound block stop) (8 * br.input.length + 1) (out, br)

/-- Decode from a bit position up to the final block, or up to the first block that
ends at or after the hint. The result is the end bit, the flag and the output. -/
def memberWith (block : BlockDecoder) (input : List UInt8) (startBit endBitHint : ℕ)
    (out : List UInt8) : Except DeflateError ((ℕ × Bool) × List UInt8) := do
  let br ← (BitReader.new input).seekToBit startBit
  let ((finalBlock, out), br) ← blocksWith block (fun br => decide (endBitHint ≤ br.tellBit)) out br
  .ok ((br.tellBit, finalBlock), out)

/-! ## Specifications -/

variable {input : List UInt8} {br : BitReader} {bs : List Bool}

/-- The reader has its input. -/
theorem BitReader.At.input_eq (h : br.At input bs) : br.input = input := by
  obtain ⟨p, hr, -⟩ := h.reads
  exact hr.input_eq

/-- The decoders of a compressed block agree with its code lengths. -/
theorem agrees_blockTrees (btype : ℕ) (hat : br.At input bs) :
    Agrees 15 input BothImplement (blockTrees btype br) (readCodes btype bs) := by
  unfold blockTrees readCodes
  by_cases hfixed : btype = 1
  · rw [if_pos hfixed, if_pos hfixed]
    have h := agrees_buildBoth fixedLiteralLengths fixedDistanceLengths 1 hat
    rwa [if_neg (by decide), if_pos ⟨by decide, prefixCode_fixed⟩] at h
  rw [if_neg hfixed, if_neg hfixed]
  by_cases hdynamic : btype = 2
  · rw [if_pos hdynamic, if_pos hdynamic]
    exact agrees_readDynamicHeader hat
  · rw [if_neg hdynamic, if_neg hdynamic]
    exact Agrees.fail (by simp)

/-- A symbol loop that decodes block bodies, for codes of the sizes the format allows. -/
def KernelSpec {α : Type} (sound complete : ℕ) (lift : UInt8 → α) (compressed : Compressed α) :
    Prop :=
  ∀ (input : List UInt8) (lit dist : HuffmanDecoder) (lits dists : List ℕ) (out : List α)
    (br : BitReader) (bs : List Bool), lits.length ≤ 288 → lit.Implements lits .litLen →
    dist.Implements dists .dist → br.At input bs →
    LoopSpec input sound complete lits dists lift bs out (compressed lit dist out br)

/-- What decoding one block returns. -/
def BlockSpec {α : Type} (input : List UInt8) (sound complete : ℕ) (lift : UInt8 → α)
    (bs : List Bool) (out : List α) : Except DeflateError ((Bool × List α) × BitReader) → Prop
  | .error e => e ≠ .outOfFuel ∧ ∀ f rest res, ¬BlockDecodes complete lift bs out f rest res
  | .ok ((f, res), br) =>
    ∃ rest, BlockDecodes sound lift bs out f rest res ∧ br.At input rest

/-- What decoding a run of blocks returns. -/
def BlocksSpec {α : Type} (input : List UInt8) (sound complete : ℕ) (stop : List Bool → Bool)
    (lift : UInt8 → α) (bs : List Bool) (out : List α) :
    Except DeflateError ((Bool × List α) × BitReader) → Prop
  | .error e => e ≠ .outOfFuel ∧ ∀ f rest res, ¬BlocksDecode complete stop lift bs out f rest res
  | .ok ((f, res), br) =>
    ∃ rest, BlocksDecode sound stop lift bs out f rest res ∧ br.At input rest

/-- The contents of a block of the given type, the data of a stored one or a body. -/
def Contents {α : Type} (room : ℕ) (lift : UInt8 → α) (btype : ℕ) (bs : List Bool) (out : List α)
    (rest : List Bool) (res : List α) : Prop :=
  (btype = 0 ∧ ∃ data, readStored bs = some (data, rest) ∧ res = out ++ data.map lift) ∨
    ∃ lits dists mid, readCodes btype bs = some ((lits, dists), mid) ∧
      Decodes room lits dists lift mid out rest res

/-- A block is its header and its contents. -/
theorem blockDecodes_iff {α : Type} {room bfinal btype : ℕ} {lift : UInt8 → α} {f : Bool}
    {bs₁ bs₂ rest : List Bool} {out res : List α} (hfinal : readBits 1 bs = some (bfinal, bs₁))
    (htype : readBits 2 bs₁ = some (btype, bs₂)) :
    BlockDecodes room lift bs out f rest res ↔
      f = (bfinal != 0) ∧ Contents room lift btype bs₂ out rest res := by
  constructor
  · rintro ⟨ts, hblock, hexpand⟩
    cases hblock with
    | stored hfinal' htype' hdata =>
      rw [hfinal] at hfinal'
      cases hfinal'
      rw [htype] at htype'
      cases htype'
      rw [expand_lits] at hexpand
      cases hexpand
      exact ⟨rfl, Or.inl ⟨rfl, _, hdata, rfl⟩⟩
    | compressed hfinal' htype' hcodes hbody =>
      rw [hfinal] at hfinal'
      cases hfinal'
      rw [htype] at htype'
      cases htype'
      exact ⟨rfl, Or.inr ⟨_, _, _, hcodes, _, hbody, hexpand⟩⟩
  · rintro ⟨rfl, ⟨rfl, data, hdata, rfl⟩ | ⟨lits, dists, mid, hcodes, ts, hbody, hexpand⟩⟩
    · exact ⟨_, .stored hfinal htype hdata, expand_lits _ _ _⟩
    · exact ⟨ts, .compressed hfinal htype hcodes hbody, hexpand⟩

/-- What decoding the contents of a block returns. `Done` says what a result stands for. -/
def ContentsFollows {ρ α : Type} (sound complete : ℕ) (lift : UInt8 → α)
    (Done : ρ → List Bool → List α → Prop) (btype : ℕ) (bs : List Bool) (out : List α) :
    Except DeflateError ρ → Prop
  | .error e => e ≠ .outOfFuel ∧ ∀ rest res, ¬Contents complete lift btype bs out rest res
  | .ok r => ∃ rest res, Contents sound lift btype bs out rest res ∧ Done r rest res

/-- What decoding a block returns. `Done` says what a result stands for. -/
def BlockFollows {τ α : Type} (sound complete : ℕ) (lift : UInt8 → α)
    (Done : τ → Bool → List Bool → List α → Prop) (bs : List Bool) (out : List α) :
    Except DeflateError τ → Prop
  | .error e => e ≠ .outOfFuel ∧ ∀ f rest res, ¬BlockDecodes complete lift bs out f rest res
  | .ok t => ∃ f rest res, BlockDecodes sound lift bs out f rest res ∧ Done t f rest res

/-- A block decoder reads two header fields and then the contents. -/
theorem blockFollows_of_contents {ρ τ α : Type} {sound complete : ℕ} {lift : UInt8 → α}
    {Done : ρ → List Bool → List α → Prop} {DoneBlock : τ → Bool → List Bool → List α → Prop}
    (field : BitReader → ℕ → Except DeflateError (ℕ × BitReader))
    (contents : ℕ → BitReader → Except DeflateError ρ) (finish : ℕ → ρ → τ)
    (hfield : ∀ n br bs, 0 < n → n ≤ 2 → br.At input bs →
      Agrees 0 input Eq (field br n) (readBits n bs))
    {out : List α}
    (hcontents : ∀ btype br bs, br.At input bs →
      ContentsFollows sound complete lift Done btype bs out (contents btype br))
    (hfinish : ∀ bfinal r rest res, Done r rest res →
      DoneBlock (finish bfinal r) (bfinal != 0) rest res)
    (hat : br.At input bs) :
    BlockFollows sound complete lift DoneBlock bs out (do
      let (bfinal, br) ← field br 1
      let (btype, br) ← field br 2
      let r ← contents btype br
      .ok (finish bfinal r)) := by
  have hfinal := hfield 1 br bs (by decide) (by decide) hat
  cases hf : field br 1 with
  | error e =>
    refine ⟨fun he => hfinal.fuel (by rw [hf, he]), ?_⟩
    rintro f rest res ⟨ts, hblock, -⟩
    have hread : ∃ v bs₁, readBits 1 bs = some (v, bs₁) := by
      cases hblock with
      | stored hfinal' _ _ => exact ⟨_, _, hfinal'⟩
      | compressed hfinal' _ _ _ => exact ⟨_, _, hfinal'⟩
    obtain ⟨v, bs₁, hread⟩ := hread
    obtain ⟨a, br', hok⟩ := hfinal.complete v bs₁ hread (Nat.zero_le _)
    rw [hf] at hok
    cases hok
  | ok r =>
    obtain ⟨bfinal, br₁⟩ := r
    obtain ⟨_, bs₁, hfinal', rfl, hat₁⟩ := hfinal.sound bfinal br₁ hf
    have htype := hfield 2 br₁ bs₁ (by decide) (by decide) hat₁
    simp only [bind, Except.bind]
    cases ht : field br₁ 2 with
    | error e =>
      refine ⟨fun he => htype.fuel (by rw [ht, he]), ?_⟩
      rintro f rest res ⟨ts, hblock, -⟩
      have hread : ∃ v bs₂, readBits 2 bs₁ = some (v, bs₂) := by
        cases hblock with
        | stored hfinal'' htype' _ =>
          rw [hfinal'] at hfinal''
          cases hfinal''
          exact ⟨_, _, htype'⟩
        | compressed hfinal'' htype' _ _ =>
          rw [hfinal'] at hfinal''
          cases hfinal''
          exact ⟨_, _, htype'⟩
      obtain ⟨v, bs₂, hread⟩ := hread
      obtain ⟨a, br', hok⟩ := htype.complete v bs₂ hread (Nat.zero_le _)
      rw [ht] at hok
      cases hok
    | ok r =>
      obtain ⟨btype, br₂⟩ := r
      obtain ⟨_, bs₂, htype', rfl, hat₂⟩ := htype.sound btype br₂ ht
      have hspec := hcontents btype br₂ bs₂ hat₂
      simp only
      revert hspec
      cases contents btype br₂ with
      | error e =>
        rintro ⟨he, hnone⟩
        exact ⟨he, fun f rest res h => hnone rest res ((blockDecodes_iff hfinal' htype').mp h).2⟩
      | ok r =>
        rintro ⟨rest, res, hdec, hdone⟩
        exact ⟨_, rest, res, (blockDecodes_iff hfinal' htype').mpr ⟨rfl, hdec⟩,
          hfinish bfinal r rest res hdone⟩

/-- A stored block is decoded where reading its data agrees. -/
theorem contentsFollows_stored {τ α : Type} {sound complete : ℕ} {lift : UInt8 → α}
    {S : τ → List α → Prop} {out : List α} {step : Except DeflateError (τ × BitReader)}
    (h : Agrees 0 input (fun t data => S t (out ++ data.map lift)) step (readStored bs)) :
    ContentsFollows sound complete lift (Stands S input) 0 bs out step := by
  cases step with
  | error e =>
    refine ⟨fun he => h.fuel (by rw [he]), ?_⟩
    rintro rest res (⟨-, data, hdata, -⟩ | ⟨_, _, _, hcodes, -⟩)
    · obtain ⟨a, br, hok⟩ := h.complete data rest hdata (Nat.zero_le _)
      cases hok
    · cases hcodes
  | ok r =>
    obtain ⟨res, br⟩ := r
    obtain ⟨data, rest, hdata, hS, hat⟩ := h.sound res br rfl
    exact ⟨rest, _, Or.inl ⟨rfl, data, hdata, rfl⟩, hS, hat⟩

/-- A compressed block is decoded where reading its codes agrees and the loop decodes
its body. -/
theorem contentsFollows_compressed {τ ρ α : Type} {sound complete room btype : ℕ}
    {lift : UInt8 → α} {Done : ρ → List Bool → List α → Prop} {R : τ → List ℕ × List ℕ → Prop}
    {step : Except DeflateError (τ × BitReader)} (hstored : btype ≠ 0)
    (hcodes : Agrees room input R step (readCodes btype bs)) (hroom : room ≤ complete)
    {out : List α} {loop : τ × BitReader → Except DeflateError ρ}
    (hloop : ∀ trees lits dists br rest, R trees (lits, dists) → br.At input rest →
      lits.length ≤ 288 →
      LoopFollows sound complete lits dists lift Done rest out (loop (trees, br))) :
    ContentsFollows sound complete lift Done btype bs out (step >>= loop) := by
  cases step with
  | error e =>
    refine ⟨fun he => hcodes.fuel (by rw [he]), ?_⟩
    rintro rest res (⟨hzero, -⟩ | ⟨lits, dists, mid, hread, hbody⟩)
    · exact hstored hzero
    · have hle := hbody.room_le
      obtain ⟨a, br, hok⟩ := hcodes.complete _ _ hread (by omega)
      cases hok
  | ok r =>
    obtain ⟨trees, br⟩ := r
    obtain ⟨⟨lits, dists⟩, mid, hread, hR, hat⟩ := hcodes.sound trees br rfl
    have hspec := hloop trees lits dists br mid hR hat (readCodes_inv hread).2.2.2
    simp only [bind, Except.bind]
    revert hspec
    cases loop (trees, br) with
    | error e =>
      rintro ⟨he, hnone⟩
      refine ⟨he, ?_⟩
      rintro rest res (⟨hzero, -⟩ | ⟨lits', dists', mid', hread', hbody⟩)
      · exact hstored hzero
      · rw [hread] at hread'
        cases hread'
        exact hnone rest res hbody
    | ok r =>
      rintro ⟨rest, res, hbody, hdone⟩
      exact ⟨rest, res, Or.inr ⟨lits, dists, mid, hread, hbody⟩, hdone⟩

/-- Over an output and a reader, following is decoding. -/
theorem LoopSpec.follows {α : Type} {sound complete : ℕ} {lits dists : List ℕ} {lift : UInt8 → α}
    {out : List α} {r : Except DeflateError (List α × BitReader)}
    (h : LoopSpec input sound complete lits dists lift bs out r) :
    LoopFollows sound complete lits dists lift (Stands Eq input) bs out r := by
  cases r with
  | error e => exact h
  | ok r =>
    obtain ⟨rest, hdec, hat⟩ := h
    exact ⟨rest, r.1, hdec, rfl, hat⟩

/-- A block decoder over an output and a reader, from its two fields and its contents. -/
theorem blockSpec_of_contents {α : Type} {sound complete : ℕ} {lift : UInt8 → α}
    (field : BitReader → ℕ → Except DeflateError (ℕ × BitReader))
    (contents : ℕ → List α → BitReader → Except DeflateError (List α × BitReader))
    (hfield : ∀ n br bs, 0 < n → n ≤ 2 → br.At input bs →
      Agrees 0 input Eq (field br n) (readBits n bs))
    (hcontents : ∀ btype out br bs, br.At input bs →
      ContentsFollows sound complete lift (Stands Eq input) btype bs out (contents btype out br))
    (out : List α) (hat : br.At input bs) :
    BlockSpec input sound complete lift bs out (do
      let (bfinal, br) ← field br 1
      let (btype, br) ← field br 2
      let (out, br) ← contents btype out br
      .ok ((bfinal != 0, out), br)) := by
  have hfollows : BlockFollows sound complete lift
      (fun t f rest res => t.1 = (f, res) ∧ t.2.At input rest) bs out (do
        let (bfinal, br) ← field br 1
        let (btype, br) ← field br 2
        let (out, br) ← contents btype out br
        .ok ((bfinal != 0, out), br)) :=
    blockFollows_of_contents field (fun btype br => contents btype out br)
      (fun bfinal r => ((bfinal != 0, r.1), r.2)) hfield
      (fun btype br bs hat => hcontents btype out br bs hat)
      (fun bfinal r rest res hdone => ⟨by rw [hdone.1], hdone.2⟩) hat
  revert hfollows
  generalize (do
    let (bfinal, br) ← field br 1
    let (btype, br) ← field br 2
    let (out, br) ← contents btype out br
    .ok ((bfinal != 0, out), br) : Except DeflateError ((Bool × List α) × BitReader)) = r
  cases r with
  | error e => exact id
  | ok t =>
    obtain ⟨⟨f, res⟩, br'⟩ := t
    rintro ⟨f', rest, res', hdec, heq, hat'⟩
    cases heq
    exact ⟨rest, hdec, hat'⟩

/-- A kernel decodes the reference's blocks. -/
theorem blockSpec_blockWith {sound complete : ℕ} {compressed : Compressed UInt8}
    (hkernel : KernelSpec sound complete id compressed) (hroom : 15 ≤ complete)
    (out : List UInt8) (hat : br.At input bs) :
    BlockSpec input sound complete id bs out (blockWith compressed out br) := by
  refine blockSpec_of_contents BitReader.read (blockContents compressed)
    (fun n _ _ _ hn hat => hat.agrees_read (by omega)) (fun btype out br bs hat => ?_) out hat
  unfold blockContents
  by_cases hstored : btype = 0
  · rw [if_pos hstored]
    subst btype
    apply contentsFollows_stored
    simpa only [List.map_id] using agrees_decodeStored out hat
  · rw [if_neg hstored]
    apply contentsFollows_compressed hstored (agrees_blockTrees btype hat) hroom
    rintro ⟨lit, dist⟩ lits dists br rest ⟨hlit, hdist⟩ hat hlen
    exact (hkernel input lit dist lits dists out br rest hlen hlit hdist hat).follows

/-- A decoder of the reference's blocks. -/
def DecodesBlocks (sound complete : ℕ) (block : BlockDecoder) : Prop :=
  ∀ (input : List UInt8) (out : List UInt8) (br : BitReader) (bs : List Bool),
    br.At input bs → BlockSpec input sound complete id bs out (block out br)

/-- A block decoder over a kernel that decodes blocks decodes blocks. -/
theorem KernelSpec.decodesBlocks {sound complete : ℕ} {compressed : Compressed UInt8}
    (hkernel : KernelSpec sound complete id compressed) (hroom : 15 ≤ complete) :
    DecodesBlocks sound complete (blockWith compressed) :=
  fun _ out _ _ hat => blockSpec_blockWith hkernel hroom out hat

/-- A decoder of the reference's blocks decodes its runs of blocks. -/
theorem blocksSpec_blocksWith {sound complete : ℕ} {block : BlockDecoder}
    (hdecodes : DecodesBlocks sound complete block)
    (stop : BitReader → Bool) (stopBits : List Bool → Bool)
    (hstop : ∀ br bs, br.At input bs → stop br = stopBits bs) (out : List UInt8)
    (hat : br.At input bs) :
    BlocksSpec input sound complete stopBits id bs out (blocksWith block stop out br) := by
  unfold blocksWith
  have hfuel : bs.length < 8 * br.input.length + 1 := by
    have := hat.length_le
    rw [hat.input_eq]
    omega
  generalize 8 * br.input.length + 1 = fuel at hfuel
  induction fuel generalizing out br bs with
  | zero => omega
  | succ fuel ih =>
    have hblock := hdecodes input out br bs hat
    cases hres : block out br with
    | error e =>
      rw [hres] at hblock
      have hround : blocksRound block stop (out, br) = .error e := by
        simp only [blocksRound, hres]
      rw [Loop.iterate_fail hround]
      refine ⟨hblock.1, fun f rest res hdec => ?_⟩
      obtain ⟨f₁, mid, out', hfirst, -⟩ := hdec.cases
      exact hblock.2 f₁ mid out' hfirst
    | ok r =>
      obtain ⟨⟨bfinal, out'⟩, br'⟩ := r
      rw [hres] at hblock
      obtain ⟨mid, ⟨ts, hblk, hts⟩, hat'⟩ := hblock
      cases bfinal with
      | true =>
        have hround : blocksRound block stop (out, br) = .ok (.inr ((true, out'), br')) := by
          simp only [blocksRound, hres, if_true]
        rw [Loop.iterate_break hround]
        exact ⟨mid, ⟨ts, .final hblk, hts⟩, hat'⟩
      | false =>
        have hstop' := hstop br' mid hat'
        cases hs : stop br' with
        | true =>
          have hround : blocksRound block stop (out, br) =
              .ok (.inr ((false, out'), br')) := by
            simp [blocksRound, hres, hs]
          rw [Loop.iterate_break hround]
          exact ⟨mid, ⟨ts, .stop hblk (by rw [← hstop', hs]), hts⟩, hat'⟩
        | false =>
          have hround : blocksRound block stop (out, br) = .ok (.inl (out', br')) := by
            simp [blocksRound, hres, hs]
          rw [hs] at hstop'
          have hlt := hblk.length_lt
          have hrest := ih out' hat' (by omega)
          rw [Loop.iterate_continue hround]
          revert hrest
          cases Loop.iterate .outOfFuel (blocksRound block stop) fuel (out', br') with
          | error e =>
            rintro ⟨he, hnone⟩
            exact ⟨he, fun f rest res hdec =>
              hnone f rest res (BlockDecodes.tail ⟨ts, hblk, hts⟩ hstop'.symm hdec)⟩
          | ok r =>
            obtain ⟨⟨f, res⟩, br''⟩ := r
            rintro ⟨rest, htail, hat''⟩
            exact ⟨rest, BlockDecodes.more ⟨ts, hblk, hts⟩ hstop'.symm htail, hat''⟩

/-! ## Whole streams -/

/-- Without a stopping rule, a run of blocks ends with the final one. -/
theorem stream_of_blocks {room : ℕ} {f : Bool} {ts : List Token} {rest : List Bool}
    (h : Blocks room (fun _ => false) bs f ts rest) : f = true := by
  induction h with
  | final _ => rfl
  | stop _ hstop => cases hstop
  | more _ _ _ ih => exact ih

/-- What decoding a stream returns. -/
def StreamSpec (input : List UInt8) (sound complete : ℕ) (bs : List Bool) (out : List UInt8) :
    Except DeflateError (List UInt8 × BitReader) → Prop
  | .error e => e ≠ .outOfFuel ∧
      ∀ ts rest, Stream complete bs ts rest → expand id out ts = none
  | .ok (res, br) => ∃ ts rest, Stream sound bs ts rest ∧ expand id out ts = some res ∧
      br.At input rest

/-- A decoder of the reference's blocks decodes its streams. -/
theorem streamSpec_blocksWith {sound complete : ℕ} {block : BlockDecoder}
    (hdecodes : DecodesBlocks sound complete block) (out : List UInt8) (hat : br.At input bs) :
    StreamSpec input sound complete bs out
      ((blocksWith block (fun _ => false) out br).map (fun r => (r.1.2, r.2))) := by
  have hspec := blocksSpec_blocksWith hdecodes (fun _ => false) (fun _ => false)
    (fun _ _ _ => rfl) out hat
  revert hspec
  cases blocksWith block (fun _ => false) out br with
  | error e =>
    rintro ⟨he, hnone⟩
    refine ⟨he, fun ts rest hstream => ?_⟩
    cases hres : expand id out ts with
    | none => rfl
    | some res => exact absurd ⟨ts, hstream, hres⟩ (hnone true rest res)
  | ok r =>
    obtain ⟨⟨f, res⟩, br'⟩ := r
    rintro ⟨rest, ⟨ts, hblocks, hres⟩, hat'⟩
    obtain rfl := stream_of_blocks hblocks
    exact ⟨ts, rest, hblocks, hres, hat'⟩

/-! ## Runs of blocks between bit positions -/

/-- The rule by which runs of blocks end, on the remaining bits. -/
def stopAt (input : List UInt8) (endBitHint : ℕ) (rest : List Bool) : Bool :=
  decide (endBitHint ≤ 8 * input.length - rest.length)

/-- The test of the position is the one of the remaining bits. -/
theorem stopAt_eq (endBitHint : ℕ) (hat : br.At input bs) :
    decide (endBitHint ≤ br.tellBit) = stopAt input endBitHint bs := by
  have htell := hat.tellBit
  rw [stopAt, show 8 * input.length - bs.length = br.tellBit by omega]

/-- What decoding a run of blocks from a bit position returns. -/
def MemberSpec (sound complete : ℕ) (input : List UInt8) (startBit endBitHint : ℕ)
    (out : List UInt8) : Except DeflateError ((ℕ × Bool) × List UInt8) → Prop
  | .error e => e ≠ .outOfFuel ∧ ∀ f ts rest, startBit ≤ 8 * input.length →
      Blocks complete (stopAt input endBitHint) ((bits input).drop startBit) f ts rest →
      expand id out ts = none
  | .ok ((e, f), res) => startBit ≤ 8 * input.length ∧ ∃ ts rest,
      Blocks sound (stopAt input endBitHint) ((bits input).drop startBit) f ts rest ∧
      e + rest.length = 8 * input.length ∧ expand id out ts = some res

/-- A member decoder over a block decoder decodes members. -/
theorem memberSpec_memberWith {sound complete : ℕ} {block : BlockDecoder}
    (hdecodes : DecodesBlocks sound complete block) (input : List UInt8)
    (startBit endBitHint : ℕ) (out : List UInt8) :
    MemberSpec sound complete input startBit endBitHint out
      (memberWith block input startBit endBitHint out) := by
  unfold memberWith
  rcases BitReader.seekToBit_at input startBit with ⟨hle, br, hseek, hat⟩ | ⟨hlt, hseek⟩
  swap
  · rw [hseek]
    exact ⟨by simp, fun _ _ _ hle => by omega⟩
  rw [hseek]
  simp only [bind, Except.bind]
  have hspec := blocksSpec_blocksWith hdecodes
    (fun br => decide (endBitHint ≤ br.tellBit)) (stopAt input endBitHint)
    (fun br bs hat => stopAt_eq endBitHint hat) out hat
  revert hspec
  cases blocksWith block (fun br => decide (endBitHint ≤ br.tellBit)) out br with
  | error e =>
    rintro ⟨he, hnone⟩
    refine ⟨he, fun f ts rest _ hblocks => ?_⟩
    cases hres : expand id out ts with
    | none => rfl
    | some res => exact absurd ⟨ts, hblocks, hres⟩ (hnone f rest res)
  | ok r =>
    obtain ⟨⟨f, res⟩, br'⟩ := r
    rintro ⟨rest, ⟨ts, hblocks, hres⟩, hat'⟩
    exact ⟨hle, ts, rest, hblocks, hat'.tellBit, hres⟩

/-- What one decoder returns another one returns too, if it needs no more room or has it. -/
theorem MemberSpec.transfer {sound complete sound' complete' startBit endBitHint e : ℕ} {f : Bool}
    {out res : List UInt8} {r : Except DeflateError ((ℕ × Bool) × List UInt8)}
    (h : MemberSpec sound complete input startBit endBitHint out (.ok ((e, f), res)))
    (h' : MemberSpec sound' complete' input startBit endBitHint out r)
    (hroom : complete' ≤ sound ∨ e + complete' ≤ 8 * input.length) :
    r = .ok ((e, f), res) := by
  obtain ⟨hle, ts, rest, hblocks, he, hres⟩ := h
  have hblocks' : Blocks complete' (stopAt input endBitHint) ((bits input).drop startBit) f ts
      rest := by
    rcases hroom with hle | hle
    · exact hblocks.mono hle
    · exact hblocks.of_rest (by omega)
  cases r with
  | error err =>
    rw [h'.2 f ts rest hle hblocks'] at hres
    cases hres
  | ok r =>
    obtain ⟨⟨e', f'⟩, res'⟩ := r
    obtain ⟨-, ts', rest', hblocks'', he', hres'⟩ := h'
    obtain ⟨rfl, rfl, rfl⟩ := hblocks.unique hblocks''
    rw [hres, Option.some.injEq] at hres'
    subst hres'
    obtain rfl : e = e' := by omega
    rfl

end RustyRapidgzip
