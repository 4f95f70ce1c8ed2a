import RustyRapidgzip.Deflate.Until

/-!
# Short inputs

A copy of 258 bytes takes two bits, so that an input of 63 bytes does not fill the window. It is
never handed off, and speculative decoding does not run off its vector. Neither does a member of
the preload decoder whose first block is final, and stored or fixed.
-/

namespace RustyRapidgzip

open LsbBits Reference Lz Stop HuffmanDecoder PreloadRoom

/-! ## What bits can expand to -/

namespace Reference

variable {room : ℕ} {lit dist : List ℕ} {bs rest : List Bool} {ts : List Token}

/-- A token makes at most 129 bytes for a bit. -/
theorem readToken_size {t : Token} (h : readToken lit dist bs = some (some t, rest)) :
    t.size + 129 * rest.length ≤ 129 * bs.length := by
  have hshort := readToken_length h
  cases t with
  | lit b =>
    rw [show (Token.lit b).size = 1 from rfl]
    omega
  | copy n d =>
    obtain ⟨-, hn, -, -⟩ : CopyBounds (.copy n d) := readToken_bounds h
    obtain ⟨⟨sym, bs₁⟩, hdec, h⟩ := Option.bind_eq_some_iff.mp h
    have h₁ := decode_length hdec
    simp only at h
    cases hsym : litLen sym with
    | length base extra =>
      rw [hsym] at h
      obtain ⟨⟨e, bs₂⟩, hread, h⟩ := Option.bind_eq_some_iff.mp h
      obtain ⟨⟨d', bs₃⟩, hdist, h⟩ := Option.bind_eq_some_iff.mp h
      cases h
      have h₂ := readBits_length hread
      have h₃ := readDistance_length hdist
      rw [show (Token.copy (base + e) d').size = base + e from rfl]
      simp only at h₁ h₂ h₃ hn ⊢
      omega
    | literal _ => rw [hsym] at h; cases h
    | endOfBlock => rw [hsym] at h; cases h
    | reserved => rw [hsym] at h; cases h

/-- A bit stands for 129 bytes at most. -/
theorem Body.size_le (h : Body room lit dist bs ts rest) :
    (ts.map Token.size).sum + 129 * rest.length ≤ 129 * bs.length := by
  induction h with
  | stop htoken _ =>
    have := readToken_length htoken
    rw [List.map_nil, List.sum_nil]
    omega
  | next htoken _ ih =>
    have := readToken_size htoken
    rw [List.map_cons, List.sum_cons]
    omega

/-- So does a block. -/
theorem Block.size_le {f : Bool} (h : Block room bs f ts rest) :
    (ts.map Token.size).sum + 129 * rest.length ≤ 129 * bs.length := by
  cases h with
  | @stored _ _ _ _ data hfinal htype hdata =>
    have h₁ := readBits_length hfinal
    have h₂ := readBits_length htype
    have h₃ := readStored_length hdata
    have hsum : ((data.map Token.lit).map Token.size).sum = data.length := by
      rw [List.map_map, show Token.size ∘ Token.lit = fun _ => 1 from rfl, List.map_const',
        List.sum_replicate_nat, Nat.mul_one]
    omega
  | compressed hfinal htype hcodes hbody =>
    have h₁ := readBits_length hfinal
    have h₂ := readBits_length htype
    have h₃ := (readCodes_inv hcodes).1
    have h₄ := hbody.size_le
    omega

end Reference

/-- Tokens append their sizes. -/
theorem expand_length {α : Type} {f : UInt8 → α} {out out' : List α} {ts : List Token}
    (h : expand f out ts = some out') : out'.length = out.length + (ts.map Token.size).sum := by
  induction ts generalizing out with
  | nil =>
    cases h
    rfl
  | cons t ts ih =>
    rw [expand_cons, Option.bind_eq_some_iff] at h
    obtain ⟨mid, ht, hts⟩ := h
    rw [ih hts, expandToken_length ht, List.map_cons, List.sum_cons, Nat.add_assoc]

namespace Speculative

/-- The first phase makes at most 129 cells for a bit, and is only left without an end where the
window holds no marker. -/
theorem phase1_length {input : List UInt8} {endBitHint fuel : ℕ} {w w' : Window}
    {br br' : BitReader} {bs : List Bool} {out : List ℕ} {ended : Option Bool}
    (hbehind : w.Behind out) (hat : br.At input bs)
    (h : Loop.iterate .outOfFuel (phase1Round endBitHint) fuel (w, br) = .ok ((ended, w'), br')) :
    ∃ out' bs', w'.Behind out' ∧ br'.At input bs' ∧
      out'.length + 129 * bs'.length ≤ out.length + 129 * bs.length ∧
      (ended = none → markerFree w' = true) := by
  induction fuel generalizing w br bs out with
  | zero => cases h
  | succ fuel ih =>
    have hblock := blockFollows_decodeOneBlockU16 hbehind hat
    cases hres : decodeOneBlockU16 w br with
    | error e =>
      rw [Loop.iterate_fail (show phase1Round endBitHint (w, br) = .error e by
        simp only [phase1Round, hres])] at h
      cases h
    | ok r =>
      obtain ⟨⟨f, w₁⟩, br₁⟩ := r
      rw [hres] at hblock
      obtain ⟨_, mid, out₁, ⟨ts, hblk, hts⟩, rfl, hbehind₁, hat₁⟩ := hblock
      simp only at hblk hbehind₁ hat₁
      have hsize := hblk.size_le
      have hlen := expand_length hts
      by_cases hend : f = true ∨ endBitHint ≤ br₁.tellBit
      · have hround : phase1Round endBitHint (w, br) = .ok (.inr ((some f, w₁), br₁)) := by
          rcases hend with rfl | hhint
          · simp only [phase1Round, hres, if_true]
          · cases f <;> simp [phase1Round, hres, hhint]
        rw [Loop.iterate_break hround] at h
        cases h
        exact ⟨out₁, mid, hbehind₁, hat₁, by omega, fun hnone =>
          absurd hnone (Option.some_ne_none f)⟩
      rw [not_or, Bool.not_eq_true] at hend
      obtain ⟨rfl, hhint⟩ := hend
      by_cases hfree : markerFree w₁ = true
      · rw [Loop.iterate_break (show phase1Round endBitHint (w, br) =
          .ok (.inr ((none, w₁), br₁)) by simp [phase1Round, hres, hhint, hfree])] at h
        cases h
        exact ⟨out₁, mid, hbehind₁, hat₁, by omega, fun _ => hfree⟩
      · rw [Loop.iterate_continue (show phase1Round endBitHint (w, br) =
          .ok (.inl (w₁, br₁)) by simp [phase1Round, hres, hhint, hfree])] at h
        obtain ⟨out', bs', hbehind', hat', hle, hfree'⟩ := ih hbehind₁ hat₁ h
        exact ⟨out', bs', hbehind', hat', by omega, hfree'⟩

/-- An input of 63 bytes is not handed off. -/
theorem untilFits_of_short (build : Build) (capacity : ℕ) {input : List UInt8}
    (hshort : input.length ≤ 63) (startBit endBitHint : ℕ) (chunk : VecChunk) (scratch : List ℕ) :
    UntilFits build capacity input startBit endBitHint chunk scratch := by
  rintro br w br' hseek hphase
  have hat := (BitReader.at_of_seekToBit hseek).2
  have hstart : (Window.mk (prepareScratch scratch) 0 0 ⟨[], []⟩).Behind markerPrefix :=
    ⟨[], by simp, Window.Holds.start _⟩
  have honto : Window.mk (prepareScratch scratch) 0 0 chunk.unbounded =
      (Window.mk (prepareScratch scratch) 0 0 ⟨[], []⟩).onto chunk.unbounded := by
    simp [Window.onto, SpeculativeChunk.onto]
  rw [honto, phase1_onto] at hphase
  cases hrun : phase1 endBitHint ⟨prepareScratch scratch, 0, 0, ⟨[], []⟩⟩ br with
  | error e =>
    rw [hrun] at hphase
    cases hphase
  | ok r =>
    obtain ⟨⟨ended, w₀⟩, br₁⟩ := r
    rw [hrun] at hphase
    cases hphase
    obtain ⟨_, bs', ⟨cells, rfl, hholds⟩, -, hle, hfree⟩ := phase1_length hstart hat hrun
    have hcells := hholds.length_eq
    have hfree := hfree rfl
    simp only [markerFree, Bool.and_eq_true, decide_eq_true_eq] at hfree
    have hhandoff : U16_HANDOFF_AT = 65536 := rfl
    have hbits := hat.length_le
    rw [List.length_append] at hle
    omega

end Speculative

namespace Preload

/-- The literals of the fixed code take more than a bit. -/
theorem literalsTake_fixed : LiteralsTake fixedLiteralLengths 2 := by
  unfold LiteralsTake
  decide +kernel

/-- A fixed block fits wherever it is put. -/
theorem longRunsFit_of_fixed (build : Build) {input : List UInt8} {br br' : BitReader}
    {bs : List Bool} {lit dist : HuffmanDecoder} (hat : br.At input bs)
    (htrees : blockTrees 1 br = .ok ((lit, dist), br')) (out : OutVec) :
    LongRunsFit build.grow build.copyN lit dist
      (PreloadRoom.start build.grow out.bytes.length out.capacity br') := by
  unfold blockTrees at htrees
  rw [if_pos rfl] at htrees
  cases hlit : fromLengthsLitlen fixedLiteralLengths with
  | error e =>
    rw [hlit] at htrees
    cases htrees
  | ok lit' =>
    cases hdist : fromLengthsDist fixedDistanceLengths with
    | error e =>
      rw [hlit, hdist] at htrees
      cases htrees
    | ok dist' =>
      rw [hlit, hdist] at htrees
      cases htrees
      exact longRunsFit_of_neverOverruns (neverOverruns_of_literalsTake build.grow build.copyN_eq
        (by decide +kernel) hlit hdist literalsTake_fixed hat out.fits)

/-- A final block that is stored or fixed is the only one, and fits wherever it is put. -/
theorem memberFits_of_plain (build : Build) {input : List UInt8} {startBit : ℕ} {fixed : Bool}
    {rest : List Bool} (hbits : (bits input).drop startBit = true :: fixed :: false :: rest)
    (endBitHint : ℕ) (out : OutVec) : MemberFits build input startBit endBitHint out := by
  intro br hseek
  have hat := (BitReader.at_of_seekToBit hseek).2
  rw [hbits] at hat
  have hfinal : readBits 1 (true :: fixed :: false :: rest) = some (1, fixed :: false :: rest) :=
    rfl
  have htype : readBits 2 (fixed :: false :: rest) = some (fixed.toNat, rest) := by
    cases fixed <;> rfl
  obtain ⟨_, br₁, hread₁⟩ := (hat.agrees_read (n := 1) (by decide)).complete _ _ hfinal
    (Nat.zero_le _)
  obtain ⟨_, _, href, rfl, hat₁⟩ := (hat.agrees_read (n := 1) (by decide)).sound _ _ hread₁
  rw [hfinal] at href
  cases href
  obtain ⟨_, br₂, hread₂⟩ := (hat₁.agrees_read (n := 2) (by decide)).complete _ _ htype
    (Nat.zero_le _)
  obtain ⟨_, _, href, rfl, hat₂⟩ := (hat₁.agrees_read (n := 2) (by decide)).sound _ _ hread₂
  rw [htype] at href
  cases href
  intro t hcomes
  rcases hcomes.cases_head with rfl | ⟨t', hnext, -⟩
  · intro _ _ _ _ lit dist br₃ hfinal' htype' hstored htrees
    rw [hread₁] at hfinal'
    cases hfinal'
    rw [hread₂] at htype'
    cases htype'
    cases fixed with
    | false => exact absurd rfl hstored
    | true => exact longRunsFit_of_fixed build hat₂ htrees out
  · simp only [blocksRound, decodeOneBlockPreload, hread₁, hread₂, lift_ok, bind,
      Except.bind] at hnext
    cases hcontents : blockContents build fixed.toNat out br₂ with
    | error e =>
      rw [hcontents] at hnext
      cases hnext
    | ok r =>
      rw [hcontents] at hnext
      cases hnext

end Preload

end RustyRapidgzip
