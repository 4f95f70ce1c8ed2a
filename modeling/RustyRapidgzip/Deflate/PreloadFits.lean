import RustyRapidgzip.Deflate.PreloadRoom

/-!
# Where the preload decoder keeps to its output

The kernel over a vector faults exactly where the stores that the cursor makes do not fit. A
run of blocks faults exactly where it comes to a block whose long runs of literals do not fit;
where they fit, the decoder does what it does over an unbounded output.
-/

namespace RustyRapidgzip

open LsbBits Reference HuffmanDecoder Stop PreloadRoom

namespace Preload

/-! ## The cursor of a vector -/

section Cursor

variable {build : Build} {lit dist : HuffmanDecoder} {out : OutVec} {br : BitReader}

/-- The state with a cursor and a capacity. -/
def State.cursor (s : State) : PreloadRoom.State :=
  ⟨s.loaded, s.out.bytes.length, s.out.capacity, s.br⟩

/-- The result with a cursor. -/
def cursor (r : OutVec × BitReader) : ℕ × BitReader := (r.1.bytes.length, r.2)

/-- A step over a vector and the same step with a cursor: where the stores fit, they agree, and
where one does not the step over the vector faults. -/
structure Matches (r : Except (Stop DeflateError) (State ⊕ (OutVec × BitReader)))
    (r' : PreloadRoom.Step) : Prop where
  fits : (∀ w ∈ r'.1, w.Fits) → Tracks (Sum.map State.cursor cursor) r r'.2 ∧ r ≠ .error .fault
  fault : ∀ w ∈ r'.1, ¬w.Fits → r = .error .fault

/-- An error without stores. -/
theorem matches_error (e : DeflateError) :
    Matches (.error (.error e)) (([], .error e) : PreloadRoom.Step) :=
  ⟨fun _ => ⟨.error e, nofun⟩, nofun⟩

/-- A result without stores. -/
theorem matches_ok (a : State ⊕ (OutVec × BitReader)) :
    Matches (.ok a) (([], .ok (Sum.map State.cursor cursor a)) : PreloadRoom.Step) :=
  ⟨fun _ => ⟨.ok a, nofun⟩, nofun⟩

/-- The room is the difference that the kernel computes. -/
theorem subUsize_capacity (out : OutVec) :
    subUsize out.capacity out.bytes.length = out.room := if_pos out.fits

/-- The capacity after room has been made. -/
theorem capacity_ensure (grow : Reserve) (out : OutVec) (need additional : ℕ) :
    (out.ensure grow need additional).capacity =
      if out.room < need then grow.reserve out.capacity out.bytes.length additional
      else out.capacity := by
  unfold OutVec.ensure
  split <;> rfl

/-- The capacity at the top of a round. -/
theorem capacity_ensureRoom (build : Build) (out : OutVec) :
    (ensureRoom build out).capacity =
      PreloadRoom.ensureRoom build.grow build.copyN out.bytes.length out.capacity := by
  rw [ensureRoom, capacity_ensure, PreloadRoom.ensureRoom, subUsize_capacity]

/-- The kernel starts with the cursor of the vector. -/
theorem cursor_start (build : Build) (out : OutVec) (br : BitReader) :
    (start build out br).cursor =
      PreloadRoom.start build.grow out.bytes.length out.capacity br := by
  rw [start, State.cursor, PreloadRoom.start, capacity_ensure, OutVec.ensure_bytes]
  rfl

/-- A copy, and the state after it. -/
theorem matches_copyBack {distance : ℕ} (hle : 0 < distance ∧ distance ≤ out.bytes.length)
    (length : ℕ) :
    Matches
      (match out.copyBack build distance length with
        | .error e => .error e
        | .ok out => .ok (.inl ⟨none, out, br⟩))
      ([⟨out.bytes.length, copyExtent build.copyN distance length, out.capacity⟩],
        .ok (.inl ⟨none, out.bytes.length + length, out.capacity, br⟩)) := by
  by_cases hroom : out.bytes.length + copyExtent build.copyN distance length ≤ out.capacity
  · rw [OutVec.copyBack_of_room hroom]
    have h := @Tracks.ok DeflateError _ _ (Sum.map State.cursor cursor)
      (Sum.inl ⟨none, ⟨copyBackRaw out.bytes distance length, out.capacity,
        OutVec.fits_copyBack build out hroom⟩, br⟩)
    rw [Sum.map_inl, State.cursor, copyBackRaw_length length hle.1 hle.2] at h
    refine ⟨fun _ => ⟨h, nofun⟩, fun w hw hfits => absurd ?_ hfits⟩
    rw [List.mem_singleton.mp hw]
    exact hroom
  · rw [OutVec.copyBack_of_full hroom]
    exact ⟨fun hfits => absurd (hfits _ (List.mem_singleton.mpr rfl)) hroom, fun _ _ _ => rfl⟩

/-- A store, and what comes after it. -/
theorem matches_store {b : UInt8} {cap : ℕ} (hcap : out.capacity = cap)
    {k : OutVec → Except (Stop DeflateError) (State ⊕ (OutVec × BitReader))}
    {r' : Except DeflateError (PreloadRoom.State ⊕ (ℕ × BitReader))}
    (hk : ∀ out', out'.bytes = out.bytes ++ [b] → out'.capacity = cap →
      Tracks (Sum.map State.cursor cursor) (k out') r' ∧ k out' ≠ .error .fault) :
    Matches
      (match (out.store b : Except (Stop DeflateError) OutVec) with
        | .error e => .error e
        | .ok out => k out)
      ([⟨out.bytes.length, 1, cap⟩], r') := by
  subst hcap
  by_cases hroom : out.bytes.length + 1 ≤ out.capacity
  · rw [OutVec.store_of_room b hroom]
    refine ⟨fun _ => hk _ rfl rfl, fun w hw hfits => absurd ?_ hfits⟩
    rw [List.mem_singleton.mp hw]
    exact hroom
  · rw [OutVec.store_of_full b hroom]
    exact ⟨fun hfits => absurd (hfits _ (List.mem_singleton.mpr rfl)) hroom, fun _ _ _ => rfl⟩

/-- A copy faults exactly where one of its stores does not fit. -/
theorem matches_decodeDistanceAndCopy (length : ℕ) :
    Matches
      (match decodeDistanceAndCopy build dist length out br with
        | .error e => .error e
        | .ok (out, br) => .ok (.inl ⟨none, out, br⟩))
      (PreloadRoom.decodeDistanceAndCopy build.grow build.copyN dist length out.bytes.length
        out.capacity br) := by
  unfold decodeDistanceAndCopy PreloadRoom.decodeDistanceAndCopy
  cases br.refillKernel with
  | error e => exact matches_error e
  | ok br₁ =>
    simp only
    cases distanceOf dist br₁ with
    | error e => exact matches_error e
    | ok r =>
      obtain ⟨distance, br₂⟩ := r
      simp only [subUsize_capacity]
      by_cases hbad : distance = 0 ∨ out.bytes.length < distance
      · rw [if_pos hbad, if_pos hbad]
        exact matches_error _
      rw [if_neg hbad, if_neg hbad]
      have h := @matches_copyBack build
        (out.ensure build.grow (length + build.copyN) (length + 4096)) br₂ distance
        (by rw [OutVec.ensure_bytes]; omega) length
      rw [capacity_ensure, OutVec.ensure_bytes] at h
      revert h
      generalize (OutVec.copyBack build (out.ensure build.grow (length + build.copyN)
        (length + 4096)) distance length : Except (Stop DeflateError) OutVec) = copied
      cases copied <;> exact id

/-- A symbol among the long codes faults exactly where one of its stores does not fit. -/
theorem matches_longSymbol (e : ℕ) :
    Matches (longSymbol build dist e out br)
      (PreloadRoom.longSymbol build.grow build.copyN dist e out.bytes.length out.capacity br) := by
  unfold longSymbol PreloadRoom.longSymbol
  by_cases hliteral : e &&& HUFFDEC_LITERAL ≠ 0
  · rw [if_pos hliteral, if_pos hliteral]
    simp only
    obtain ⟨out₁, hout₁, hbytes, hcap⟩ : ∃ out₁, (if out.bytes.length = out.capacity then
        out.reserve build.grow HEADROOM else out) = out₁ ∧ out₁.bytes = out.bytes ∧
        out₁.capacity = (if out.bytes.length = out.capacity then
          build.grow.reserve out.capacity out.bytes.length HEADROOM else out.capacity) :=
      ⟨_, rfl, by split <;> rfl, by split <;> rfl⟩
    rw [hout₁, ← hcap, ← hbytes]
    refine matches_store rfl fun out' hbytes' hcap' => ⟨?_, nofun⟩
    have h := @Tracks.ok DeflateError _ _ (Sum.map State.cursor cursor)
      (Sum.inl ⟨none, out', br⟩)
    rwa [Sum.map_inl, State.cursor, hbytes', List.length_append, List.length_singleton,
      hcap'] at h
  rw [if_neg hliteral, if_neg hliteral]
  by_cases hexc : e &&& HUFFDEC_EXCEPTIONAL ≠ 0
  · rw [if_pos hexc, if_pos hexc]
    split
    · exact matches_ok (Sum.inr (out, br))
    · exact matches_error _
  rw [if_neg hexc, if_neg hexc]
  cases (if 0 < (e >>> 8) &&& 0x1f then br.refillKernel else .ok br) with
  | error e => exact matches_error e
  | ok br₁ => exact matches_decodeDistanceAndCopy _

/-- A symbol of the table faults exactly where one of its stores does not fit. -/
theorem matches_shortSymbol (entry : ℕ) :
    Matches (shortSymbol build dist entry out br)
      (PreloadRoom.shortSymbol build.copyN dist entry out.bytes.length out.capacity br) := by
  unfold shortSymbol PreloadRoom.shortSymbol
  simp only
  by_cases hexc : entry &&& HUFFDEC_EXCEPTIONAL ≠ 0
  · rw [if_pos hexc, if_pos hexc]
    split
    · exact matches_ok (Sum.inr (out, br.consume (entry &&& 0xff)))
    · exact matches_error _
  rw [if_neg hexc, if_neg hexc]
  generalize lengthOf entry (br.consume (entry &&& 0xff)) = r
  obtain ⟨length, br₁⟩ := r
  simp only
  cases (if br₁.bits < 28 then br₁.refillKernel else .ok br₁) with
  | error e => exact matches_error e
  | ok br₂ =>
    simp only
    cases distanceOf dist br₂ with
    | error e => exact matches_error e
    | ok r =>
      obtain ⟨distance, br₃⟩ := r
      simp only
      by_cases hzero : distance = 0
      · rw [if_pos hzero, if_pos hzero]
        exact matches_error _
      by_cases hfar : out.bytes.length < distance
      · rw [if_neg hzero, if_neg hzero, if_pos hfar, if_pos hfar]
        exact matches_error _
      · rw [if_neg hzero, if_neg hzero, if_neg hfar, if_neg hfar]
        exact matches_copyBack ⟨by omega, by omega⟩ length

/-- A step over a vector faults exactly where a store of the cursor does not fit. -/
theorem matches_round (s : State) :
    Matches (round build lit dist s)
      (PreloadRoom.step build.grow build.copyN lit dist s.cursor) := by
  obtain ⟨loaded, out, br⟩ := s
  rw [show State.cursor ⟨loaded, out, br⟩ = ⟨loaded, out.bytes.length, out.capacity, br⟩ from rfl]
  unfold round PreloadRoom.step
  cases loaded with
  | none =>
    simp only
    cases br.refillKernel with
    | error e => exact matches_error e
    | ok br₁ =>
      have h := matches_ok (Sum.inl ⟨some (lit.lut (br₁.peekBitsUnchecked LUT_BITS)),
        ensureRoom build out, br₁⟩)
      rwa [Sum.map_inl, State.cursor, capacity_ensureRoom, ensureRoom, OutVec.ensure_bytes] at h
  | some entry =>
    simp only
    by_cases hliteral : entry &&& HUFFDEC_LITERAL ≠ 0
    · simp only [if_pos hliteral]
      by_cases hlow : (br.consume (entry &&& 0xff)).bits < Unbounded.LIT_GUARD
      · simp only [if_pos hlow]
        cases (br.consume (entry &&& 0xff)).refillKernel with
        | error e =>
          exact matches_store rfl fun out' _ _ => ⟨.error e, error_ne_fault e⟩
        | ok br₁ =>
          refine matches_store rfl fun out' hbytes hcap => ⟨?_, ok_ne_fault _⟩
          have h := @Tracks.ok DeflateError _ _ (Sum.map State.cursor cursor)
            (Sum.inl ⟨some (lit.lut (br₁.peekBitsUnchecked LUT_BITS)), ensureRoom build out', br₁⟩)
          rwa [Sum.map_inl, State.cursor, capacity_ensureRoom, ensureRoom, OutVec.ensure_bytes,
            hbytes, List.length_append, List.length_singleton, hcap] at h
      · simp only [if_neg hlow]
        refine matches_store rfl fun out' hbytes hcap => ⟨?_, ok_ne_fault _⟩
        have h := @Tracks.ok DeflateError _ _ (Sum.map State.cursor cursor)
          (Sum.inl ⟨some (lit.lut ((br.consume (entry &&& 0xff)).peekBitsUnchecked LUT_BITS)), out',
            br.consume (entry &&& 0xff)⟩)
        rwa [Sum.map_inl, State.cursor, hbytes, List.length_append, List.length_singleton,
          hcap] at h
    · simp only [if_neg hliteral]
      by_cases hlong : entry &&& 0xff = 0
      · simp only [if_pos hlong]
        cases lit.lookupLong br with
        | error e => exact matches_error e
        | ok r => exact matches_longSymbol r.1
      · simp only [if_neg hlong]
        exact matches_shortSymbol entry

/-- The stores of the cursor fit where no step of the loop faults. -/
theorem neverOverruns_cursor_iff (s : State) :
    NeverOverruns build.grow build.copyN lit dist s.cursor ↔
      ∀ t, Comes (round build lit dist) s t → round build lit dist t ≠ .error .fault := by
  constructor
  · intro h
    have hreached : ∀ t, Comes (round build lit dist) s t →
        PreloadRoom.Reached build.grow build.copyN lit dist s.cursor t.cursor := by
      intro t ht
      induction ht with
      | refl => exact .refl
      | tail _ hnext ih =>
        exact ih.tail (((matches_round _).fits (h _ ih).2).1.ok_eq hnext)
    intro t ht
    exact ((matches_round t).fits (h _ (hreached t ht)).2).2
  · intro h
    have hfits (t : State) (ht : Comes (round build lit dist) s t) :
        ∀ w ∈ (PreloadRoom.step build.grow build.copyN lit dist t.cursor).1, w.Fits := by
      intro w hw
      by_contra hover
      exact h t ht ((matches_round t).fault w hw hover)
    have hcomes : ∀ u, PreloadRoom.Reached build.grow build.copyN lit dist s.cursor u →
        ∃ t, Comes (round build lit dist) s t ∧ t.cursor = u := by
      intro u hu
      induction hu with
      | refl => exact ⟨s, .refl, rfl⟩
      | tail _ hnext ih =>
        obtain ⟨t, ht, rfl⟩ := ih
        obtain ⟨htracks, hne⟩ := (matches_round t).fits (hfits t ht)
        obtain ⟨next, hround, hview⟩ := htracks.exists_ok hne hnext
        cases next with
        | inl t' => exact ⟨t', ht.tail hround, Sum.inl.inj hview⟩
        | inr r => cases hview
    intro u hu
    obtain ⟨t, ht, rfl⟩ := hcomes u hu
    exact ⟨fun _ => t.out.fits, hfits t ht⟩

end Cursor

/-! ## Blocks -/

/-- A block is not compressed, or its long runs of literals fit. -/
def BlockFits (build : Build) (out : OutVec) (br : BitReader) : Prop :=
  ∀ bfinal br₁ btype br₂ lit dist br₃, br.read 1 = .ok (bfinal, br₁) →
    br₁.read 2 = .ok (btype, br₂) → btype ≠ 0 → blockTrees btype br₂ = .ok ((lit, dist), br₃) →
    LongRunsFit build.grow build.copyN lit dist
      (PreloadRoom.start build.grow out.bytes.length out.capacity br₃)

/-- Every block that the decoder comes to fits. -/
def BlocksFit (build : Build) (endBitHint : ℕ) (out : OutVec) (br : BitReader) : Prop :=
  ∀ t, Comes (blocksRound build endBitHint) (out, br) t → BlockFits build t.1 t.2

/-- Every block of the member that the decoder comes to fits. -/
def MemberFits (build : Build) (input : List UInt8) (startBit endBitHint : ℕ) (out : OutVec) :
    Prop :=
  ∀ br, (BitReader.new input).seekToBit startBit = .ok br → BlocksFit build endBitHint out br

section Fits

variable {build : Build} {input : List UInt8} {br : BitReader} {bs : List Bool}

/-- The loop faults exactly where its long runs of literals do not fit. -/
theorem decodeCompressedPreload_eq_fault_iff {lits dists : List ℕ} {lit dist : HuffmanDecoder}
    (hlen : lits.length ≤ 288) (hlit : lit.Implements lits .litLen)
    (hdist : dist.Implements dists .dist) (hat : br.At input bs) (out : OutVec) :
    decodeCompressedPreload build lit dist out br = .error .fault ↔
      ¬LongRunsFit build.grow build.copyN lit dist
        (PreloadRoom.start build.grow out.bytes.length out.capacity br) := by
  have hspec := Unbounded.kernelSpec_decodeCompressedPreload input lit dist lits dists out.bytes br
    bs hlen hlit hdist hat
  have hfuel : Unbounded.decodeCompressedPreload lit dist out.bytes br ≠ .error .outOfFuel := by
    intro h
    rw [h] at hspec
    exact hspec.1 rfl
  rw [Unbounded.decodeCompressedPreload, ← unbounded_start build out br] at hfuel
  rw [decodeCompressedPreload, Tracks.iterate_eq_fault_iff tracks_round hfuel, ← cursor_start]
  have hiff : LongRunsFit build.grow build.copyN lit dist (start build out br).cursor ↔
      NeverOverruns build.grow build.copyN lit dist (start build out br).cursor := by
    rw [cursor_start]
    exact ⟨neverOverruns_of_longRunsFit build.copyN_eq hlen hlit hdist rfl
      (start_reads hat _ _) (start_room _ 1 out.fits br), longRunsFit_of_neverOverruns⟩
  rw [hiff, neverOverruns_cursor_iff]
  simp only [not_forall, not_not, exists_prop]

/-- Stored bytes are pushed, and do not fault. -/
theorem pushBytes_ne_fault (n : ℕ) (out : OutVec) (br : BitReader) :
    pushBytes build n out br ≠ .error .fault := by
  induction n generalizing out br with
  | zero => exact ok_ne_fault _
  | succ n ih =>
    unfold pushBytes
    cases br.read 8 with
    | error e => exact error_ne_fault e
    | ok r => exact ih _ _

/-- A stored block does not fault. -/
theorem decodeStored_ne_fault (out : OutVec) (br : BitReader) :
    decodeStored build br out ≠ .error .fault := by
  unfold decodeStored
  simp only [bind, Except.bind]
  cases br.byteAlign.read 16 with
  | error e => exact error_ne_fault e
  | ok r =>
    simp only [lift_ok]
    cases r.2.read 16 with
    | error e => exact error_ne_fault e
    | ok r' =>
      simp only [lift_ok]
      split
      · exact error_ne_fault _
      · exact pushBytes_ne_fault _ _ _

/-- The contents of a block fault exactly where they are compressed and a long run of literals
does not fit. -/
theorem blockContents_eq_fault_iff (btype : ℕ) (out : OutVec) (hat : br.At input bs) :
    blockContents build btype out br = .error .fault ↔
      btype ≠ 0 ∧ ∃ lit dist br', blockTrees btype br = .ok ((lit, dist), br') ∧
        ¬LongRunsFit build.grow build.copyN lit dist
          (PreloadRoom.start build.grow out.bytes.length out.capacity br') := by
  unfold blockContents
  by_cases hstored : btype = 0
  · rw [if_pos hstored]
    exact iff_of_false (decodeStored_ne_fault out br) fun h => h.1 hstored
  have hagrees := agrees_blockTrees btype hat
  have hkernel {lit dist : HuffmanDecoder} {br' : BitReader}
      (htrees : blockTrees btype br = .ok ((lit, dist), br')) :
      decodeCompressedPreload build lit dist out br' = .error .fault ↔
        ¬LongRunsFit build.grow build.copyN lit dist
          (PreloadRoom.start build.grow out.bytes.length out.capacity br') := by
    obtain ⟨⟨lits, dists⟩, bs', hcodes, ⟨hlit, hdist⟩, hat'⟩ :=
      hagrees.sound (lit, dist) br' htrees
    exact decodeCompressedPreload_eq_fault_iff (readCodes_inv hcodes).2.2.2 hlit hdist hat' out
  rw [if_neg hstored, lift_bind_eq_fault]
  constructor
  · rintro ⟨⟨⟨lit, dist⟩, br'⟩, htrees, hfault⟩
    exact ⟨hstored, lit, dist, br', htrees, (hkernel htrees).mp hfault⟩
  · rintro ⟨-, lit, dist, br', htrees, hover⟩
    exact ⟨((lit, dist), br'), htrees, (hkernel htrees).mpr hover⟩

/-- A block faults where its contents do. -/
theorem decodeOneBlockPreload_eq_fault (out : OutVec) :
    decodeOneBlockPreload build out br = .error .fault ↔
      ∃ bfinal br₁ btype br₂, br.read 1 = .ok (bfinal, br₁) ∧ br₁.read 2 = .ok (btype, br₂) ∧
        blockContents build btype out br₂ = .error .fault := by
  unfold decodeOneBlockPreload
  rw [lift_bind_eq_fault]
  constructor
  · rintro ⟨⟨bfinal, br₁⟩, hfinal, hrest⟩
    obtain ⟨⟨btype, br₂⟩, htype, hrest⟩ := lift_bind_eq_fault.mp hrest
    have hcontents := (bind_eq_fault_of_total fun _ => ok_ne_fault _).mp hrest
    exact ⟨bfinal, br₁, btype, br₂, hfinal, htype, hcontents⟩
  · rintro ⟨bfinal, br₁, btype, br₂, hfinal, htype, hcontents⟩
    refine ⟨(bfinal, br₁), hfinal, lift_bind_eq_fault.mpr ⟨(btype, br₂), htype, ?_⟩⟩
    exact (bind_eq_fault_of_total fun _ => ok_ne_fault _).mpr hcontents

/-- A block faults exactly where it does not fit. -/
theorem decodeOneBlockPreload_eq_fault_iff (out : OutVec) (hat : br.At input bs) :
    decodeOneBlockPreload build out br = .error .fault ↔ ¬BlockFits build out br := by
  have hcontents {bfinal btype : ℕ} {br₁ br₂ : BitReader} (hfinal : br.read 1 = .ok (bfinal, br₁))
      (htype : br₁.read 2 = .ok (btype, br₂)) :
      blockContents build btype out br₂ = .error .fault ↔
        btype ≠ 0 ∧ ∃ lit dist br', blockTrees btype br₂ = .ok ((lit, dist), br') ∧
          ¬LongRunsFit build.grow build.copyN lit dist
            (PreloadRoom.start build.grow out.bytes.length out.capacity br') := by
    obtain ⟨_, bs₁, -, -, hat₁⟩ := (hat.agrees_read (by decide)).sound _ _ hfinal
    obtain ⟨_, bs₂, -, -, hat₂⟩ := (hat₁.agrees_read (by decide)).sound _ _ htype
    exact blockContents_eq_fault_iff btype out hat₂
  rw [decodeOneBlockPreload_eq_fault, BlockFits]
  simp only [not_forall, exists_prop]
  constructor
  · rintro ⟨bfinal, br₁, btype, br₂, hfinal, htype, hfault⟩
    obtain ⟨hstored, lit, dist, br₃, htrees, hover⟩ := (hcontents hfinal htype).mp hfault
    exact ⟨bfinal, br₁, btype, br₂, lit, dist, br₃, hfinal, htype, hstored, htrees, hover⟩
  · rintro ⟨bfinal, br₁, btype, br₂, lit, dist, br₃, hfinal, htype, hstored, htrees, hover⟩
    refine ⟨bfinal, br₁, btype, br₂, hfinal, htype, (hcontents hfinal htype).mpr ?_⟩
    exact ⟨hstored, lit, dist, br₃, htrees, hover⟩

/-- The blocks that the decoder comes to begin at bits of the input. -/
theorem exists_at_of_comes {endBitHint : ℕ} {s t : OutVec × BitReader}
    (h : Comes (blocksRound build endBitHint) s t) (hat : s.2.At input bs) :
    ∃ bs', t.2.At input bs' := by
  induction h with
  | refl => exact ⟨bs, hat⟩
  | @tail t t' _ hnext ih =>
    obtain ⟨bs', hat'⟩ := ih
    have hblock := Unbounded.decodesBlocks_decodeOneBlockPreload input t.1.bytes t.2 bs' hat'
    have hround := (tracks_blocksRound endBitHint t).ok_eq hnext
    unfold RustyRapidgzip.blocksRound at hround
    rw [show (unbounded t).1 = t.1.bytes from rfl, show (unbounded t).2 = t.2 from rfl] at hround
    cases hres : Unbounded.decodeOneBlockPreload t.1.bytes t.2 with
    | error e =>
      rw [hres] at hround
      cases hround
    | ok r =>
      obtain ⟨⟨bfinal, out'⟩, br'⟩ := r
      rw [hres] at hround hblock
      obtain ⟨rest, -, hat''⟩ := hblock
      simp only at hround
      split at hround
      · cases hround
      · split at hround
        · cases hround
        · injection hround with hround
          injection hround with hround
          injection hround with _ hbr
          exact ⟨rest, hbr ▸ hat''⟩

/-- A run of blocks faults exactly where some block that it comes to does not fit. -/
theorem decodeBlocks_eq_fault_iff (endBitHint : ℕ) (out : OutVec) (hat : br.At input bs) :
    decodeBlocks build endBitHint out br = .error .fault ↔
      ¬BlocksFit build endBitHint out br := by
  have hspec := blocksSpec_blocksWith Unbounded.decodesBlocks_decodeOneBlockPreload
    (fun br => decide (endBitHint ≤ br.tellBit)) (stopAt input endBitHint)
    (fun br bs hat => stopAt_eq endBitHint hat) out.bytes hat
  have hfuel : blocksWith Unbounded.decodeOneBlockPreload
      (fun br => decide (endBitHint ≤ br.tellBit)) out.bytes br ≠ .error .outOfFuel := by
    intro h
    rw [h] at hspec
    exact hspec.1 rfl
  have hround (t : OutVec × BitReader) :
      blocksRound build endBitHint t = .error .fault ↔
        decodeOneBlockPreload build t.1 t.2 = .error .fault := by
    unfold blocksRound
    cases decodeOneBlockPreload build t.1 t.2 with
    | error e => exact ⟨fun h => by cases h; rfl, fun h => by cases h; rfl⟩
    | ok r =>
      obtain ⟨⟨bfinal, out'⟩, br'⟩ := r
      refine ⟨fun h => ?_, nofun⟩
      simp only at h
      split at h
      · cases h
      · split at h <;> cases h
  rw [decodeBlocks, Tracks.iterate_eq_fault_iff (tracks_blocksRound endBitHint)
    (show Loop.iterate .outOfFuel _ _ (unbounded (out, br)) ≠ _ from hfuel), BlocksFit, not_forall]
  refine exists_congr fun t => ⟨fun ⟨hcomes, h⟩ => ?_, fun h => ?_⟩
  · obtain ⟨bs', hat'⟩ := exists_at_of_comes hcomes hat
    exact fun hfits => (decodeOneBlockPreload_eq_fault_iff t.1 hat').mp ((hround t).mp h)
      (hfits hcomes)
  · obtain ⟨hcomes, h⟩ := Classical.not_imp.mp h
    obtain ⟨bs', hat'⟩ := exists_at_of_comes hcomes hat
    exact ⟨hcomes, (hround t).mpr ((decodeOneBlockPreload_eq_fault_iff t.1 hat').mpr h)⟩

/-- The preload decoder faults exactly where some block of the member does not fit. -/
theorem decodeMemberU8Preload_eq_fault_iff (input : List UInt8) (startBit endBitHint : ℕ)
    (out : OutVec) :
    decodeMemberU8Preload build input startBit endBitHint out = .error .fault ↔
      ¬MemberFits build input startBit endBitHint out := by
  unfold decodeMemberU8Preload MemberFits
  rw [lift_bind_eq_fault]
  simp only [not_forall, exists_prop]
  refine exists_congr fun br => and_congr_right fun hseek => ?_
  rw [← decodeBlocks_eq_fault_iff endBitHint out (BitReader.at_of_seekToBit hseek).2]
  exact bind_eq_fault_of_total fun _ => ok_ne_fault _

end Fits

end Preload

end RustyRapidgzip
