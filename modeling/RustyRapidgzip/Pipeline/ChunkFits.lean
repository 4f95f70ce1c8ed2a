import RustyRapidgzip.Deflate.ShortInput
import RustyRapidgzip.Pipeline.Chunk

/-!
# Chunks that fit

A worker decodes a chunk as it would over an unbounded output, unless some member of it runs off
the chunk's vector. Where every member fits, whatever capacity the vector has come to have, the
two decoders return the same.
-/

namespace RustyRapidgzip

open LsbBits Reference Lz Stop

namespace Pipeline

/-- The loop's state without the capacity. -/
def ChunkState.unbounded (s : ChunkState VecChunk) : ChunkState SpeculativeChunk :=
  ⟨s.br, s.chunk.unbounded, s.memberBoundaries, s.firstMember⟩

/-- The member that the loop comes to next fits: behind the reserved bytes if it is the first one
of the chunk, and behind the bytes of the chunk otherwise. -/
def NextFits (build : Build) (capacity : ℕ) (body : List UInt8) (scratch : List ℕ)
    (endBitHint : ℕ) (s : ChunkState VecChunk) : Prop :=
  s.br.tellBit < endBitHint →
    if s.firstMember then
      Speculative.UntilFits build capacity body s.br.tellBit endBitHint s.chunk scratch
    else Preload.MemberFits build body s.br.tellBit endBitHint s.chunk.bytes

/-- Every member of the chunk fits that the loop comes to. -/
def ChunkFits (build : Build) (capacity : ℕ) (body : List UInt8) (scratch : List ℕ)
    (item : WorkItem) : Prop :=
  ∀ br, (BitReader.new body).seekToBit item.startBit = .ok br →
    ∀ s, Comes (chunkRound build capacity body scratch item.endBitHint)
        ⟨br, VecChunk.fresh (estOutput item), [], true⟩ s →
      NextFits build capacity body scratch item.endBitHint s

/-- The chunk fits, whatever buffers the worker has. -/
def ItemFits (build : Build) (body : List UInt8) (item : WorkItem) : Prop :=
  ∀ capacity scratch, ChunkFits build capacity body scratch item

section Tracks

variable {build : Build} {capacity : ℕ} {body : List UInt8} {scratch : List ℕ} {endBitHint : ℕ}

/-- A seek leads to its position. -/
theorem reads_of_seekToBit {br br' : BitReader} {pos : ℕ} (hbr : br.input = body)
    (h : br.seekToBit pos = .ok br') : br'.Reads body pos := by
  subst hbr
  by_cases hle : pos ≤ 8 * br.input.length
  · obtain ⟨br₁, hok, hr, -⟩ := BitReader.seekToBit_ok br hle
    rw [h] at hok
    cases hok
    exact hr
  · rw [BitReader.seekToBit_eof br (by omega)] at h
    cases h

/-- Without its capacity a member is the one over a list. -/
theorem tracks_decodeMember (firstMember : Bool) (pos : ℕ) (chunk : VecChunk) :
    Tracks (fun r => (r.1, r.2.unbounded))
      (decodeMember build capacity body scratch endBitHint firstMember pos chunk)
      (Unbounded.decodeMember body scratch endBitHint firstMember pos chunk.unbounded) := by
  unfold decodeMember Unbounded.decodeMember
  cases firstMember with
  | true => exact Speculative.tracks_decodeUntilU16 body pos endBitHint chunk scratch
  | false =>
    exact (Preload.tracks_decodeMemberU8Preload body pos endBitHint chunk.bytes).bind fun a _ =>
      .ok (a.1, VecChunk.mk a.2 chunk.markers)

/-- A member runs off the vector exactly where it does not fit. -/
theorem decodeMember_eq_fault_iff (s : ChunkState VecChunk) (hpos : s.br.tellBit < endBitHint) :
    decodeMember build capacity body scratch endBitHint s.firstMember s.br.tellBit s.chunk =
        .error .fault ↔
      ¬NextFits build capacity body scratch endBitHint s := by
  obtain ⟨br, chunk, boundaries, firstMember⟩ := s
  simp only [NextFits, hpos, forall_const]
  unfold decodeMember
  cases firstMember with
  | true => exact Speculative.decodeUntilU16_eq_fault_iff body br.tellBit endBitHint chunk scratch
  | false =>
    have hiff := @Preload.decodeMemberU8Preload_eq_fault_iff build body br.tellBit
      endBitHint chunk.bytes
    simp only [Bool.false_eq_true, if_false, decodeSubsequentMember]
    rw [← hiff]
    exact bind_eq_fault_of_total fun _ => ok_ne_fault _

/-- The end of a member does not look at the capacity. -/
theorem endMember_unbounded (len : ℕ) (s : ChunkState VecChunk) :
    endMember body len s.unbounded =
      (endMember body len s).map (Prod.map id ChunkState.unbounded) := by
  unfold endMember
  rw [show s.unbounded.br = s.br from rfl]
  cases readTrailer body s.br with
  | error e => rfl
  | ok trailer =>
    simp only [bind, Except.bind]
    split
    · cases s.br.seekToBit ((trailer.trailerInputByte + 8) * 8) <;> rfl
    · cases Gzip.parseHeader (body.drop (trailer.trailerInputByte + 8)) with
      | error e => rfl
      | ok headerLen =>
        simp only [liftGzip_ok]
        cases s.br.seekToBit ((trailer.trailerInputByte + 8 + headerLen) * 8) <;> rfl

/-- A round does what it does over an unbounded output, unless it faults. -/
theorem tracks_chunkRound (s : ChunkState VecChunk) :
    Tracks (Sum.map ChunkState.unbounded (Prod.map id ChunkState.unbounded))
      (chunkRound build capacity body scratch endBitHint s)
      (Unbounded.chunkRound body scratch endBitHint s.unbounded) := by
  unfold chunkRound Unbounded.chunkRound
  rw [show s.unbounded.br = s.br from rfl]
  simp only
  by_cases hfull : endBitHint ≤ s.br.tellBit
  · rw [if_pos hfull, if_pos hfull]
    exact .ok (Sum.inr (false, s))
  rw [if_neg hfull, if_neg hfull]
  refine ((tracks_decodeMember s.firstMember s.br.tellBit s.chunk).map_error Error.deflate).bind ?_
  rintro ⟨⟨newEnd, hitBfinal⟩, chunk⟩ -
  simp only
  cases s.br.seekToBit newEnd with
  | error e => exact .error (Error.deflate e)
  | ok br =>
    simp only [liftDeflate_ok, lift_ok, bind, Except.bind]
    cases hitBfinal with
    | false =>
      exact .ok (Sum.inr (false, ChunkState.mk br chunk s.memberBoundaries false))
    | true =>
      have hend := @endMember_unbounded body chunk.bytes.bytes.length
        (ChunkState.mk br chunk s.memberBoundaries false)
      simp only [if_true]
      rw [show endMember body chunk.unbounded.bytes.length
          ⟨br, chunk.unbounded, s.unbounded.memberBoundaries, false⟩ = _ from hend]
      cases endMember body chunk.bytes.bytes.length ⟨br, chunk, s.memberBoundaries, false⟩ with
      | error e => exact .error e
      | ok r =>
        obtain ⟨finalBlock, s'⟩ := r
        cases finalBlock with
        | true => exact .ok (Sum.inr (true, s'))
        | false => exact .ok (Sum.inl s')

/-- A round faults exactly where the next member does not fit. -/
theorem chunkRound_eq_fault_iff (s : ChunkState VecChunk) :
    chunkRound build capacity body scratch endBitHint s = .error .fault ↔
      ¬NextFits build capacity body scratch endBitHint s := by
  by_cases hfull : endBitHint ≤ s.br.tellBit
  · unfold chunkRound
    simp only [if_pos hfull]
    exact ⟨nofun, fun h => absurd (fun hpos => absurd hfull (Nat.not_le.mpr hpos)) h⟩
  rw [← decodeMember_eq_fault_iff s (Nat.not_le.mp hfull)]
  unfold chunkRound
  simp only [if_neg hfull]
  rw [bind_eq_fault, mapError_eq_fault]
  apply or_iff_left
  rintro ⟨⟨⟨newEnd, hitBfinal⟩, chunk⟩, -, hrest⟩
  simp only at hrest
  cases hseek : s.br.seekToBit newEnd with
  | error e =>
    rw [hseek] at hrest
    cases hrest
  | ok br =>
    rw [hseek] at hrest
    simp only [liftDeflate_ok, lift_ok, bind, Except.bind] at hrest
    cases hitBfinal with
    | false => cases hrest
    | true =>
      simp only [if_true] at hrest
      cases hend : endMember body chunk.bytes.bytes.length
        ⟨br, chunk, s.memberBoundaries, false⟩ with
      | error e =>
        rw [hend] at hrest
        cases hrest
      | ok r =>
        rw [hend, lift_ok] at hrest
        simp only at hrest
        split at hrest <;> cases hrest

/-- A worker decodes a chunk as over an unbounded output, unless it faults. -/
theorem tracks_decodeOneChunk (item : WorkItem) :
    Tracks id (decodeOneChunk build capacity body scratch item)
      (Unbounded.decodeOneChunk body scratch item) := by
  unfold decodeOneChunk Unbounded.decodeOneChunk
  cases (BitReader.new body).seekToBit item.startBit with
  | error e => exact .error (Error.deflate e)
  | ok br =>
    exact (tracks_iterate (fun s => tracks_chunkRound s) (8 * body.length + 1)
      ⟨br, VecChunk.fresh (estOutput item), [], true⟩).bind fun a _ =>
        .ok (WorkResult.mk item.id a.2.chunk.unbounded a.1 a.2.memberBoundaries a.2.br.tellBit)

/-- A worker runs off the chunk's vector exactly where some member does not fit. -/
theorem decodeOneChunk_eq_fault_iff (item : WorkItem) :
    decodeOneChunk build capacity body scratch item = .error .fault ↔
      ¬ChunkFits build capacity body scratch item := by
  have hloop {br : BitReader} (hseek : (BitReader.new body).seekToBit item.startBit = .ok br) :
      Loop.iterate (.error (.deflate .outOfFuel))
          (chunkRound build capacity body scratch item.endBitHint) (8 * body.length + 1)
          ⟨br, VecChunk.fresh (estOutput item), [], true⟩ = .error .fault ↔
        ∃ s, Comes (chunkRound build capacity body scratch item.endBitHint)
            ⟨br, VecChunk.fresh (estOutput item), [], true⟩ s ∧
          chunkRound build capacity body scratch item.endBitHint s = .error .fault := by
    refine Tracks.iterate_eq_fault_iff (fun s => tracks_chunkRound s) fun h => ?_
    have hr := reads_of_seekToBit (BitReader.new_reads body).input_eq hseek
    have hspec := @loopSpec_iterate _ scratch item.endBitHint _ true [] _ _ [] (fun _ => rfl) hr
      (show 8 * body.length - item.startBit < 8 * body.length + 1 by omega)
    rw [show (⟨br, chunkOf [], [], true⟩ : ChunkState SpeculativeChunk) =
      ChunkState.unbounded ⟨br, VecChunk.fresh (estOutput item), [], true⟩ from rfl, h] at hspec
    exact hspec.1 rfl
  unfold decodeOneChunk ChunkFits
  rw [lift_bind_eq_fault]
  simp only [not_forall, exists_prop]
  refine exists_congr fun br => ?_
  rw [liftDeflate_eq_ok]
  refine and_congr_right fun hseek => ?_
  rw [bind_eq_fault_of_total fun _ => ok_ne_fault _, hloop hseek]
  simp only [chunkRound_eq_fault_iff]

/-- A chunk that fits is decoded as over an unbounded output. -/
theorem ItemFits.decodeOneChunk_eq {item : WorkItem} (h : ItemFits build body item) :
    decodeOneChunk build capacity body scratch item =
      lift (Unbounded.decodeOneChunk body scratch item) := by
  have hne : decodeOneChunk build capacity body scratch item ≠ .error .fault :=
    fun hfault => (decodeOneChunk_eq_fault_iff item).mp hfault (h capacity scratch)
  have heq := (tracks_decodeOneChunk item).eq_lift hne
  rwa [show Except.map id (decodeOneChunk build capacity body scratch item) =
    decodeOneChunk build capacity body scratch item by
      cases decodeOneChunk build capacity body scratch item <;> rfl] at heq

end Tracks

/-! ## Short bodies -/

/-- Behind every header that stands in the body there is a final block, stored or fixed. -/
def plainMembers (body : List UInt8) : Bool :=
  (List.range body.length).all fun i =>
    match Gzip.parseHeader (body.drop i) with
    | .ok n =>
      match (bits body).drop ((i + n) * 8) with
      | true :: _ :: false :: _ => true
      | _ => false
    | .error _ => true

section Short

variable {build : Build} {capacity : ℕ} {body : List UInt8} {scratch : List ℕ} {endBitHint : ℕ}

/-- The loop stands at the start of the chunk, or behind a header. -/
def BehindHeader (body : List UInt8) (s : ChunkState VecChunk) : Prop :=
  s.br.input = body ∧ (s.firstMember = false → ∃ i < body.length, ∃ n,
    Gzip.parseHeader (body.drop i) = .ok n ∧ s.br.tellBit = (i + n) * 8)

/-- A round ends behind the header of the next member. -/
theorem BehindHeader.chunkRound {s s' : ChunkState VecChunk} (h : BehindHeader body s)
    (hround : chunkRound build capacity body scratch endBitHint s = .ok (.inl s')) :
    BehindHeader body s' := by
  unfold Pipeline.chunkRound at hround
  simp only at hround
  by_cases hfull : endBitHint ≤ s.br.tellBit
  · rw [if_pos hfull] at hround
    cases hround
  rw [if_neg hfull] at hround
  cases hdecode : decodeMember build capacity body scratch endBitHint s.firstMember s.br.tellBit
    s.chunk with
  | error e =>
    rw [hdecode] at hround
    cases e <;> cases hround
  | ok r =>
    obtain ⟨⟨newEnd, hitBfinal⟩, chunk⟩ := r
    rw [hdecode] at hround
    simp only [Stop.mapError, bind, Except.bind] at hround
    cases hseek : s.br.seekToBit newEnd with
    | error e =>
      rw [hseek] at hround
      cases hround
    | ok br =>
      rw [hseek] at hround
      simp only [liftDeflate_ok, lift_ok] at hround
      cases hitBfinal with
      | false => cases hround
      | true =>
        have hr := reads_of_seekToBit h.1 hseek
        simp only [if_true] at hround
        rcases @endMember_cases _ _ _ (ChunkState.mk br chunk s.memberBoundaries false)
            chunk.bytes.bytes.length hr with
          ⟨err, herr, -⟩ | ⟨trailer, br₁, -, -, -, hok⟩ |
          ⟨trailer, start, br₁, htrailer, hnext, hr₁, hok⟩
        · rw [herr] at hround
          cases hround
        · rw [hok] at hround
          cases hround
        · rw [hok] at hround
          cases hround
          unfold nextMember at hnext
          simp only at hnext
          split at hnext
          · cases hnext
          next hmore =>
          cases hparse : Gzip.parseHeader (body.drop (trailer.trailerInputByte + 8)) with
          | error err =>
            rw [hparse] at hnext
            cases hnext
          | ok n =>
            rw [hparse] at hnext
            cases hnext
            exact ⟨hr₁.input_eq, fun _ => ⟨_, Nat.not_le.mp hmore, n, hparse, hr₁.tellBit_eq⟩⟩

/-- The chunks of a short body whose later members are one stored or fixed block fit. -/
theorem itemFits_of_plainMembers (build : Build) (hshort : body.length ≤ 63)
    (hplain : plainMembers body = true) (item : WorkItem) : ItemFits build body item := by
  intro capacity scratch br hseek s hcomes
  have hbehind : BehindHeader body s := by
    induction hcomes with
    | refl =>
      exact ⟨(reads_of_seekToBit (BitReader.new_reads body).input_eq hseek).input_eq, nofun⟩
    | tail _ hround ih => exact ih.chunkRound hround
  intro _
  cases hfirst : s.firstMember with
  | true =>
    rw [if_pos rfl]
    exact Speculative.untilFits_of_short build capacity hshort _ _ _ _
  | false =>
    rw [if_neg Bool.false_ne_true]
    obtain ⟨i, hi, n, hparse, htell⟩ := hbehind.2 hfirst
    rw [plainMembers, List.all_eq_true] at hplain
    have hblock := hplain i (List.mem_range.mpr hi)
    simp only [hparse, ← htell] at hblock
    split at hblock
    next hbits => exact Preload.memberFits_of_plain build hbits _ _
    next => cases hblock

end Short

end Pipeline

end RustyRapidgzip
