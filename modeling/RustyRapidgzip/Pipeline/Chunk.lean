import RustyRapidgzip.Deflate.Until
import RustyRapidgzip.Gzip.Member

/-!
# Decoding one chunk

A chunk is decoded from a bit position of the body up to a block that ends at or after
the next boundary. Members may end inside it: their trailers are recorded as boundaries,
and the first block of the next member follows its header. Only the first member of a
chunk can reach into unknown history. The later ones are decoded by the preload kernel into the
chunk's vector, and may run off it; where none does, the chunk is what it is over an unbounded
output.
-/

namespace RustyRapidgzip

open LsbBits Reference Lz Crc Stop

namespace Pipeline

/-- The errors of the pipelines. -/
inductive Error where
  | gzip (e : Gzip.GzipError)
  | deflate (e : DeflateError)
  | io (msg : String)
  deriving DecidableEq, Repr

/-- One unit of speculative decode work. -/
structure WorkItem where
  id : ℕ
  startBit : ℕ
  endBitHint : ℕ
  deriving DecidableEq, Repr

/-- A member's trailer and the place of its first byte in the body. -/
structure Trailer where
  crcExpected : ℕ
  isizeExpected : ℕ
  trailerInputByte : ℕ
  deriving DecidableEq, Repr

/-- A trailer and the offset in the chunk's bytes where its member ends. -/
structure MemberBoundary extends Trailer where
  byteOffsetInChunk : ℕ
  deriving DecidableEq, Repr

/-- A decoded chunk. -/
structure WorkResult where
  id : ℕ
  chunk : SpeculativeChunk
  finalBlock : Bool
  memberBoundaries : List MemberBoundary
  actualEndBit : ℕ
  deriving DecidableEq, Repr

/-- The errors of the inflaters as errors of the pipeline. -/
def liftDeflate {α : Type} : Except DeflateError α → Except Error α := Except.mapError .deflate

/-- The errors of the framing as errors of the pipeline. -/
def liftGzip {α : Type} : Except Gzip.GzipError α → Except Error α := Except.mapError .gzip

/-- Align to a byte and read the eight bytes of the trailer. -/
def readTrailer (body : List UInt8) (br : BitReader) : Except Error Trailer :=
  let trailerByte := br.byteAlign.tellBit / 8
  if body.length < trailerByte + 8 then .error (.gzip .truncated)
  else .ok
    { crcExpected := leNat ((body.drop trailerByte).take 4)
      isizeExpected := leNat ((body.drop (trailerByte + 4)).take 4)
      trailerInputByte := trailerByte }

/-- The loop over the members of a chunk. -/
structure ChunkState (γ : Type) where
  br : BitReader
  chunk : γ
  memberBoundaries : List MemberBoundary
  firstMember : Bool

/-- After a member's final block, with so many bytes in the chunk: record its trailer, and go on
to the next member's first block or to the end of the body. The flag tells the end. -/
def endMember {γ : Type} (body : List UInt8) (len : ℕ) (s : ChunkState γ) :
    Except Error (Bool × ChunkState γ) := do
  let trailer ← readTrailer body s.br
  let boundary : MemberBoundary := { trailer with byteOffsetInChunk := len }
  let s := { s with memberBoundaries := s.memberBoundaries ++ [boundary] }
  let afterTrailer := trailer.trailerInputByte + 8
  if body.length ≤ afterTrailer then do
    let br ← liftDeflate (s.br.seekToBit (afterTrailer * 8))
    .ok (true, { s with br := br })
  else do
    let headerLen ← liftGzip (Gzip.parseHeader (body.drop afterTrailer))
    let br ← liftDeflate (s.br.seekToBit ((afterTrailer + headerLen) * 8))
    .ok (false, { s with br := br })

section Vector

variable (build : Build)

/-- Decode a later member of a chunk; it starts with the chunk's bytes as its output. -/
def decodeSubsequentMember (body : List UInt8) (pos endBitHint : ℕ) (out : OutVec) :
    Except (Stop DeflateError) ((ℕ × Bool) × OutVec) :=
  Preload.decodeMemberU8Preload build body pos endBitHint out

/-- The blocks of one member of a chunk. -/
def decodeMember (capacity : ℕ) (body : List UInt8) (scratch : List ℕ) (endBitHint : ℕ)
    (firstMember : Bool) (pos : ℕ) (chunk : VecChunk) :
    Except (Stop DeflateError) ((ℕ × Bool) × VecChunk) :=
  if firstMember then
    Speculative.decodeUntilU16 build capacity body pos endBitHint chunk scratch
  else do
    let (r, bytes) ← decodeSubsequentMember build body pos endBitHint chunk.bytes
    .ok (r, { chunk with bytes := bytes })

/-- One round of the member loop. It ends with the flag of the body's end. -/
def chunkRound (capacity : ℕ) (body : List UInt8) (scratch : List ℕ) (endBitHint : ℕ)
    (s : ChunkState VecChunk) :
    Except (Stop Error) (ChunkState VecChunk ⊕ (Bool × ChunkState VecChunk)) :=
  let pos := s.br.tellBit
  if endBitHint ≤ pos then .ok (.inr (false, s))
  else do
    let ((newEnd, hitBfinal), chunk) ← Stop.mapError .deflate
      (decodeMember build capacity body scratch endBitHint s.firstMember pos s.chunk)
    let br ← lift (liftDeflate (s.br.seekToBit newEnd))
    let s := { s with br := br, chunk := chunk, firstMember := false }
    if hitBfinal then do
      let (finalBlock, s) ← lift (endMember body chunk.bytes.bytes.length s)
      if finalBlock then .ok (.inr (true, s)) else .ok (.inl s)
    else .ok (.inr (false, s))

/-- The bytes that are reserved for a chunk: three for each byte of its span. -/
def estOutput (item : WorkItem) : ℕ :=
  let spanBits := item.endBitHint - item.startBit
  if spanBits ≠ 2 ^ 64 - 1 ∧ 0 < spanBits then min (spanBits / 8 * 3) (64 * 1024 * 1024) else 0

/-- Decode one chunk with a worker's buffers. The vector has the given capacity when the cells of
the first member are in it, or more: a recycled one may have any. Each member has a bit, which
bounds the rounds. -/
def decodeOneChunk (capacity : ℕ) (body : List UInt8) (scratch : List ℕ) (item : WorkItem) :
    Except (Stop Error) WorkResult := do
  let br ← lift (liftDeflate ((BitReader.new body).seekToBit item.startBit))
  let (finalBlock, s) ← Loop.iterate (.error (.deflate .outOfFuel))
    (chunkRound build capacity body scratch item.endBitHint) (8 * body.length + 1)
    ⟨br, VecChunk.fresh (estOutput item), [], true⟩
  .ok
    { id := item.id
      chunk := s.chunk.unbounded
      finalBlock := finalBlock
      memberBoundaries := s.memberBoundaries
      actualEndBit := s.br.tellBit }

end Vector

namespace Unbounded

/-- Decode a later member of a chunk, over an unbounded output. -/
def decodeSubsequentMember (body : List UInt8) (pos endBitHint : ℕ) (out : List UInt8) :
    Except DeflateError ((ℕ × Bool) × List UInt8) :=
  Unbounded.decodeMemberU8Preload body pos endBitHint out

/-- The blocks of one member of a chunk. -/
def decodeMember (body : List UInt8) (scratch : List ℕ) (endBitHint : ℕ) (firstMember : Bool)
    (pos : ℕ) (chunk : SpeculativeChunk) :
    Except DeflateError ((ℕ × Bool) × SpeculativeChunk) :=
  if firstMember then Unbounded.decodeUntilU16 body pos endBitHint chunk scratch
  else do
    let (r, bytes) ← decodeSubsequentMember body pos endBitHint chunk.bytes
    .ok (r, { chunk with bytes := bytes })

/-- One round of the member loop. -/
def chunkRound (body : List UInt8) (scratch : List ℕ) (endBitHint : ℕ)
    (s : ChunkState SpeculativeChunk) :
    Except Error (ChunkState SpeculativeChunk ⊕ (Bool × ChunkState SpeculativeChunk)) :=
  let pos := s.br.tellBit
  if endBitHint ≤ pos then .ok (.inr (false, s))
  else do
    let ((newEnd, hitBfinal), chunk) ←
      liftDeflate (decodeMember body scratch endBitHint s.firstMember pos s.chunk)
    let br ← liftDeflate (s.br.seekToBit newEnd)
    let s := { s with br := br, chunk := chunk, firstMember := false }
    if hitBfinal then do
      let (finalBlock, s) ← endMember body chunk.bytes.length s
      if finalBlock then .ok (.inr (true, s)) else .ok (.inl s)
    else .ok (.inr (false, s))

/-- Decode one chunk over an unbounded output. -/
def decodeOneChunk (body : List UInt8) (scratch : List ℕ) (item : WorkItem) :
    Except Error WorkResult := do
  let br ← liftDeflate ((BitReader.new body).seekToBit item.startBit)
  let (finalBlock, s) ← Loop.iterate (.deflate .outOfFuel)
    (chunkRound body scratch item.endBitHint) (8 * body.length + 1) ⟨br, ⟨[], []⟩, [], true⟩
  .ok
    { id := item.id
      chunk := s.chunk
      finalBlock := finalBlock
      memberBoundaries := s.memberBoundaries
      actualEndBit := s.br.tellBit }

end Unbounded

/-! ## What a chunk holds -/

/-- The trailer after a member that ends at a bit position. -/
def trailerAt (body : List UInt8) (endBit : ℕ) : Except Error Trailer :=
  let trailerByte := (endBit + 7) / 8
  if body.length < trailerByte + 8 then .error (.gzip .truncated)
  else .ok
    { crcExpected := leNat ((body.drop trailerByte).take 4)
      isizeExpected := leNat ((body.drop (trailerByte + 4)).take 4)
      trailerInputByte := trailerByte }

/-- The first block of the member after a trailer, or `none` at the end of the body. -/
def nextMember (body : List UInt8) (trailer : Trailer) : Except Error (Option ℕ) :=
  let afterTrailer := trailer.trailerInputByte + 8
  if body.length ≤ afterTrailer then .ok none
  else do
    let headerLen ← liftGzip (Gzip.parseHeader (body.drop afterTrailer))
    .ok (some ((afterTrailer + headerLen) * 8))

/-- What one member adds to the cells of a chunk: the first one is expanded behind the
unknown history, later ones behind the bytes of the chunk. -/
def Adds (first : Bool) (cells : List ℕ) (ts : List Token) (cells' : List ℕ) : Prop :=
  if first then
    cells = [] ∧ expand UInt8.toNat markerPrefix ts = some (markerPrefix ++ cells')
  else ∃ more : List UInt8, expand id (cells.map narrow) ts = some (cells.map narrow ++ more) ∧
    cells' = cells ++ more.map UInt8.toNat

/-- The cells and the tokens determine what is added. -/
theorem Adds.unique {first : Bool} {cells cells₁ cells₂ : List ℕ} {ts : List Token}
    (h₁ : Adds first cells ts cells₁) (h₂ : Adds first cells ts cells₂) : cells₁ = cells₂ := by
  cases first with
  | true =>
    obtain ⟨-, h₁⟩ := h₁
    obtain ⟨-, h₂⟩ := h₂
    rw [h₁] at h₂
    exact List.append_cancel_left (Option.some.inj h₂)
  | false =>
    obtain ⟨more₁, h₁, rfl⟩ := h₁
    obtain ⟨more₂, h₂, rfl⟩ := h₂
    rw [h₁] at h₂
    rw [List.append_cancel_left (Option.some.inj h₂)]

/-- What decoding a chunk leads to: the members that end in it, the tokens of the member
that goes on after it, the end, and the cells. -/
structure ChunkEnd where
  members : List (List Token × MemberBoundary)
  tail : List Token
  endBit : ℕ
  finalBlock : Bool
  cells : List ℕ

/-- Decoding a chunk, from a member of it on. -/
inductive ChunkRun (room : ℕ) (body : List UInt8) (endBitHint : ℕ) :
    Bool → ℕ → List ℕ → ChunkEnd → Prop
  | full {first : Bool} {pos : ℕ} {cells : List ℕ} (hpos : endBitHint ≤ pos) :
      ChunkRun room body endBitHint first pos cells ⟨[], [], pos, false, cells⟩
  | part {first : Bool} {pos : ℕ} {cells cells' : List ℕ} {ts : List Token} {rest : List Bool}
      (hpos : pos < endBitHint)
      (hblocks : Blocks room (stopAt body endBitHint) ((bits body).drop pos) false ts rest)
      (hadds : Adds first cells ts cells') :
      ChunkRun room body endBitHint first pos cells
        ⟨[], ts, 8 * body.length - rest.length, false, cells'⟩
  | last {first : Bool} {pos : ℕ} {cells cells' : List ℕ} {ts : List Token} {rest : List Bool}
      {trailer : Trailer} (hpos : pos < endBitHint)
      (hblocks : Blocks room (stopAt body endBitHint) ((bits body).drop pos) true ts rest)
      (hadds : Adds first cells ts cells')
      (htrailer : trailerAt body (8 * body.length - rest.length) = .ok trailer)
      (hnext : nextMember body trailer = .ok none) :
      ChunkRun room body endBitHint first pos cells
        ⟨[(ts, ⟨trailer, cells'.length⟩)], [], 8 * body.length, true, cells'⟩
  | next {first : Bool} {pos start : ℕ} {cells cells' : List ℕ} {ts : List Token}
      {rest : List Bool} {trailer : Trailer} {r : ChunkEnd} (hpos : pos < endBitHint)
      (hblocks : Blocks room (stopAt body endBitHint) ((bits body).drop pos) true ts rest)
      (hadds : Adds first cells ts cells')
      (htrailer : trailerAt body (8 * body.length - rest.length) = .ok trailer)
      (hnext : nextMember body trailer = .ok (some start))
      (hrun : ChunkRun room body endBitHint false start cells' r) :
      ChunkRun room body endBitHint first pos cells
        { r with members := (ts, ⟨trailer, cells'.length⟩) :: r.members }

section Spec

variable {body : List UInt8} {scratch : List ℕ} {endBitHint pos e : ℕ} {first : Bool}
  {cells cells' : List ℕ}

/-- A result stays one. -/
@[simp] theorem liftDeflate_ok {α : Type} (a : α) : liftDeflate (.ok a) = .ok a := rfl

/-- An error of the decoder is reported as such. -/
@[simp] theorem liftDeflate_error {α : Type} (e : DeflateError) :
    (liftDeflate (.error e) : Except Error α) = .error (.deflate e) := rfl

/-- The renamed result is the result. -/
theorem liftDeflate_eq_ok {α : Type} {r : Except DeflateError α} {a : α} :
    liftDeflate r = .ok a ↔ r = .ok a := by
  cases r with
  | error e => simp
  | ok b => simp

/-- A result stays one. -/
@[simp] theorem liftGzip_ok {α : Type} (a : α) : liftGzip (.ok a) = .ok a := rfl

/-- An error of the format is reported as such. -/
@[simp] theorem liftGzip_error {α : Type} (e : Gzip.GzipError) :
    (liftGzip (.error e) : Except Error α) = .error (.gzip e) := rfl

/-- Seeking inside the body, with any reader of it. -/
theorem seekToBit_reads {br : BitReader} (hbr : br.input = body) (hpos : pos ≤ 8 * body.length) :
    ∃ br', br.seekToBit pos = .ok br' ∧ br'.Reads body pos := by
  subst hbr
  obtain ⟨br', hok, hr, -⟩ := BitReader.seekToBit_ok br hpos
  exact ⟨br', hok, hr⟩

/-- What the blocks of a member return. -/
def DecodeMemberSpec (body : List UInt8) (endBitHint : ℕ) (first : Bool) (pos : ℕ)
    (cells : List ℕ) : Except DeflateError ((ℕ × Bool) × SpeculativeChunk) → Prop
  | .error e => e ≠ .outOfFuel ∧ ∀ f ts rest cells', pos ≤ 8 * body.length →
      Blocks 48 (stopAt body endBitHint) ((bits body).drop pos) f ts rest →
      ¬Adds first cells ts cells'
  | .ok ((e, f), chunk) => ∃ ts rest cells',
      Blocks 0 (stopAt body endBitHint) ((bits body).drop pos) f ts rest ∧
      e + rest.length = 8 * body.length ∧ Adds first cells ts cells' ∧ chunk = chunkOf cells'

/-- What the decoder of a member decodes. -/
theorem decodeMember_spec (body : List UInt8) (scratch : List ℕ) (endBitHint pos : ℕ)
    {cells : List ℕ} (hfirst : first = true → cells = []) :
    DecodeMemberSpec body endBitHint first pos cells
      (Unbounded.decodeMember body scratch endBitHint first pos (chunkOf cells)) := by
  unfold Unbounded.decodeMember
  cases first with
  | true =>
    obtain rfl := hfirst rfl
    have hspec := Speculative.untilSpec_decodeUntilU16 body pos endBitHint scratch
    rw [if_pos rfl, show chunkOf [] = ⟨[], []⟩ from rfl]
    revert hspec
    cases Unbounded.decodeUntilU16 body pos endBitHint ⟨[], []⟩ scratch with
    | error e =>
      rintro ⟨he, hnone⟩
      exact ⟨he, fun f ts rest _ hle hblocks => absurd hblocks (hnone f ts rest hle)⟩
    | ok r =>
      obtain ⟨⟨e, f⟩, chunk⟩ := r
      rintro ⟨-, ts, rest, cells', hblocks, he, hcells, rfl⟩
      exact ⟨ts, rest, cells', hblocks, he, by simp [Adds, hcells], rfl⟩
  | false =>
    have hspec := memberSpec_memberWith Unbounded.decodesBlocks_decodeOneBlockPreload body pos
      endBitHint (cells.map narrow)
    rw [if_neg (by simp), Unbounded.decodeSubsequentMember, Unbounded.decodeMemberU8Preload,
      show (chunkOf cells).bytes = cells.map narrow from rfl]
    revert hspec
    cases memberWith Unbounded.decodeOneBlockPreload body pos endBitHint (cells.map narrow) with
    | error e =>
      rintro ⟨he, hnone⟩
      refine ⟨he, ?_⟩
      rintro f ts rest _ hle hblocks ⟨more, hmore, -⟩
      rw [hnone f ts rest hle hblocks] at hmore
      cases hmore
    | ok r =>
      obtain ⟨⟨e, f⟩, bytes⟩ := r
      rintro ⟨-, ts, rest, hblocks, he, hbytes⟩
      obtain ⟨more, rfl⟩ := expand_extends hbytes
      exact ⟨ts, rest, _, hblocks, he, ⟨more, hbytes, rfl⟩, (chunkOf_append_bytes cells more).symm⟩

/-- The trailer that is read is the one behind the member. -/
theorem readTrailer_eq {br : BitReader} (hr : br.Reads body e) :
    readTrailer body br = trailerAt body e := by
  have halign := hr.byteAlign.tellBit_eq
  rw [readTrailer, trailerAt, halign, Nat.mul_div_cancel _ (by decide)]

/-- A trailer starts at the next byte, and lies within the body. -/
theorem trailerAt_ok {trailer : Trailer} (h : trailerAt body e = .ok trailer) :
    trailer.trailerInputByte = (e + 7) / 8 ∧ (e + 7) / 8 + 8 ≤ body.length := by
  unfold trailerAt at h
  simp only at h
  split at h
  · cases h
  · cases h
    exact ⟨rfl, by omega⟩

/-- The next member starts behind its header. -/
theorem nextMember_some {trailer : Trailer} {start : ℕ}
    (h : nextMember body trailer = .ok (some start)) :
    8 * (trailer.trailerInputByte + 8) < start ∧ start ≤ 8 * body.length := by
  unfold nextMember at h
  simp only at h
  split at h
  · cases h
  · cases hparse : Gzip.parseHeader (body.drop (trailer.trailerInputByte + 8)) with
    | error err =>
      rw [hparse] at h
      cases h
    | ok headerLen =>
      rw [hparse] at h
      cases h
      obtain ⟨hge, hle⟩ := Gzip.parseHeader_bounds hparse
      rw [List.length_drop] at hle
      omega

/-- Behind the last trailer the body ends. -/
theorem nextMember_none {trailer : Trailer} (h : nextMember body trailer = .ok none) :
    body.length ≤ trailer.trailerInputByte + 8 := by
  unfold nextMember at h
  simp only at h
  split at h
  · assumption
  · cases hparse : Gzip.parseHeader (body.drop (trailer.trailerInputByte + 8)) with
    | error err =>
      rw [hparse] at h
      cases h
    | ok headerLen =>
      rw [hparse] at h
      cases h

/-- A member ends with a trailer and then the next member or the end of the body, or the
framing is broken. -/
theorem endMember_cases {γ : Type} {s : ChunkState γ} {len : ℕ} (hr : s.br.Reads body e) :
    (∃ err, endMember body len s = .error err ∧ err ≠ .deflate .outOfFuel ∧
      ∀ trailer next, trailerAt body e = .ok trailer → nextMember body trailer ≠ .ok next) ∨
    (∃ trailer br, trailerAt body e = .ok trailer ∧ nextMember body trailer = .ok none ∧
      br.Reads body (8 * body.length) ∧ endMember body len s = .ok (true, { s with
        br := br
        memberBoundaries := s.memberBoundaries ++ [⟨trailer, len⟩] })) ∨
    (∃ trailer start br, trailerAt body e = .ok trailer ∧
      nextMember body trailer = .ok (some start) ∧ br.Reads body start ∧
      endMember body len s = .ok (false, { s with
        br := br
        memberBoundaries := s.memberBoundaries ++ [⟨trailer, len⟩] })) := by
  unfold endMember
  rw [readTrailer_eq hr]
  cases htrailer : trailerAt body e with
  | error err =>
    refine Or.inl ⟨err, rfl, ?_, by simp⟩
    unfold trailerAt at htrailer
    simp only at htrailer
    split at htrailer
    · cases htrailer
      simp
    · cases htrailer
  | ok trailer =>
    obtain ⟨hbyte, hroom⟩ := trailerAt_ok htrailer
    simp only [bind, Except.bind]
    by_cases hend : body.length ≤ trailer.trailerInputByte + 8
    · obtain ⟨br, hok, hr'⟩ := seekToBit_reads hr.input_eq
        (show (trailer.trailerInputByte + 8) * 8 ≤ 8 * body.length by omega)
      rw [if_pos hend]
      simp only [hok, liftDeflate_ok]
      refine Or.inr (Or.inl ⟨trailer, br, rfl, ?_, ?_, rfl⟩)
      · unfold nextMember
        simp only [if_pos hend]
      · rwa [show 8 * body.length = (trailer.trailerInputByte + 8) * 8 by omega]
    · rw [if_neg hend]
      cases hparse : Gzip.parseHeader (body.drop (trailer.trailerInputByte + 8)) with
      | error err =>
        refine Or.inl ⟨_, rfl, by simp, ?_⟩
        rintro _ next ⟨⟩ hnext
        unfold nextMember at hnext
        simp only [if_neg hend, hparse] at hnext
        cases hnext
      | ok headerLen =>
        have hnext : nextMember body trailer =
            .ok (some ((trailer.trailerInputByte + 8 + headerLen) * 8)) := by
          unfold nextMember
          simp only [if_neg hend, hparse]
          rfl
        obtain ⟨br, hok, hr'⟩ := seekToBit_reads hr.input_eq (nextMember_some hnext).2
        simp only [liftGzip_ok, hok, liftDeflate_ok]
        exact Or.inr (Or.inr ⟨trailer, _, br, rfl, hnext, hr', rfl⟩)

/-- What the member loop returns. -/
def LoopSpec (body : List UInt8) (endBitHint : ℕ) (first : Bool) (pos : ℕ) (cells : List ℕ)
    (boundaries : List MemberBoundary) :
    Except Error (Bool × ChunkState SpeculativeChunk) → Prop
  | .error err => err ≠ .deflate .outOfFuel ∧
      ∀ r, ¬ChunkRun 48 body endBitHint first pos cells r
  | .ok (finalBlock, s) => ∃ r, ChunkRun 0 body endBitHint first pos cells r ∧
      finalBlock = r.finalBlock ∧ s.chunk = chunkOf r.cells ∧
      s.memberBoundaries = boundaries ++ r.members.map Prod.snd ∧ s.br.tellBit = r.endBit

/-- The member loop decodes chunks, whatever the worker's buffer holds. -/
theorem loopSpec_iterate {fuel : ℕ} {br : BitReader} {boundaries : List MemberBoundary}
    (hfirst : first = true → cells = []) (hr : br.Reads body pos)
    (hfuel : 8 * body.length - pos < fuel) :
    LoopSpec body endBitHint first pos cells boundaries
      (Loop.iterate (.deflate .outOfFuel) (Unbounded.chunkRound body scratch endBitHint) fuel
        ⟨br, chunkOf cells, boundaries, first⟩) := by
  induction fuel generalizing first pos cells br boundaries with
  | zero => omega
  | succ fuel ih =>
    have hle : pos ≤ 8 * body.length := by
      have := hr.pos_le
      omega
    have htell := hr.tellBit_eq
    by_cases hfull : endBitHint ≤ pos
    · have hround : Unbounded.chunkRound body scratch endBitHint
          ⟨br, chunkOf cells, boundaries, first⟩ =
          .ok (.inr (false, ⟨br, chunkOf cells, boundaries, first⟩)) := by
        unfold Unbounded.chunkRound
        simp only [htell, if_pos hfull]
      rw [Loop.iterate_break hround]
      exact ⟨_, .full hfull, rfl, rfl, by simp, htell⟩
    have hmember := decodeMember_spec body scratch endBitHint pos hfirst
    cases hdecode : Unbounded.decodeMember body scratch endBitHint first pos (chunkOf cells) with
    | error err =>
      have hround : Unbounded.chunkRound body scratch endBitHint
          ⟨br, chunkOf cells, boundaries, first⟩ =
          .error (.deflate err) := by
        unfold Unbounded.chunkRound
        simp only [htell, if_neg hfull, hdecode]
        rfl
      rw [hdecode] at hmember
      rw [Loop.iterate_fail hround]
      refine ⟨by simpa using hmember.1, fun r hrun => ?_⟩
      cases hrun with
      | full hpos => exact hfull hpos
      | part _ hblocks hadds => exact hmember.2 _ _ _ _ hle hblocks hadds
      | last _ hblocks hadds _ _ => exact hmember.2 _ _ _ _ hle hblocks hadds
      | next _ hblocks hadds _ _ _ => exact hmember.2 _ _ _ _ hle hblocks hadds
    | ok r =>
      obtain ⟨⟨e, f⟩, chunk⟩ := r
      rw [hdecode] at hmember
      obtain ⟨ts, rest, cells', hblocks, he, hadds, rfl⟩ := hmember
      have hlt := hblocks.length_lt
      rw [List.length_drop, bits_length] at hlt
      obtain rfl : e = 8 * body.length - rest.length := by omega
      obtain ⟨br₁, hseek, hr₁⟩ := seekToBit_reads hr.input_eq
        (show 8 * body.length - rest.length ≤ 8 * body.length by omega)
      cases f with
      | false =>
        have hround : Unbounded.chunkRound body scratch endBitHint
            ⟨br, chunkOf cells, boundaries, first⟩ =
            .ok (.inr (false, ⟨br₁, chunkOf cells', boundaries, false⟩)) := by
          unfold Unbounded.chunkRound
          simp only [htell, if_neg hfull, hdecode, liftDeflate_ok, bind, Except.bind, hseek,
            Bool.false_eq_true, if_false]
        rw [Loop.iterate_break hround]
        exact ⟨_, .part (by omega) hblocks hadds, rfl, rfl, by simp, hr₁.tellBit_eq⟩
      | true =>
        have hbytes : (chunkOf cells').bytes.length = cells'.length := by simp [chunkOf]
        have hround : Unbounded.chunkRound body scratch endBitHint
            ⟨br, chunkOf cells, boundaries, first⟩ =
            (do
              let (finalBlock, s) ← endMember body cells'.length
                ⟨br₁, chunkOf cells', boundaries, false⟩
              if finalBlock then .ok (.inr (true, s)) else .ok (.inl s)) := by
          unfold Unbounded.chunkRound
          simp only [htell, if_neg hfull, hdecode, liftDeflate_ok, bind, Except.bind, hseek,
            if_true, hbytes]
        have hunique {r : ChunkEnd} (hrun : ChunkRun 48 body endBitHint first pos cells r) :
            ∃ trailer next, trailerAt body (8 * body.length - rest.length) = .ok trailer ∧
              nextMember body trailer = .ok next ∧ ∀ start, next = some start →
                ∃ r', ChunkRun 48 body endBitHint false start cells' r' := by
          have hsame {f : Bool} {us : List Token} {rest' : List Bool} {cells'' : List ℕ}
              (hblocks' : Blocks 48 (stopAt body endBitHint) ((bits body).drop pos) f us rest')
              (hadds' : Adds first cells us cells'') :
              f = true ∧ rest = rest' ∧ cells'' = cells' := by
            obtain ⟨hf, rfl, rfl⟩ := hblocks.unique hblocks'
            exact ⟨hf.symm, rfl, hadds'.unique hadds⟩
          cases hrun with
          | full hpos => exact absurd hpos hfull
          | part _ hblocks' hadds' => cases (hsame hblocks' hadds').1
          | last _ hblocks' hadds' htrailer hnext =>
            obtain ⟨-, rfl, rfl⟩ := hsame hblocks' hadds'
            exact ⟨_, none, htrailer, hnext, by simp⟩
          | next _ hblocks' hadds' htrailer hnext hrun' =>
            obtain ⟨-, rfl, rfl⟩ := hsame hblocks' hadds'
            refine ⟨_, some _, htrailer, hnext, ?_⟩
            rintro _ ⟨⟩
            exact ⟨_, hrun'⟩
        rcases @endMember_cases _ _ _ (ChunkState.mk br₁ (chunkOf cells') boundaries false)
            cells'.length hr₁ with
          ⟨err, herr, hfuel', hnone⟩ | ⟨trailer, br₂, htrailer, hnext, hr₂, hok⟩ |
          ⟨trailer, start, br₂, htrailer, hnext, hr₂, hok⟩
        · rw [herr] at hround
          rw [Loop.iterate_fail hround]
          refine ⟨hfuel', fun r hrun => ?_⟩
          obtain ⟨trailer, next, htrailer, hnext, -⟩ := hunique hrun
          exact hnone trailer next htrailer hnext
        · rw [hok] at hround
          rw [Loop.iterate_break hround]
          exact ⟨_, .last (by omega) hblocks hadds htrailer hnext, rfl, rfl, by simp,
            hr₂.tellBit_eq⟩
        · rw [hok] at hround
          have hbyte := trailerAt_ok htrailer
          have hstart := nextMember_some hnext
          have hrest := @ih start false cells' br₂ (boundaries ++ [⟨trailer, cells'.length⟩])
            (by simp) hr₂ (by omega)
          rw [Loop.iterate_continue hround]
          revert hrest
          cases Loop.iterate (.deflate .outOfFuel)
            (Unbounded.chunkRound body scratch endBitHint) fuel
            ⟨br₂, chunkOf cells', boundaries ++ [⟨trailer, cells'.length⟩], false⟩ with
          | error err =>
            rintro ⟨herr, hnone⟩
            refine ⟨herr, fun r hrun => ?_⟩
            obtain ⟨trailer', next, htrailer', hnext', htail⟩ := hunique hrun
            rw [htrailer] at htrailer'
            cases htrailer'
            rw [hnext] at hnext'
            cases hnext'
            obtain ⟨r', hrun'⟩ := htail start rfl
            exact hnone r' hrun'
          | ok res =>
            obtain ⟨finalBlock, s⟩ := res
            rintro ⟨r, hrun, hfinal, hchunk, hboundaries, hend⟩
            exact ⟨_, .next (by omega) hblocks hadds htrailer hnext hrun, hfinal, hchunk,
              by simp [hboundaries], hend⟩

/-- The result of a chunk that was decoded to this end. -/
def ChunkEnd.result (id : ℕ) (r : ChunkEnd) : WorkResult :=
  { id := id
    chunk := chunkOf r.cells
    finalBlock := r.finalBlock
    memberBoundaries := r.members.map Prod.snd
    actualEndBit := r.endBit }

/-- What decoding a chunk returns. -/
def ChunkSpec (body : List UInt8) (item : WorkItem) : Except Error WorkResult → Prop
  | .error err => err ≠ .deflate .outOfFuel ∧ (item.startBit ≤ 8 * body.length →
      ∀ r, ¬ChunkRun 48 body item.endBitHint true item.startBit [] r)
  | .ok res => item.startBit ≤ 8 * body.length ∧
      ∃ r, ChunkRun 0 body item.endBitHint true item.startBit [] r ∧ res = r.result item.id

/-- What the decoder of a chunk decodes. -/
theorem chunkSpec_decodeOneChunk (body : List UInt8) (scratch : List ℕ) (item : WorkItem) :
    ChunkSpec body item (Unbounded.decodeOneChunk body scratch item) := by
  unfold Unbounded.decodeOneChunk
  by_cases hle : item.startBit ≤ 8 * body.length
  · obtain ⟨br, hseek, hr⟩ := seekToBit_reads (BitReader.new_reads body).input_eq hle
    have hspec : LoopSpec body item.endBitHint true item.startBit [] []
        (Loop.iterate (.deflate .outOfFuel) (Unbounded.chunkRound body scratch item.endBitHint)
          (8 * body.length + 1) ⟨br, chunkOf [], [], true⟩) :=
      loopSpec_iterate (fun _ => rfl) hr (by omega)
    rw [hseek]
    simp only [liftDeflate_ok, bind, Except.bind]
    revert hspec
    rw [show chunkOf [] = ⟨[], []⟩ from rfl]
    cases Loop.iterate (.deflate .outOfFuel) (Unbounded.chunkRound body scratch item.endBitHint)
      (8 * body.length + 1) ⟨br, ⟨[], []⟩, [], true⟩ with
    | error err => exact fun h => ⟨h.1, fun _ => h.2⟩
    | ok res =>
      obtain ⟨finalBlock, s⟩ := res
      rintro ⟨r, hrun, rfl, hchunk, hboundaries, hend⟩
      refine ⟨hle, r, hrun, ?_⟩
      rw [ChunkEnd.result, hchunk, hboundaries, hend, List.nil_append]
  · have hseek := BitReader.seekToBit_eof (BitReader.new body)
      (show 8 * (BitReader.new body).input.length < item.startBit by
        rw [(BitReader.new_reads body).input_eq]; omega)
    rw [hseek]
    exact ⟨by simp, fun h => absurd h hle⟩

end Spec

end Pipeline

end RustyRapidgzip
