import RustyRapidgzip.Deflate.OutVec
import RustyRapidgzip.Deflate.Unbounded

/-!
# The preload decoder

The preload kernel writes its output through a raw pointer. It makes room at the top of its
loop and where a run of literals refills, and off the table's path before each store; a match
on the table's path is copied without a look at the room. A store that leaves the vector is a
fault. Without one, the kernel does what it does over an unbounded output.
-/

namespace RustyRapidgzip

open HuffmanDecoder Stop

namespace Preload

open Unbounded (LIT_GUARD)

/-- The room that is reserved at a time. -/
def HEADROOM : ℕ := 4096

/-- The symbol loop stands at its top, or holds a loaded entry. -/
structure State where
  loaded : Option ℕ
  out : OutVec
  br : BitReader

/-- Refill, read a distance, make room and copy. -/
def decodeDistanceAndCopy (build : Build) (dist : HuffmanDecoder) (length : ℕ) (out : OutVec)
    (br : BitReader) : Except (Stop DeflateError) (OutVec × BitReader) :=
  match br.refillKernel with
  | .error e => .error (.error e)
  | .ok br =>
    match distanceOf dist br with
    | .error e => .error (.error e)
    | .ok (distance, br) =>
      if distance = 0 ∨ out.bytes.length < distance then
        .error (.error (.invalid "back-reference distance out of bounds"))
      else
        match (out.ensure build.grow (length + build.copyN) (length + 4096)).copyBack build
            distance length with
        | .error e => .error e
        | .ok out => .ok (out, br)

/-- Act on a symbol whose code did not fit the table. -/
def longSymbol (build : Build) (dist : HuffmanDecoder) (e : ℕ) (out : OutVec) (br : BitReader) :
    Except (Stop DeflateError) (State ⊕ (OutVec × BitReader)) :=
  if e &&& HUFFDEC_LITERAL ≠ 0 then
    let out := if out.bytes.length = out.capacity then out.reserve build.grow HEADROOM else out
    match out.store (UInt8.ofNat (e >>> 16)) with
    | .error e => .error e
    | .ok out => .ok (.inl ⟨none, out, br⟩)
  else if e &&& HUFFDEC_EXCEPTIONAL ≠ 0 then
    if e >>> 16 = 0 then .ok (.inr (out, br))
    else .error (.error (.invalid "literal/length symbol out of range"))
  else
    match (if 0 < (e >>> 8) &&& 0x1f then br.refillKernel else .ok br) with
    | .error e => .error (.error e)
    | .ok br =>
      let (length, br) := lengthOf e br
      match decodeDistanceAndCopy build dist length out br with
      | .error e => .error e
      | .ok (out, br) => .ok (.inl ⟨none, out, br⟩)

/-- Act on a loaded entry that is neither a literal nor empty. -/
def shortSymbol (build : Build) (dist : HuffmanDecoder) (entry : ℕ) (out : OutVec)
    (br : BitReader) : Except (Stop DeflateError) (State ⊕ (OutVec × BitReader)) :=
  let br := br.consume (entry &&& 0xff)
  if entry &&& HUFFDEC_EXCEPTIONAL ≠ 0 then
    if entry >>> 16 = 0 then .ok (.inr (out, br))
    else .error (.error (.invalid "literal/length symbol out of range"))
  else
    let (length, br) := lengthOf entry br
    match (if br.bits < 28 then br.refillKernel else .ok br) with
    | .error e => .error (.error e)
    | .ok br =>
      match distanceOf dist br with
      | .error e => .error (.error e)
      | .ok (distance, br) =>
        if distance = 0 then .error (.error (.invalid "zero back-reference distance"))
        else if out.bytes.length < distance then
          .error (.error (.invalid "back-reference distance out of bounds"))
        else
          match out.copyBack build distance length with
          | .error e => .error e
          | .ok out => .ok (.inl ⟨none, out, br⟩)

/-- Make room for a run of literals, a match and its overshoot. -/
def ensureRoom (build : Build) (out : OutVec) : OutVec :=
  out.ensure build.grow (288 + build.copyN) HEADROOM

/-- One step of the symbol loop: make room and load an entry at the top, or act on the loaded
one. -/
def round (build : Build) (lit dist : HuffmanDecoder) (s : State) :
    Except (Stop DeflateError) (State ⊕ (OutVec × BitReader)) :=
  match s.loaded with
  | none =>
    let out := ensureRoom build s.out
    match s.br.refillKernel with
    | .error e => .error (.error e)
    | .ok br => .ok (.inl ⟨some (lit.lut (br.peekBitsUnchecked LUT_BITS)), out, br⟩)
  | some entry =>
    if entry &&& HUFFDEC_LITERAL ≠ 0 then
      let br := s.br.consume (entry &&& 0xff)
      match s.out.store (UInt8.ofNat (entry >>> 16)) with
      | .error e => .error e
      | .ok out =>
        if br.bits < LIT_GUARD then
          match br.refillKernel with
          | .error e => .error (.error e)
          | .ok br => .ok (.inl ⟨some (lit.lut (br.peekBitsUnchecked LUT_BITS)),
              ensureRoom build out, br⟩)
        else .ok (.inl ⟨some (lit.lut (br.peekBitsUnchecked LUT_BITS)), out, br⟩)
    else if entry &&& 0xff = 0 then
      match lit.lookupLong s.br with
      | .error e => .error (.error e)
      | .ok (e, br) => longSymbol build dist e s.out br
    else shortSymbol build dist entry s.out s.br

/-- The loop's first state. -/
def start (build : Build) (out : OutVec) (br : BitReader) : State :=
  ⟨none, out.ensure build.grow HEADROOM HEADROOM, br⟩

/-- The symbol loop. Every second step consumes a bit, which bounds the steps. -/
def decodeCompressedPreload (build : Build) (lit dist : HuffmanDecoder) (out : OutVec)
    (br : BitReader) : Except (Stop DeflateError) (OutVec × BitReader) :=
  Loop.iterate (.error .outOfFuel) (round build lit dist) (2 * (8 * br.input.length) + 2)
    (start build out br)

/-- Push `n` bytes read from the reader. -/
def pushBytes (build : Build) :
    ℕ → OutVec → BitReader → Except (Stop DeflateError) (OutVec × BitReader)
  | 0, out, br => .ok (out, br)
  | n + 1, out, br => do
    let (b, br) ← lift (br.read 8)
    pushBytes build n (out.push build.grow (UInt8.ofNat b)) br

/-- Copy the data of a stored block, for which there is room first. -/
def decodeStored (build : Build) (br : BitReader) (out : OutVec) :
    Except (Stop DeflateError) (OutVec × BitReader) := do
  let br := br.byteAlign
  let (len, br) ← lift (br.read 16)
  let (nlen, br) ← lift (br.read 16)
  if (65535 - len) ^^^ nlen ≠ 0 then
    .error (.error (.invalid "stored block: LEN/NLEN mismatch"))
  else pushBytes build len (out.reserve build.grow len) br

/-- The contents of a block of the given type. -/
def blockContents (build : Build) (btype : ℕ) (out : OutVec) (br : BitReader) :
    Except (Stop DeflateError) (OutVec × BitReader) :=
  if btype = 0 then decodeStored build br out
  else do
    let ((lit, dist), br) ← lift (blockTrees btype br)
    decodeCompressedPreload build lit dist out br

/-- Decode one block. The flag is BFINAL. -/
def decodeOneBlockPreload (build : Build) (out : OutVec) (br : BitReader) :
    Except (Stop DeflateError) ((Bool × OutVec) × BitReader) := do
  let (bfinal, br) ← lift (br.read 1)
  let (btype, br) ← lift (br.read 2)
  let (out, br) ← blockContents build btype out br
  .ok ((bfinal != 0, out), br)

/-- One round of the loop over the blocks: leave it after the final block, or after a block
that ends at or after the hint. -/
def blocksRound (build : Build) (endBitHint : ℕ) (s : OutVec × BitReader) :
    Except (Stop DeflateError) ((OutVec × BitReader) ⊕ ((Bool × OutVec) × BitReader)) :=
  match decodeOneBlockPreload build s.1 s.2 with
  | .error e => .error e
  | .ok ((bfinal, out), br) =>
    if bfinal then .ok (.inr ((true, out), br))
    else if endBitHint ≤ br.tellBit then .ok (.inr ((false, out), br))
    else .ok (.inl (out, br))

/-- Decode blocks until the loop is left. Each block has a bit, which bounds the rounds. -/
def decodeBlocks (build : Build) (endBitHint : ℕ) (out : OutVec) (br : BitReader) :
    Except (Stop DeflateError) ((Bool × OutVec) × BitReader) :=
  Loop.iterate (.error .outOfFuel) (blocksRound build endBitHint) (8 * br.input.length + 1)
    (out, br)

/-- Decode from a bit position up to the final block, or up to the first block that ends at or
after the hint. The result is the end bit, the flag and the output. -/
def decodeMemberU8Preload (build : Build) (input : List UInt8) (startBit endBitHint : ℕ)
    (out : OutVec) : Except (Stop DeflateError) ((ℕ × Bool) × OutVec) := do
  let br ← lift ((BitReader.new input).seekToBit startBit)
  let ((finalBlock, out), br) ← decodeBlocks build endBitHint out br
  .ok ((br.tellBit, finalBlock), out)

/-! ## Without the capacity -/

/-- The state of the loop over an unbounded output. -/
def State.unbounded (s : State) : Unbounded.State := ⟨s.loaded, s.out.bytes, s.br⟩

/-- A vector and a reader without the capacity. -/
def unbounded (r : OutVec × BitReader) : List UInt8 × BitReader := (r.1.bytes, r.2)

/-- The result of a block without the capacity. -/
def unboundedBlock (r : (Bool × OutVec) × BitReader) : (Bool × List UInt8) × BitReader :=
  ((r.1.1, r.1.2.bytes), r.2)

section Tracks

variable {build : Build} {lit dist : HuffmanDecoder} {out : OutVec} {br : BitReader}

/-- A store fits or is a fault. -/
theorem store_cases (out : OutVec) (b : UInt8) :
    (out.store b : Except (Stop DeflateError) OutVec) = .error .fault ∨
      ∃ out', (out.store b : Except (Stop DeflateError) OutVec) = .ok out' ∧
        out'.bytes = out.bytes ++ [b] := by
  unfold OutVec.store
  split
  · exact Or.inr ⟨_, rfl, rfl⟩
  · exact Or.inl rfl

/-- A copy fits or is a fault. -/
theorem copyBack_cases (build : Build) (out : OutVec) (distance length : ℕ) :
    (out.copyBack build distance length : Except (Stop DeflateError) OutVec) = .error .fault ∨
      ∃ out', (out.copyBack build distance length : Except (Stop DeflateError) OutVec) =
        .ok out' ∧ out'.bytes = copyBackRaw out.bytes distance length := by
  unfold OutVec.copyBack
  split
  · exact Or.inr ⟨_, rfl, rfl⟩
  · exact Or.inl rfl

/-- Without its capacity a copy is the one behind a list. -/
theorem tracks_decodeDistanceAndCopy (length : ℕ) :
    Tracks unbounded (decodeDistanceAndCopy build dist length out br)
      (Unbounded.decodeDistanceAndCopy dist length out.bytes br) := by
  unfold decodeDistanceAndCopy Unbounded.decodeDistanceAndCopy
  cases br.refillKernel with
  | error e => exact .error e
  | ok br₁ =>
    simp only [copyMatch, bind, Except.bind]
    cases distanceOf dist br₁ with
    | error e => exact .error e
    | ok r =>
      obtain ⟨distance, br₂⟩ := r
      simp only [Unbounded.resolve]
      by_cases hbad : distance = 0 ∨ out.bytes.length < distance
      · simp only [if_pos hbad]
        exact .error _
      simp only [if_neg hbad]
      rcases copyBack_cases build (out.ensure build.grow (length + build.copyN) (length + 4096))
        distance length with hfault | ⟨out', hok, hbytes⟩
      · rw [hfault]
        exact .fault _
      · rw [hok]
        rw [OutVec.ensure_bytes] at hbytes
        rw [← hbytes]
        exact .ok (out', br₂)

/-- Without its capacity a symbol among the long codes is the one behind a list. -/
theorem tracks_longSymbol (e : ℕ) :
    Tracks (Sum.map State.unbounded unbounded) (longSymbol build dist e out br)
      (Unbounded.longSymbol dist e out.bytes br) := by
  unfold longSymbol Unbounded.longSymbol
  by_cases hliteral : e &&& HUFFDEC_LITERAL ≠ 0
  · rw [if_pos hliteral, if_pos hliteral]
    obtain ⟨out₁, hout₁, hbytes₁⟩ : ∃ out₁, (if out.bytes.length = out.capacity then
        out.reserve build.grow HEADROOM else out) = out₁ ∧ out₁.bytes = out.bytes :=
      ⟨_, rfl, by split <;> rfl⟩
    simp only [hout₁]
    rcases store_cases out₁ (UInt8.ofNat (e >>> 16)) with hfault | ⟨out', hok, hbytes⟩
    · rw [hfault]
      exact .fault _
    · rw [hok, ← hbytes₁, ← hbytes]
      exact .ok (Sum.inl (State.mk none out' br))
  rw [if_neg hliteral, if_neg hliteral]
  by_cases hexc : e &&& HUFFDEC_EXCEPTIONAL ≠ 0
  · rw [if_pos hexc, if_pos hexc]
    split
    · exact .ok (Sum.inr (out, br))
    · exact .error _
  rw [if_neg hexc, if_neg hexc]
  cases (if 0 < (e >>> 8) &&& 0x1f then br.refillKernel else .ok br) with
  | error e => exact .error e
  | ok br₁ =>
    have hcopy := @tracks_decodeDistanceAndCopy build dist out (lengthOf e br₁).2
      (lengthOf e br₁).1
    simp only
    revert hcopy
    generalize decodeDistanceAndCopy build dist (lengthOf e br₁).1 out (lengthOf e br₁).2 = r
    generalize Unbounded.decodeDistanceAndCopy dist (lengthOf e br₁).1 out.bytes
      (lengthOf e br₁).2 = r'
    intro hcopy
    cases hcopy with
    | fault _ => exact .fault _
    | ok q => exact .ok (Sum.inl (State.mk none q.1 q.2))
    | error e => exact .error e

/-- Without its capacity a symbol of the table is the one behind a list. -/
theorem tracks_shortSymbol (entry : ℕ) :
    Tracks (Sum.map State.unbounded unbounded) (shortSymbol build dist entry out br)
      (Unbounded.shortSymbol dist entry out.bytes br) := by
  unfold shortSymbol Unbounded.shortSymbol
  simp only
  by_cases hexc : entry &&& HUFFDEC_EXCEPTIONAL ≠ 0
  · rw [if_pos hexc, if_pos hexc]
    split
    · exact .ok (Sum.inr (out, br.consume (entry &&& 0xff)))
    · exact .error _
  rw [if_neg hexc, if_neg hexc]
  generalize lengthOf entry (br.consume (entry &&& 0xff)) = r
  obtain ⟨length, br₁⟩ := r
  simp only
  cases (if br₁.bits < 28 then br₁.refillKernel else .ok br₁) with
  | error e => exact .error e
  | ok br₂ =>
    simp only [copyMatch, bind, Except.bind]
    cases distanceOf dist br₂ with
    | error e => exact .error e
    | ok r =>
      obtain ⟨distance, br₃⟩ := r
      simp only [FastInflate.resolve]
      by_cases hzero : distance = 0
      · simp only [if_pos hzero]
        exact .error _
      by_cases hfar : out.bytes.length < distance
      · simp only [if_neg hzero, if_pos hfar]
        exact .error _
      simp only [if_neg hzero, if_neg hfar]
      rcases copyBack_cases build out distance length with hfault | ⟨out', hok, hbytes⟩
      · rw [hfault]
        exact .fault _
      · rw [hok, ← hbytes]
        exact .ok (Sum.inl (State.mk none out' br₃))

/-- A step does what it does over an unbounded output, unless it faults. -/
theorem tracks_round (s : State) :
    Tracks (Sum.map State.unbounded unbounded) (round build lit dist s)
      (Unbounded.round lit dist s.unbounded) := by
  obtain ⟨loaded, out, br⟩ := s
  rw [show State.unbounded ⟨loaded, out, br⟩ = ⟨loaded, out.bytes, br⟩ from rfl]
  unfold round Unbounded.round
  cases loaded with
  | none =>
    simp only
    cases br.refillKernel with
    | error e => exact .error e
    | ok br₁ =>
      have h := @Tracks.ok DeflateError _ _ (Sum.map State.unbounded unbounded)
        (Sum.inl ⟨some (lit.lut (br₁.peekBitsUnchecked LUT_BITS)), ensureRoom build out, br₁⟩)
      rwa [Sum.map_inl, State.unbounded, ensureRoom, OutVec.ensure_bytes] at h
  | some entry =>
    simp only
    by_cases hliteral : entry &&& HUFFDEC_LITERAL ≠ 0
    · simp only [if_pos hliteral]
      rcases store_cases out (UInt8.ofNat (entry >>> 16)) with hfault | ⟨out', hok, hbytes⟩
      · rw [hfault]
        exact .fault _
      simp only [hok, ← hbytes]
      by_cases hlow : (br.consume (entry &&& 0xff)).bits < LIT_GUARD
      · simp only [if_pos hlow]
        cases (br.consume (entry &&& 0xff)).refillKernel with
        | error e => exact .error e
        | ok br₁ =>
          have h := @Tracks.ok DeflateError _ _ (Sum.map State.unbounded unbounded)
            (Sum.inl ⟨some (lit.lut (br₁.peekBitsUnchecked LUT_BITS)), ensureRoom build out', br₁⟩)
          rwa [Sum.map_inl, State.unbounded, ensureRoom, OutVec.ensure_bytes] at h
      · simp only [if_neg hlow]
        exact .ok (Sum.inl (State.mk (some _) out' (br.consume (entry &&& 0xff))))
    · simp only [if_neg hliteral]
      by_cases hlong : entry &&& 0xff = 0
      · simp only [if_pos hlong]
        cases lit.lookupLong br with
        | error e => exact .error e
        | ok r => exact tracks_longSymbol r.1
      · simp only [if_neg hlong]
        exact tracks_shortSymbol entry

/-- The kernel starts behind the bytes of the vector. -/
theorem unbounded_start (build : Build) (out : OutVec) (br : BitReader) :
    (start build out br).unbounded = ⟨none, out.bytes, br⟩ := by
  rw [start, State.unbounded, OutVec.ensure_bytes]

/-- Without its capacity the kernel is the one over a list. -/
theorem tracks_decodeCompressedPreload (lit dist : HuffmanDecoder) (out : OutVec)
    (br : BitReader) :
    Tracks unbounded (decodeCompressedPreload build lit dist out br)
      (Unbounded.decodeCompressedPreload lit dist out.bytes br) := by
  have hround (s : State) : Tracks (Sum.map State.unbounded unbounded) (round build lit dist s)
      (Unbounded.round lit dist s.unbounded) :=
    tracks_round s
  have h : Tracks unbounded (decodeCompressedPreload build lit dist out br) _ :=
    tracks_iterate hround (2 * (8 * br.input.length) + 2) (start build out br)
  rwa [unbounded_start] at h

/-- Without its capacity stored bytes are those behind a list. -/
theorem tracks_pushBytes (n : ℕ) (out : OutVec) (br : BitReader) :
    Tracks unbounded (pushBytes build n out br) (RustyRapidgzip.pushBytes n out.bytes br) := by
  induction n generalizing out br with
  | zero => exact .ok (out, br)
  | succ n ih =>
    unfold pushBytes RustyRapidgzip.pushBytes
    cases br.read 8 with
    | error e => exact .error e
    | ok r => exact ih (out.push build.grow (UInt8.ofNat r.1)) r.2

/-- Without its capacity a stored block is the one behind a list. -/
theorem tracks_decodeStored (out : OutVec) (br : BitReader) :
    Tracks unbounded (decodeStored build br out) (RustyRapidgzip.decodeStored br out.bytes) := by
  unfold decodeStored RustyRapidgzip.decodeStored
  simp only [bind, Except.bind]
  cases br.byteAlign.read 16 with
  | error e => exact .error e
  | ok r =>
    obtain ⟨len, br₁⟩ := r
    simp only [lift_ok]
    cases br₁.read 16 with
    | error e => exact .error e
    | ok r =>
      obtain ⟨nlen, br₂⟩ := r
      simp only [lift_ok]
      split
      · exact .error _
      · exact tracks_pushBytes len (out.reserve build.grow len) br₂

/-- Without its capacity the contents of a block are those behind a list. -/
theorem tracks_blockContents (btype : ℕ) (out : OutVec) (br : BitReader) :
    Tracks unbounded (blockContents build btype out br)
      (RustyRapidgzip.blockContents Unbounded.decodeCompressedPreload btype out.bytes br) := by
  unfold blockContents RustyRapidgzip.blockContents
  split
  · exact tracks_decodeStored out br
  · cases blockTrees btype br with
    | error e => exact .error e
    | ok r => exact tracks_decodeCompressedPreload r.1.1 r.1.2 out r.2

/-- Without its capacity a block is the one behind a list. -/
theorem tracks_decodeOneBlockPreload (out : OutVec) (br : BitReader) :
    Tracks unboundedBlock (decodeOneBlockPreload build out br)
      (Unbounded.decodeOneBlockPreload out.bytes br) := by
  unfold decodeOneBlockPreload Unbounded.decodeOneBlockPreload blockWith
  simp only [bind, Except.bind]
  cases br.read 1 with
  | error e => exact .error e
  | ok r =>
    obtain ⟨bfinal, br₁⟩ := r
    simp only [lift_ok]
    cases br₁.read 2 with
    | error e => exact .error e
    | ok r =>
      obtain ⟨btype, br₂⟩ := r
      exact (tracks_blockContents btype out br₂).bind fun a _ => .ok ((bfinal != 0, a.1), a.2)

/-- Without its capacity a round over the blocks is the one over a list. -/
theorem tracks_blocksRound (endBitHint : ℕ) (s : OutVec × BitReader) :
    Tracks (Sum.map unbounded unboundedBlock) (blocksRound build endBitHint s)
      (RustyRapidgzip.blocksRound Unbounded.decodeOneBlockPreload
        (fun br => decide (endBitHint ≤ br.tellBit)) (unbounded s)) := by
  obtain ⟨out, br⟩ := s
  have hblock := @tracks_decodeOneBlockPreload build out br
  rw [show unbounded (out, br) = (out.bytes, br) from rfl]
  unfold blocksRound RustyRapidgzip.blocksRound
  simp only
  revert hblock
  generalize decodeOneBlockPreload build out br = r
  generalize Unbounded.decodeOneBlockPreload out.bytes br = r'
  intro hblock
  cases hblock with
  | fault _ => exact .fault _
  | error e => exact .error e
  | ok q =>
    obtain ⟨⟨bfinal, out'⟩, br'⟩ := q
    cases bfinal with
    | true => exact .ok (Sum.inr ((true, out'), br'))
    | false =>
      rw [show unboundedBlock ((false, out'), br') = ((false, out'.bytes), br') from rfl]
      simp only [Bool.false_eq_true, if_false, decide_eq_true_eq]
      split
      · exact .ok (Sum.inr ((false, out'), br'))
      · exact .ok (Sum.inl (out', br'))

/-- Without its capacity the blocks are those behind a list. -/
theorem tracks_decodeBlocks (endBitHint : ℕ) (out : OutVec) (br : BitReader) :
    Tracks unboundedBlock (decodeBlocks build endBitHint out br)
      (blocksWith Unbounded.decodeOneBlockPreload (fun br => decide (endBitHint ≤ br.tellBit))
        out.bytes br) :=
  tracks_iterate (tracks_blocksRound endBitHint) (8 * br.input.length + 1) (out, br)

/-- The preload decoder does what it does over an unbounded output, unless it faults. -/
theorem tracks_decodeMemberU8Preload (input : List UInt8) (startBit endBitHint : ℕ)
    (out : OutVec) :
    Tracks (fun r => (r.1, r.2.bytes)) (decodeMemberU8Preload build input startBit endBitHint out)
      (Unbounded.decodeMemberU8Preload input startBit endBitHint out.bytes) := by
  unfold decodeMemberU8Preload Unbounded.decodeMemberU8Preload memberWith
  simp only [bind, Except.bind]
  cases (BitReader.new input).seekToBit startBit with
  | error e => exact .error e
  | ok br =>
    exact (tracks_decodeBlocks endBitHint out br).bind fun a _ =>
      .ok ((a.2.tellBit, a.1.1), a.1.2)

end Tracks

end Preload

end RustyRapidgzip
