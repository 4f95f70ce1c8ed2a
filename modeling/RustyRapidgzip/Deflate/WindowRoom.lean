import RustyRapidgzip.Deflate.AccumulatorSound
import RustyRapidgzip.Deflate.KernelRoom
import RustyRapidgzip.Deflate.SpeculativeCorrect

/-!
# Room in the window of cells

The window kernel writes cells through a raw pointer, copies eight of them at a time past the end
of a match, and slides its buffer down whenever a block finds it full. Here its loads, its stores
and the moves of its cursor are recorded beside what it does with the bit word. A monitor keeps the
cells that were written since the last slide or retained by it. For every input and every sequence
of blocks, stores lie behind the cursor and in the buffer, the cursor stays a match short of its
end, and copies start from written cells.
-/

namespace RustyRapidgzip

open LsbBits Reference HuffmanDecoder Lz

namespace WindowRoom

open Accumulator (BitAccess Sound Stays Found)
open Speculative (State)

/-- What the window kernel does: with the bit word, or with its cells. A load names how many of its
cells matter. -/
inductive Access where
  | bits (access : BitAccess)
  | copy (distance : ℕ)
  | load (pos count needed : ℕ)
  | store (pos count : ℕ)
  | emit (count : ℕ)
  | slide (flushCount : ℕ)
  deriving DecidableEq, Repr

/-- A computation that records what it does. -/
abbrev Kernel : Type → Type := Traced Access DeflateError

/-! ## Copies -/

/-- Load and store eight cells at a time. -/
def chunkAccesses : ℕ → ℕ → ℕ → ℕ → List Access
  | 0, _, _, _ => []
  | rounds + 1, src, dst, stop =>
    .load src 8 (min 8 (stop - src)) :: .store dst 8 ::
      if stop ≤ src + 8 then [] else chunkAccesses rounds (src + 8) (dst + 8) stop

/-- Load and store cell by cell. -/
def cellAccesses : ℕ → ℕ → ℕ → List Access
  | 0, _, _ => []
  | n + 1, src, dst => .load src 1 1 :: .store dst 1 :: cellAccesses n (src + 1) (dst + 1)

/-- Store one value cell by cell. -/
def fillAccesses : ℕ → ℕ → List Access
  | 0, _ => []
  | n + 1, dst => .store dst 1 :: fillAccesses n (dst + 1)

/-- The loads and stores of a copy. -/
def copyAccesses (cur distance length : ℕ) : List Access :=
  let src := cur - distance
  if length ≤ distance then chunkAccesses length src cur (src + length)
  else if distance = 1 then .load src 1 1 :: fillAccesses length cur
  else cellAccesses length src cur

/-- Copy `length` cells from `distance` cells back. -/
def copyBackU16 (w : Window) (distance length : ℕ) : Kernel Window := do
  Traced.tell (.copy distance)
  Traced.tellAll (copyAccesses w.cur distance length)
  Traced.tell (.emit length)
  pure { w with
    scratch := RustyRapidgzip.copyBackU16 w.scratch w.cur distance length
    cur := w.cur + length }

/-- Resolve a copy: markers where it reaches before the first cell, then cells. -/
def backReference (w : Window) (distance length : ℕ) : Kernel Window :=
  if w.windowBase = 0 ∧ w.cur < distance then do
    let prefixCount := min (distance - w.cur) length
    Traced.tellAll (fillAccesses prefixCount w.cur)
    Traced.tell (.emit prefixCount)
    let w := { w with
      scratch := writeMarkers distance w.cur prefixCount 0 w.scratch
      cur := w.cur + prefixCount }
    let inBuffer := length - prefixCount
    if 0 < inBuffer then copyBackU16 w distance inBuffer else pure w
  else if distance = 0 then Traced.fail (.invalid "zero back-reference distance")
  else copyBackU16 w distance length

/-- Flush a full window. -/
def flushFull (w : Window) : Kernel Window :=
  if U16_FLUSH_AT ≤ w.cur then do
    Traced.tell (.slide (w.cur - U16_WINDOW))
    pure w.flushU16
  else pure w

/-- Write one cell at the cursor. -/
def push (w : Window) (cell : ℕ) : Kernel Window := do
  Traced.tell (.store w.cur 1)
  Traced.tell (.emit 1)
  pure (w.push cell)

/-! ## The symbol loop -/

/-- Preload the next entry, or go back to the top. -/
def preloadNext (lit : HuffmanDecoder) (w : Window) (br : BitReader) : Kernel State :=
  if br.bits < 15 ∨ U16_FLUSH_AT ≤ w.cur then pure ⟨none, w, br⟩
  else do
    Traced.tell (.bits (.mask br.bits LUT_BITS))
    let e := lit.lut (br.peekBitsUnchecked LUT_BITS)
    let len := e &&& 0xff
    if len = 0 then pure ⟨none, w, br⟩
    else do
      Traced.tell (.bits (.consume br.bits len))
      pure ⟨some e, w, br.consume len⟩

/-- Act on an entry that is no literal. -/
def symbol (dist : HuffmanDecoder) (entry : ℕ) (w : Window) (br : BitReader) :
    Kernel (State ⊕ (Window × BitReader)) :=
  if entry &&& HUFFDEC_EXCEPTIONAL ≠ 0 then
    if entry >>> 16 = 0 then pure (.inr (w, br))
    else Traced.fail (.invalid "literal/length symbol out of range")
  else do
    let br ← (Accumulator.refillIf (br.bits < 33) br).relabel .bits
    let (length, br) ← (Accumulator.lengthOf entry br).relabel .bits
    let (distance, br) ← (Accumulator.distanceOf dist br).relabel .bits
    let w ← backReference w distance length
    pure (.inl ⟨none, w, br⟩)

/-- One step of `decode_compressed_u16`. -/
def round (lit dist : HuffmanDecoder) (s : State) : Kernel (State ⊕ (Window × BitReader)) :=
  match s.loaded with
  | none => do
    let br ← (Accumulator.refillKernel s.br).relabel .bits
    let w ← flushFull s.window
    let (entry, br) ← (Accumulator.lookupFilled lit br).relabel .bits
    pure (.inl ⟨some entry, w, br⟩)
  | some entry =>
    if entry &&& HUFFDEC_LITERAL ≠ 0 then do
      let w ← push s.window ((entry >>> 16) &&& 0xff)
      let s ← preloadNext lit w s.br
      pure (.inl s)
    else symbol dist entry s.window s.br

/-- `decode_compressed_u16`. -/
def decodeCompressedU16 (lit dist : HuffmanDecoder) (w : Window) (br : BitReader) :
    Kernel (Window × BitReader) :=
  Traced.iterate .outOfFuel (round lit dist) (2 * (8 * br.input.length) + 2) ⟨none, w, br⟩

/-! ## Stored blocks -/

/-- Read bytes into the window. -/
def readCells : ℕ → Window → BitReader → Kernel (Window × BitReader)
  | 0, w, br => pure (w, br)
  | n + 1, w, br => do
    let (b, br) ← Traced.lift (br.read 8)
    let w ← push w b
    readCells n w br

/-- Copy the data of a stored block, flushing the window whenever it is full. -/
def storedCells : ℕ → ℕ → Window → BitReader → Kernel (Window × BitReader)
  | 0, remaining, w, br => if remaining = 0 then pure (w, br) else Traced.fail .outOfFuel
  | rounds + 1, remaining, w, br =>
    if remaining = 0 then pure (w, br)
    else do
      let w ← flushFull w
      let take := min remaining (U16_FLUSH_AT - w.cur)
      let (w, br) ← readCells take w br
      storedCells rounds (remaining - take) w br

/-- A stored block. -/
def decodeStoredU16 (w : Window) (br : BitReader) : Kernel (Window × BitReader) := do
  let br := br.byteAlign
  let (len, br) ← Traced.lift (br.read 16)
  let (nlen, br) ← Traced.lift (br.read 16)
  if (65535 - len) ^^^ nlen ≠ 0 then
    Traced.fail (.invalid "stored block: LEN/NLEN mismatch")
  else storedCells len len w br

/-! ## Runs -/

/-- Leave the speculative blocks after the last one, or `none` to hand off to the byte kernel. -/
def leavePhase1 (endBitHint : ℕ) (r : (Bool × Window) × BitReader) :
    Option ((Option Bool × Window) × BitReader) :=
  if r.1.1 then some ((some true, r.1.2), r.2)
  else if endBitHint ≤ r.2.tellBit then some ((some false, r.1.2), r.2)
  else if Speculative.markerFree r.1.2 then some ((none, r.1.2), r.2)
  else none

/-- The speculative blocks. -/
def phase1 (endBitHint : ℕ) (w : Window) (br : BitReader) :
    Kernel ((Option Bool × Window) × BitReader) :=
  Accumulator.runBlocks decodeStoredU16 decodeCompressedU16 (leavePhase1 endBitHint) w br

/-- The blocks after the hand-off. -/
def phase2 (endBitHint : ℕ) (bytes : List UInt8) (br : BitReader) :
    Kernel ((ℕ × Bool) × List UInt8) :=
  (Accumulator.runBlocks (fun out br => Traced.lift (decodeStored br out))
    Accumulator.decodeCompressedPreload (Accumulator.leaveAt endBitHint) bytes br).relabel .bits

/-- Decode speculatively from a bit position. -/
def decodeUntilU16 (input : List UInt8) (startBit endBitHint : ℕ) (chunk : SpeculativeChunk)
    (scratch : List ℕ) : Kernel ((ℕ × Bool) × SpeculativeChunk) := do
  let br ← Traced.lift ((BitReader.new input).seekToBit startBit)
  let ((ended, w), br) ←
    phase1 endBitHint ⟨Speculative.prepareScratch scratch, 0, 0, chunk⟩ br
  let chunk := w.extractAll
  match ended with
  | some finalBlock => pure ((br.tellBit, finalBlock), chunk)
  | none => do
    let (finish, bytes) ← phase2 endBitHint chunk.bytes br
    pure (finish, { chunk with bytes := bytes })

/-! ## The monitor -/

/-- The cursor, and the cells that were written since the last slide or retained by it. -/
structure Cells where
  cur : ℕ
  written : ℕ → Prop

/-- What an access does to the cells. -/
def Cells.after (g : Cells) : Access → Cells
  | .store pos count => { g with written := fun i => g.written i ∨ (pos ≤ i ∧ i < pos + count) }
  | .emit count => { g with cur := g.cur + count }
  | .slide flushCount =>
    ⟨U16_WINDOW, fun i => i < U16_WINDOW ∧ g.written (flushCount + i)⟩
  | _ => g

/-- Bits are used soundly. A copy starts at a written cell that is there. Loads stay in the buffer,
and what matters of them was written. Stores spare the cells before the cursor and stay in the
buffer. The cursor moves over written cells, and stays a match short of the end. A slide keeps the
last 32 KiB. -/
def Allowed (input : List UInt8) (g : Cells) : Access → Prop
  | .bits access => Sound input access
  | .copy distance => 0 < distance ∧ distance ≤ g.cur ∧
      ∀ i, g.cur - distance ≤ i → i < g.cur → g.written i
  | .load pos count needed => pos + count ≤ U16_BUFCAP ∧
      ∀ i, pos ≤ i → i < pos + needed → g.written i
  | .store pos count => g.cur ≤ pos ∧ pos + count ≤ U16_BUFCAP
  | .emit count => g.cur + count ≤ U16_FLUSH_AT + 257 ∧
      ∀ i, g.cur ≤ i → i < g.cur + count → g.written i
  | .slide flushCount => flushCount + U16_WINDOW = g.cur ∧ ∀ i < g.cur, g.written i

/-- The monitor of the window kernel on an input. -/
def window (input : List UInt8) : Monitor Cells Access := ⟨Cells.after, Allowed input⟩

/-! ## The records leave the results alone -/

section Results

variable {lit dist : HuffmanDecoder} {w : Window} {br : BitReader}

/-- The recorded copy leaves the cells of the copy. -/
theorem result_copyBackU16 (distance length : ℕ) :
    (copyBackU16 w distance length).result = .ok { w with
      scratch := RustyRapidgzip.copyBackU16 w.scratch w.cur distance length
      cur := w.cur + length } := rfl

/-- The recorded match returns what the match returns. -/
theorem result_backReference (distance length : ℕ) :
    (backReference w distance length).result = w.backReference distance length := by
  unfold backReference Window.backReference
  rw [Traced.result_ite, Traced.result_ite, Traced.result_bind, Traced.result_tellAll]
  simp only [Traced.ok_bind, Traced.result_bind, Traced.result_tell]
  rw [Traced.result_ite]
  rfl

/-- The recorded flush returns the flushed window. -/
theorem result_flushFull : (flushFull w).result = .ok w.flushFull := by
  unfold flushFull Window.flushFull
  rw [Traced.result_ite]
  split <;> rfl

/-- The recorded push returns the window with the cell. -/
theorem result_push (cell : ℕ) : (push w cell).result = .ok (w.push cell) := rfl

/-- The recorded load returns what the load returns. -/
theorem result_preloadNext :
    (preloadNext lit w br).result = .ok (Speculative.preloadNext lit w br) := by
  unfold preloadNext Speculative.preloadNext
  rw [Traced.result_ite, Traced.result_bind, Traced.result_tell]
  simp only [Traced.ok_bind]
  rw [Traced.result_ite]
  split
  · rfl
  · split <;> rfl

/-- A recorded symbol returns what the round with that symbol returns. -/
theorem result_symbol (entry : ℕ) (w : Window) (br : BitReader)
    (hliteral : ¬entry &&& HUFFDEC_LITERAL ≠ 0) :
    (symbol dist entry w br).result = Speculative.round lit dist ⟨some entry, w, br⟩ := by
  unfold symbol Speculative.round
  simp only
  rw [if_neg hliteral, Traced.result_ite, Traced.result_ite, Traced.result_bind,
    Traced.result_relabel, Accumulator.result_refillIf]
  cases (if br.bits < 33 then br.refillKernel else .ok br) with
  | error e => rfl
  | ok br =>
    simp only [Traced.ok_bind, Traced.result_bind, Traced.result_relabel,
      Accumulator.result_lengthOf, Accumulator.result_distanceOf]
    unfold copyMatch
    cases distanceOf dist (lengthOf entry br).2 with
    | error e => rfl
    | ok r =>
      obtain ⟨distance, br'⟩ := r
      simp only [Traced.ok_bind, result_backReference]
      cases w.backReference distance (lengthOf entry br).1 <;> rfl

/-- A recorded round returns what the round returns. -/
theorem result_round (s : State) : (round lit dist s).result = Speculative.round lit dist s := by
  obtain ⟨loaded, w, br⟩ := s
  cases loaded with
  | none =>
    unfold round Speculative.round
    simp only
    rw [Traced.result_bind, Traced.result_relabel, Accumulator.result_refillKernel]
    cases br.refillKernel with
    | error e => rfl
    | ok br =>
      simp only [Traced.ok_bind, Traced.result_bind, Traced.result_relabel, result_flushFull,
        Accumulator.result_lookupFilled]
      cases lit.lookupFilled br <;> rfl
  | some entry =>
    by_cases hliteral : entry &&& HUFFDEC_LITERAL ≠ 0
    · unfold round Speculative.round
      simp only
      rw [if_pos hliteral, if_pos hliteral]
      simp only [Traced.result_bind, result_push, result_preloadNext, Traced.ok_bind]
      rfl
    · rw [← result_symbol entry w br hliteral]
      unfold round
      simp only
      rw [if_neg hliteral]

/-- The recorded kernel returns what the kernel returns. -/
theorem result_decodeCompressedU16 (lit dist : HuffmanDecoder) (w : Window) (br : BitReader) :
    (decodeCompressedU16 lit dist w br).result =
      Speculative.decodeCompressedU16 lit dist w br := by
  unfold decodeCompressedU16 Speculative.decodeCompressedU16
  rw [Traced.result_iterate]
  simp only [result_round]

/-- Recorded reads of stored bytes return what the reads return. -/
theorem result_readCells (n : ℕ) (w : Window) (br : BitReader) :
    (readCells n w br).result = Speculative.readCells n w br := by
  induction n generalizing w br with
  | zero => rfl
  | succ n ih =>
    unfold readCells Speculative.readCells
    rw [Traced.result_bind, Traced.result_lift]
    cases br.read 8 with
    | error e => rfl
    | ok r =>
      obtain ⟨b, br⟩ := r
      simp only [Traced.ok_bind, Traced.result_bind, result_push, ih]

/-- The recorded chunks of a stored block return what the chunks return. -/
theorem result_storedCells (rounds remaining : ℕ) (w : Window) (br : BitReader) :
    (storedCells rounds remaining w br).result =
      Speculative.storedCells rounds remaining w br := by
  induction rounds generalizing remaining w br with
  | zero =>
    unfold storedCells Speculative.storedCells
    rw [Traced.result_ite]
    rfl
  | succ rounds ih =>
    unfold storedCells Speculative.storedCells
    rw [Traced.result_ite, Traced.result_bind, result_flushFull]
    simp only [Traced.ok_bind, Traced.result_bind, result_readCells]
    by_cases hzero : remaining = 0
    · rw [if_pos hzero, if_pos hzero]
      rfl
    rw [if_neg hzero, if_neg hzero]
    cases Speculative.readCells (min remaining (U16_FLUSH_AT - w.flushFull.cur)) w.flushFull br with
    | error e => rfl
    | ok r =>
      obtain ⟨w', br'⟩ := r
      exact ih _ w' br'

/-- A recorded stored block returns what the block returns. -/
theorem result_decodeStoredU16 (w : Window) (br : BitReader) :
    (decodeStoredU16 w br).result = Speculative.decodeStoredU16 w br := by
  unfold decodeStoredU16 Speculative.decodeStoredU16
  simp only
  rw [Traced.result_bind, Traced.result_lift]
  cases br.byteAlign.read 16 with
  | error e => rfl
  | ok r =>
    obtain ⟨len, br⟩ := r
    simp only [Traced.ok_bind, Traced.result_bind, Traced.result_lift]
    cases br.read 16 with
    | error e => rfl
    | ok r =>
      obtain ⟨nlen, br⟩ := r
      simp only [Traced.ok_bind, Traced.result_ite, result_storedCells]
      rfl

/-- The speculative blocks, recording or not. -/
theorem result_phase1 (endBitHint : ℕ) (w : Window) (br : BitReader) :
    (phase1 endBitHint w br).result = Speculative.phase1 endBitHint w br := by
  unfold phase1 Speculative.phase1
  rw [Accumulator.result_runBlocks]
  congr 1
  funext s
  have hblock : (Accumulator.decodeOneBlock decodeStoredU16 decodeCompressedU16 s.1 s.2).result =
      Speculative.decodeOneBlockU16 s.1 s.2 := by
    rw [Accumulator.result_decodeOneBlock]
    simp only [Accumulator.result_decodeContents, result_decodeStoredU16,
      result_decodeCompressedU16]
    rfl
  unfold Speculative.phase1Round
  rw [hblock]
  cases Speculative.decodeOneBlockU16 s.1 s.2 with
  | error e => rfl
  | ok r =>
    obtain ⟨⟨bfinal, w⟩, br⟩ := r
    simp only [Except.map, Accumulator.next, leavePhase1]
    cases bfinal with
    | true => rfl
    | false =>
      by_cases hhint : endBitHint ≤ br.tellBit
      · simp [hhint]
      · by_cases hfree : Speculative.markerFree w = true
        · simp [hhint, hfree]
        · simp [hhint, hfree]

/-- The recording run returns what speculative decoding does. -/
theorem result_decodeUntilU16 (input : List UInt8) (startBit endBitHint : ℕ)
    (chunk : SpeculativeChunk) (scratch : List ℕ) :
    (decodeUntilU16 input startBit endBitHint chunk scratch).result =
      Unbounded.decodeUntilU16 input startBit endBitHint chunk scratch := by
  unfold decodeUntilU16 Unbounded.decodeUntilU16
  rw [Traced.result_bind, Traced.result_lift]
  cases (BitReader.new input).seekToBit startBit with
  | error e => rfl
  | ok br =>
    simp only [Traced.ok_bind, Traced.result_bind, result_phase1]
    cases Speculative.phase1 endBitHint ⟨Speculative.prepareScratch scratch, 0, 0, chunk⟩ br with
    | error e => rfl
    | ok r =>
      obtain ⟨⟨ended, w⟩, br₁⟩ := r
      simp only [Traced.ok_bind]
      cases ended with
      | some f => rfl
      | none =>
        simp only [Traced.result_bind, phase2, Traced.result_relabel]
        rw [Accumulator.result_runBlocks_bytes endBitHint
          Accumulator.result_decodeCompressedPreload]
        unfold Unbounded.decodeOneBlockPreload
        cases blocksWith (blockWith Unbounded.decodeCompressedPreload)
          (fun br => decide (endBitHint ≤ br.tellBit)) w.extractAll.bytes br₁ <;> rfl

end Results

/-! ## Copies stay in the window -/

/-- Accesses that leave the cursor, forget no cell and write a range of them. -/
structure Fills (g g' : Cells) (lo hi : ℕ) : Prop where
  cur_eq : g'.cur = g.cur
  keeps : ∀ i, g.written i → g'.written i
  fills : ∀ i, lo ≤ i → i < hi → g'.written i

section Copies

variable {input : List UInt8} {g g' : Cells}

/-- A store, and then what writes the cells after it. -/
theorem Fills.store {pos count lo hi : ℕ} (h : Fills (g.after (.store pos count)) g' lo hi)
    (hlo : lo ≤ pos + count) : Fills g g' pos hi := by
  refine ⟨h.cur_eq, fun i hi => h.keeps i (Or.inl hi), fun i hge hlt => ?_⟩
  by_cases hnear : i < pos + count
  · exact h.keeps i (Or.inr ⟨hge, hnear⟩)
  · exact h.fills i (by omega) hlt

/-- Nothing is filled between two places in the wrong order. -/
theorem Fills.none {lo hi : ℕ} (hle : hi ≤ lo) : Fills g g lo hi :=
  ⟨rfl, fun _ h => h, fun _ hge hlt => by omega⟩

/-- Filling cells behind the cursor is allowed, and fills them. -/
theorem accepts_fillAccesses (n : ℕ) {dst : ℕ} (hdst : g.cur ≤ dst)
    (hroom : dst + n ≤ U16_BUFCAP) :
    (window input).Accepts g (fillAccesses n dst) ∧
      Fills g ((window input).after g (fillAccesses n dst)) dst (dst + n) := by
  induction n generalizing g dst with
  | zero => exact ⟨trivial, .none le_rfl⟩
  | succ n ih =>
    obtain ⟨haccepts, hfills⟩ := @ih (g.after (.store dst 1)) (dst + 1)
      (show g.cur ≤ dst + 1 by omega) (by omega)
    rw [show dst + 1 + n = dst + (n + 1) by omega] at hfills
    exact ⟨⟨⟨hdst, by omega⟩, haccepts⟩, hfills.store le_rfl⟩

/-- Copying cell by cell is allowed where the source is written or will be, and fills the target. -/
theorem accepts_cellAccesses (n : ℕ) {src dst : ℕ} (hlt : src < dst) (hdst : g.cur ≤ dst)
    (hroom : dst + n ≤ U16_BUFCAP) (hwritten : ∀ i, src ≤ i → i < dst → g.written i) :
    (window input).Accepts g (cellAccesses n src dst) ∧
      Fills g ((window input).after g (cellAccesses n src dst)) dst (dst + n) := by
  induction n generalizing g src dst with
  | zero => exact ⟨trivial, .none le_rfl⟩
  | succ n ih =>
    have hnext (i : ℕ) (hge : src + 1 ≤ i) (hi : i < dst + 1) :
        (g.after (.store dst 1)).written i := by
      by_cases hold : i < dst
      · exact Or.inl (hwritten i (by omega) hold)
      · exact Or.inr ⟨by omega, hi⟩
    obtain ⟨haccepts, hfills⟩ := @ih (g.after (.store dst 1)) (src + 1) (dst + 1) (by omega)
      (show g.cur ≤ dst + 1 by omega) (by omega) hnext
    rw [show dst + 1 + n = dst + (n + 1) by omega] at hfills
    refine ⟨⟨⟨by omega, fun i hge hi => hwritten i hge (by omega)⟩, ⟨hdst, by omega⟩, haccepts⟩, ?_⟩
    exact hfills.store le_rfl

/-- Copying eight cells at a time is allowed where seven more cells fit. -/
theorem accepts_chunkAccesses (rounds : ℕ) {src dst stop : ℕ}
    (hrounds : stop ≤ src + 8 * rounds) (hsrc : src < stop) (hle : src ≤ dst)
    (hdst : g.cur ≤ dst) (hroom : dst + (stop - src) + 7 ≤ U16_BUFCAP)
    (hwritten : ∀ i, src ≤ i → i < stop → g.written i) :
    (window input).Accepts g (chunkAccesses rounds src dst stop) ∧
      Fills g ((window input).after g (chunkAccesses rounds src dst stop)) dst
        (dst + (stop - src)) := by
  induction rounds generalizing g src dst with
  | zero => omega
  | succ rounds ih =>
    have hload : Allowed input g (.load src 8 (min 8 (stop - src))) :=
      ⟨by omega, fun i hge hi => hwritten i hge (by omega)⟩
    have hstore : Allowed input g (.store dst 8) := ⟨hdst, by omega⟩
    rw [chunkAccesses]
    by_cases hlast : stop ≤ src + 8
    · rw [if_pos hlast]
      refine ⟨⟨hload, hstore, trivial⟩, ?_⟩
      exact Fills.store (.none (show dst + (stop - src) ≤ dst + 8 by omega)) le_rfl
    · obtain ⟨haccepts, hfills⟩ := @ih (g.after (.store dst 8)) (src + 8) (dst + 8) (by omega)
        (by omega) (by omega) (show g.cur ≤ dst + 8 by omega) (by omega)
        (fun i hge hi => Or.inl (hwritten i (by omega) hi))
      rw [show dst + 8 + (stop - (src + 8)) = dst + (stop - src) by omega] at hfills
      rw [if_neg hlast]
      exact ⟨⟨hload, hstore, haccepts⟩, hfills.store le_rfl⟩

/-- However it is done, a copy loads written cells and writes its own. -/
theorem accepts_copyAccesses {distance length : ℕ} (hpos : 0 < distance)
    (hle : distance ≤ g.cur) (hlength : 0 < length)
    (hroom : g.cur + length + 7 ≤ U16_BUFCAP) (hwritten : ∀ i < g.cur, g.written i) :
    (window input).Accepts g (copyAccesses g.cur distance length) ∧
      Fills g ((window input).after g (copyAccesses g.cur distance length)) g.cur
        (g.cur + length) := by
  unfold copyAccesses
  simp only
  split
  · have h := @accepts_chunkAccesses input g length (g.cur - distance) g.cur
      (g.cur - distance + length) (by omega) (by omega) (by omega) le_rfl (by omega)
      (fun i _ hi => hwritten i (by omega))
    rwa [Nat.add_sub_cancel_left] at h
  split
  · next hone =>
    obtain ⟨haccepts, hfills⟩ := @accepts_fillAccesses input g length g.cur le_rfl (by omega)
    refine ⟨⟨⟨by omega, fun i hge hi => hwritten i (by omega)⟩, haccepts⟩, hfills⟩
  · exact accepts_cellAccesses length (by omega) le_rfl (by omega)
      (fun i _ hi => hwritten i hi)

/-- A cursor a match short of the end leaves room for the last chunk. -/
theorem room_of_flush {cur n : ℕ} (h : cur + n ≤ U16_FLUSH_AT + 257) :
    cur + n + 7 ≤ U16_BUFCAP := Nat.le_trans (Nat.add_le_add_right h 7) (by decide)

end Copies

/-! ## The window -/

/-- The monitor follows the window: the cells before the cursor are written, and once the window
slid it holds what a copy can reach. -/
structure Tracked (w : Window) (g : Cells) : Prop where
  cur_eq : g.cur = w.cur
  written : ∀ i < w.cur, g.written i
  based : w.windowBase = 0 ∨ U16_WINDOW ≤ w.cur
  cur_le : w.cur ≤ U16_FLUSH_AT + 257

section Windows

variable {input : List UInt8} {w w' : Window} {g g' : Cells} {distance length : ℕ}

/-- A new window has no cells that are known. -/
theorem tracked_start (scratch : ℕ → ℕ) (chunk : SpeculativeChunk) :
    Tracked ⟨scratch, 0, 0, chunk⟩ ⟨0, fun _ => False⟩ :=
  ⟨rfl, fun _ h => absurd h (Nat.not_lt_zero _), Or.inl rfl, Nat.zero_le _⟩

/-- The cursor moves over cells that were just written. -/
theorem Tracked.emit (h : Tracked w g) {n : ℕ} (hfills : Fills g g' w.cur (w.cur + n))
    (hroom : w.cur + n ≤ U16_FLUSH_AT + 257) (hcur : w'.cur = w.cur + n)
    (hbase : w'.windowBase = w.windowBase) :
    Allowed input g' (.emit n) ∧ Tracked w' (g'.after (.emit n)) := by
  have hsame : g'.cur = w.cur := hfills.cur_eq.trans h.cur_eq
  refine ⟨⟨by omega, fun i hge hi => hfills.fills i (by omega) (by omega)⟩, ?_⟩
  refine ⟨?_, fun i hi => ?_, ?_, by omega⟩
  · show g'.cur + n = w'.cur
    omega
  · by_cases hold : i < w.cur
    · exact hfills.keeps i (h.written i hold)
    · exact hfills.fills i (by omega) (by omega)
  · rw [hbase, hcur]
    exact h.based.imp id fun hle => by omega

/-- A copy of a match that fits stays in the window, and leaves it tracked. -/
theorem ensures_copyBackU16 (h : Tracked w g) (hpos : 0 < distance) (hle : distance ≤ w.cur)
    (hlength : 0 < length) (hroom : w.cur + length ≤ U16_FLUSH_AT + 257) :
    (window input).Ensures g (copyBackU16 w distance length) Tracked := by
  have hcur := h.cur_eq
  have hwritten (i : ℕ) (hi : i < g.cur) : g.written i := h.written i (by omega)
  rw [← hcur] at hle
  obtain ⟨haccepts, hfills⟩ := @accepts_copyAccesses input g distance length hpos hle hlength
    (room_of_flush (by rwa [hcur])) hwritten
  rw [hcur] at hle haccepts hfills
  refine .bind (.tell ⟨hpos, by omega, fun i _ hi => hwritten i hi⟩
    (Q := fun _ g' => g = g') rfl) ?_
  rintro _ _ rfl
  refine .bind (.tellAll haccepts (Q := fun _ g' => Fills g g' w.cur (w.cur + length)) hfills) ?_
  intro _ g' hfills
  obtain ⟨hallowed, htracked⟩ := @Tracked.emit input w { w with
    scratch := RustyRapidgzip.copyBackU16 w.scratch w.cur distance length
    cur := w.cur + length } g g' h length hfills hroom rfl rfl
  refine .bind (.tell hallowed (Q := fun _ g'' => Tracked { w with
    scratch := RustyRapidgzip.copyBackU16 w.scratch w.cur distance length
    cur := w.cur + length } g'') htracked) ?_
  exact fun _ g'' htracked => .pure htracked

/-- From an open window a match fits, and its copy finds its source. -/
theorem ensures_backReference (h : Tracked w g) (hopen : w.cur < U16_FLUSH_AT)
    (hpos : 1 ≤ distance) (hmax : distance ≤ MAX_DISTANCE) (hlength : 3 ≤ length)
    (hle : length ≤ 258) :
    (window input).Ensures g (backReference w distance length) Tracked := by
  have hroom : w.cur + length ≤ U16_FLUSH_AT + 257 := by omega
  unfold backReference
  by_cases hover : w.windowBase = 0 ∧ w.cur < distance
  · rw [if_pos hover]
    obtain ⟨count, hcount⟩ : ∃ count, min (distance - w.cur) length = count := ⟨_, rfl⟩
    have hcountle : count ≤ length := by omega
    have hsum : w.cur + count ≤ U16_FLUSH_AT + 257 := by omega
    simp only [hcount]
    have hcur := h.cur_eq
    obtain ⟨haccepts, hfills⟩ := @accepts_fillAccesses input g count w.cur hcur.le
      (Nat.le_trans (Nat.le_add_right _ 7) (room_of_flush hsum))
    refine .bind (.tellAll haccepts (Q := fun _ g' => Fills g g' w.cur (w.cur + count)) hfills) ?_
    intro _ g' hfills
    obtain ⟨w', hw'⟩ : ∃ w', ({ w with
      scratch := writeMarkers distance w.cur count 0 w.scratch
      cur := w.cur + count } : Window) = w' := ⟨_, rfl⟩
    have hcur' : w'.cur = w.cur + count := by rw [← hw']
    obtain ⟨hallowed, htracked⟩ := @Tracked.emit input w w' g g' h count hfills hsum hcur'
      (by rw [← hw'])
    refine .bind (.tell hallowed (Q := fun _ g'' => Tracked w' g'') htracked) fun _ g'' h' => ?_
    rw [hw']
    split
    · -- what is left of the match starts at the first cell
      exact ensures_copyBackU16 h' hpos (by omega) (by omega) (by omega)
    · exact .pure h'
  rw [if_neg hover, if_neg (by omega)]
  refine ensures_copyBackU16 h hpos ?_ (by omega) hroom
  rcases h.based with hzero | hslid
  · exact Nat.le_of_not_lt fun hlt => hover ⟨hzero, hlt⟩
  · exact Nat.le_trans hmax hslid

/-- A flush leaves an open window. -/
theorem ensures_flushFull (h : Tracked w g) :
    (window input).Ensures g (flushFull w) fun w' g' =>
      Tracked w' g' ∧ w'.cur < U16_FLUSH_AT := by
  have hcur := h.cur_eq
  have hwide : U16_WINDOW < U16_FLUSH_AT := by decide
  unfold flushFull
  split
  · next hfull =>
    have hsum : w.cur - U16_WINDOW + U16_WINDOW = w.cur := Nat.sub_add_cancel (by omega)
    have hallowed : Allowed input g (.slide (w.cur - U16_WINDOW)) :=
      ⟨hsum.trans hcur.symm, fun i hi => h.written i (by omega)⟩
    have htracked : Tracked w.flushU16 (g.after (.slide (w.cur - U16_WINDOW))) := by
      refine ⟨rfl, fun i hi => ⟨hi, h.written _ ?_⟩, Or.inr le_rfl,
        Nat.le_trans hwide.le (Nat.le_add_right _ _)⟩
      have hi' : i < U16_WINDOW := hi
      omega
    refine .bind (.tell hallowed (Q := fun _ g' => Tracked w.flushU16 g') htracked) ?_
    exact fun _ g' htracked => .pure ⟨htracked, hwide⟩
  · next hopen => exact .pure ⟨h, Nat.lt_of_not_le hopen⟩

/-- A push into a window that is not full stays in it. -/
theorem ensures_push (h : Tracked w g) (hopen : w.cur < U16_FLUSH_AT) (cell : ℕ) :
    (window input).Ensures g (push w cell) fun w' g' =>
      Tracked w' g' ∧ w' = w.push cell := by
  have hcur := h.cur_eq
  have hroom : w.cur + 1 ≤ U16_FLUSH_AT + 257 := by omega
  have hstore : Allowed input g (.store w.cur 1) :=
    ⟨hcur.le, Nat.le_trans (Nat.le_add_right _ 7) (room_of_flush hroom)⟩
  have hfills : Fills g (g.after (.store w.cur 1)) w.cur (w.cur + 1) :=
    Fills.store (.none le_rfl) le_rfl
  refine .bind (.tell hstore (Q := fun _ g' => Fills g g' w.cur (w.cur + 1)) hfills) ?_
  intro _ g' hfills
  obtain ⟨hallowed, htracked⟩ :=
    @Tracked.emit input w (w.push cell) g g' h 1 hfills hroom rfl rfl
  refine .bind (.tell hallowed (Q := fun _ g'' => Tracked (w.push cell) g'') htracked) ?_
  exact fun _ g'' htracked => .pure ⟨htracked, rfl⟩

end Windows

/-! ## The symbol loop keeps the window -/

/-- A state of the window kernel: the window is followed, the reader stands in the input, and a
loaded entry is the symbol before the reader. -/
structure Steady (input : List UInt8) (lits : List ℕ) (s : State) (g : Cells) : Prop where
  tracked : Tracked s.window g
  top : s.loaded = none → Stays input s.br
  loaded : ∀ entry, s.loaded = some entry →
    s.window.cur < U16_FLUSH_AT ∧ ∃ bs, Speculative.Loaded input lits entry s.br bs

section Loop

variable {input : List UInt8} {lit dist : HuffmanDecoder} {lits dists : List ℕ} {br : BitReader}
  {bs : List Bool} {w : Window} {g : Cells}

/-- What is done with the bit word leaves the cells alone. -/
theorem ensures_bits {α : Type} {x : Accumulator.Kernel α} {Q : α → Prop}
    (h : Accumulator.Keeps input x Q) :
    (window input).Ensures g (x.relabel .bits) fun a g' => Q a ∧ g' = g :=
  .relabel (fun _ _ => rfl) (fun _ h => h) h

/-- A tracked window starts a round with nothing loaded. -/
theorem Tracked.steady (h : Tracked w g) (hat : br.At input bs) :
    Steady input lits ⟨none, w, br⟩ g := ⟨h, fun _ => ⟨bs, hat⟩, nofun⟩

/-- Loading the next entry leaves the window alone. -/
theorem ensures_preloadNext (hlit : lit.Implements lits .litLen) (h : Tracked w g)
    (hat : br.At input bs) :
    (window input).Ensures g (preloadNext lit w br) (Steady input lits) := by
  have h10 : LUT_BITS = 10 := rfl
  unfold preloadNext
  split
  · exact .pure (h.steady hat)
  next hgo =>
  obtain ⟨hbits, hopen⟩ := not_or.mp hgo
  have hle := Accumulator.length_lut_le hlit hat (by omega)
  refine .bind (.tell (Q := fun _ g' => Tracked w g') (show LUT_BITS ≤ br.bits by omega) h) ?_
  intro _ g' h
  simp only
  split
  · exact .pure (h.steady hat)
  next hshort =>
  refine .bind (.tell (Q := fun _ g' => Tracked w g') (show _ ≤ br.bits by omega) h) ?_
  intro _ g' h
  refine .pure ⟨h, nofun, ?_⟩
  rintro entry ⟨⟩
  rw [hat.peek_eq (by omega)] at hshort ⊢
  have hwide := hat.bits_le_length
  rcases hlit.lut_cases bs (by omega) with ⟨sym, hdec, hle, hpos, hlut⟩ | ⟨-, hlut⟩
  · have hcons := ((hat.holds (n := LUT_BITS) (by omega)).consume hle hpos).1
    rw [hlut, encodeEntry_length sym .litLen (by omega)]
    exact ⟨Nat.lt_of_not_le hopen, bs, sym, _, hdec, rfl, hcons⟩
  · rw [hlut] at hshort
    simp at hshort

/-- A step keeps the states, and ends a block with the window and the reader in place. -/
abbrev KeepsStep (input : List UInt8) (lits : List ℕ) (g : Cells)
    (x : Kernel (State ⊕ (Window × BitReader))) : Prop :=
  (window input).Ensures g x fun r g' => Sum.elim (Steady input lits · g')
    (fun r => Tracked r.1 g' ∧ Stays input r.2) r

/-- A symbol that is no literal keeps the window. -/
theorem keeps_symbol (hdist : dist.Implements dists .dist) (h : Tracked w g)
    (hopen : w.cur < U16_FLUSH_AT) {sym length : ℕ} (hsym : sym < 2 ^ 15) (hle : length ≤ 15)
    (hliteral : encodeEntry sym length .litLen &&& HUFFDEC_LITERAL = 0) (hat : br.At input bs) :
    KeepsStep input lits g (symbol dist (encodeEntry sym length .litLen) w br) := by
  unfold symbol
  split
  · split
    · exact .pure ⟨h, bs, hat⟩
    · exact .fail _
  next hexc =>
  have hexc := not_not.mp hexc
  obtain ⟨base, extra, -, hextra, -, hextra5, -⟩ :=
    Accumulator.length_of_entry hsym hle hliteral hexc
  refine .bind (ensures_bits (Accumulator.keeps_refillIf hat (n := 33) (by decide) (by omega))) ?_
  rintro br₁ _ ⟨⟨hat₁, hbits₁⟩, rfl⟩
  refine .bind (ensures_bits (Accumulator.keeps_lengthOf hsym hle hliteral hexc hat₁
    (by omega))) ?_
  rintro ⟨n, br₂⟩ _ ⟨⟨⟨hmin, hmax⟩, ⟨rest, hat₂⟩, hbits₂⟩, rfl⟩
  simp only at hmin hmax hat₂ hbits₂ ⊢
  refine .bind (ensures_bits (Accumulator.keeps_distanceOf hdist hat₂ (by omega))) ?_
  rintro ⟨d, br₃⟩ _ ⟨⟨⟨hpos, hfar⟩, rest', hat₃⟩, rfl⟩
  refine .bind (ensures_backReference h hopen hpos hfar hmin hmax) ?_
  exact fun w' g' h' => .pure (h'.steady hat₃)

/-- A round keeps the window. -/
theorem keeps_round (hlen : lits.length ≤ 288) (hlit : lit.Implements lits .litLen)
    (hdist : dist.Implements dists .dist) {s : State} (hs : Steady input lits s g) :
    KeepsStep input lits g (round lit dist s) := by
  obtain ⟨loaded, w, br⟩ := s
  obtain ⟨htracked, htop, hloaded⟩ := hs
  unfold round
  cases loaded with
  | none =>
    obtain ⟨bs, hat⟩ := htop rfl
    refine .bind (ensures_bits (Accumulator.keeps_refillKernel hat)) ?_
    rintro br₁ _ ⟨⟨hat₁, hbits₁⟩, rfl⟩
    refine .bind (ensures_flushFull htracked) ?_
    rintro w₁ g₁ ⟨htracked₁, hopen⟩
    refine .bind (ensures_bits (Accumulator.keeps_lookupFilled hlit hat₁
      (Nat.le_trans (by decide) hbits₁))) ?_
    rintro ⟨entry, br₂⟩ _ ⟨⟨sym, rest, hdec, -, -, rfl, hat₂, -⟩, rfl⟩
    refine .pure ⟨htracked₁, nofun, ?_⟩
    rintro _ ⟨⟩
    exact ⟨hopen, bs, sym, rest, hdec, rfl, hat₂⟩
  | some entry =>
    obtain ⟨hopen, bs, sym, rest, hdec, rfl, hat⟩ := hloaded entry rfl
    obtain ⟨hlt, -, hle, -⟩ := Canonical.decode_some hdec
    simp only at htracked hopen hat ⊢
    split
    · refine .bind (ensures_push htracked hopen _) ?_
      rintro w₁ g₁ ⟨htracked₁, -⟩
      refine .bind (ensures_preloadNext hlit htracked₁ hat) ?_
      exact fun s g₂ hs => .pure hs
    · next hliteral =>
      exact keeps_symbol hdist htracked hopen (by omega) hle (not_not.mp hliteral) hat

/-- `decode_compressed_u16` keeps the window. -/
theorem carries_decodeCompressedU16 :
    Accumulator.CarriesCodes (window input) Tracked input decodeCompressedU16 := by
  intro lit dist lits dists hlen hlit hdist g w br bs h hat
  have hround (s : State) (g : Cells) (hs : Steady input lits s g) :
      KeepsStep input lits g (round lit dist s) := keeps_round hlen hlit hdist hs
  exact .iterate hround _ (h.steady hat)

end Loop

/-! ## Stored blocks keep the window -/

section Stored

variable {input : List UInt8} {br : BitReader} {bs : List Bool} {w : Window} {g : Cells}

/-- Reading from the input. -/
theorem ensures_read (hat : br.At input bs) {n : ℕ} (hn : n ≤ 56) (h : Tracked w g) :
    (window input).Ensures g (Traced.lift (br.read n)) fun r g' =>
      Tracked w g' ∧ Stays input r.2 := by
  refine .lift fun r hok => ⟨h, ?_⟩
  obtain ⟨-, rest, -, -, hat'⟩ := (hat.agrees_read hn).sound r.1 r.2 hok
  exact ⟨rest, hat'⟩

/-- Stored bytes that fit stay in the window. -/
theorem ensures_readCells {n : ℕ} (h : Tracked w g) (hroom : w.cur + n ≤ U16_FLUSH_AT)
    (hat : br.At input bs) :
    (window input).Ensures g (readCells n w br) fun r g' => Tracked r.1 g' ∧ Stays input r.2 := by
  induction n generalizing w g br bs with
  | zero => exact .pure ⟨h, bs, hat⟩
  | succ n ih =>
    refine .bind (ensures_read hat (by decide) h) ?_
    rintro ⟨b, br₁⟩ g₁ ⟨h₁, bs₁, hat₁⟩
    refine .bind (ensures_push h₁ (by omega) b) ?_
    rintro _ g₂ ⟨h₂, rfl⟩
    exact ih h₂ (show w.cur + 1 + n ≤ U16_FLUSH_AT by omega) hat₁

/-- The chunks of a stored block stay in the window. -/
theorem ensures_storedCells (rounds remaining : ℕ) (h : Tracked w g) (hat : br.At input bs) :
    (window input).Ensures g (storedCells rounds remaining w br) fun r g' =>
      Tracked r.1 g' ∧ Stays input r.2 := by
  induction rounds generalizing remaining w g br bs with
  | zero =>
    unfold storedCells
    split
    · exact .pure ⟨h, bs, hat⟩
    · exact .fail _
  | succ rounds ih =>
    unfold storedCells
    split
    · exact .pure ⟨h, bs, hat⟩
    refine .bind (ensures_flushFull h) ?_
    rintro w₁ g₁ ⟨h₁, hopen⟩
    refine .bind (ensures_readCells h₁ (by omega) hat) ?_
    rintro ⟨w₂, br₂⟩ g₂ ⟨h₂, bs₂, hat₂⟩
    exact ih _ h₂ hat₂

/-- A stored block keeps the window. -/
theorem carries_decodeStoredU16 :
    Accumulator.Carries (window input) Tracked input decodeStoredU16 := by
  intro g w br bs h hat
  unfold decodeStoredU16
  refine .bind (ensures_read hat.byteAlign (by decide) h) ?_
  rintro ⟨len, br₁⟩ g₁ ⟨h₁, bs₁, hat₁⟩
  refine .bind (ensures_read hat₁ (by decide) h₁) ?_
  rintro ⟨nlen, br₂⟩ g₂ ⟨h₂, bs₂, hat₂⟩
  simp only at hat₂ ⊢
  split
  · exact .fail _
  · exact ensures_storedCells len len h₂ hat₂

end Stored

/-! ## Whole runs -/

/-- The speculative blocks keep the window, whatever comes. -/
theorem ensures_phase1 {input : List UInt8} {br : BitReader} {bs : List Bool} {w : Window}
    {g : Cells} (endBitHint : ℕ) (h : Tracked w g) (hat : br.At input bs) :
    (window input).Ensures g (phase1 endBitHint w br) fun r g' =>
      Tracked r.1.2 g' ∧ Stays input r.2 := by
  refine (Accumulator.ensures_runBlocks carries_decodeStoredU16 carries_decodeCompressedU16
    (leavePhase1 endBitHint) h hat).mono ?_
  rintro x g' ⟨⟨⟨f, w'⟩, br'⟩, hleave, htracked, hstays⟩
  have hsame : x.1.2 = w' ∧ x.2 = br' := by
    unfold leavePhase1 at hleave
    simp only at hleave
    split at hleave
    · cases hleave
      exact ⟨rfl, rfl⟩
    split at hleave
    · cases hleave
      exact ⟨rfl, rfl⟩
    split at hleave
    · cases hleave
      exact ⟨rfl, rfl⟩
    · cases hleave
  rw [hsame.1, hsame.2]
  exact ⟨htracked, hstays⟩

/-- A whole speculative run is accepted. -/
theorem accepts_decodeUntilU16 (input : List UInt8) (startBit endBitHint : ℕ)
    (chunk : SpeculativeChunk) (scratch : List ℕ) :
    (window input).Accepts ⟨0, fun _ => False⟩
      (decodeUntilU16 input startBit endBitHint chunk scratch).log := by
  have hrun : (window input).Ensures ⟨0, fun _ => False⟩
      (decodeUntilU16 input startBit endBitHint chunk scratch) fun _ _ => True := by
    refine .bind (.lift (Q := fun br g => Stays input br ∧ g = ⟨0, fun _ => False⟩)
      fun br hok => ?_) ?_
    · exact ⟨⟨_, (BitReader.at_of_seekToBit hok).2⟩, rfl⟩
    rintro br _ ⟨⟨bs, hat⟩, rfl⟩
    refine .bind (ensures_phase1 endBitHint (tracked_start _ chunk) hat) ?_
    rintro ⟨⟨ended, w⟩, br₁⟩ g₁ ⟨-, bs₁, hat₁⟩
    simp only
    cases ended with
    | some f => exact .pure trivial
    | none =>
      refine .bind (ensures_bits (Q := fun _ => True) ?_) fun r g₂ _ => .pure trivial
      exact (Accumulator.ensures_runBlocks Accumulator.carries_decodeStored
        Accumulator.carries_decodeCompressedPreload _ trivial hat₁).mono fun _ _ _ => trivial
  exact hrun.1

/-- An accepted log looks at bits of the input only. -/
theorem sound_of_accepts {input : List UInt8} {g : Cells} {log : List Access}
    (h : (window input).Accepts g log) :
    ∀ access, .bits access ∈ log → Sound input access := by
  induction log generalizing g with
  | nil => nofun
  | cons first log ih =>
    intro access hmem
    rcases List.mem_cons.mp hmem with rfl | hrest
    · exact h.1
    · exact ih h.2 access hrest

/-- The accumulator of the kernels always shows the stream: in every run of the fast kernel with
known history, of the preload kernel, of the fast kernel with the side table and of the window
kernel, whatever the input and wherever the run starts, every refill, mask and shift is sound. -/
theorem accumulators_show_stream (input : List UInt8) (startBit endBitHint : ℕ)
    (out : List UInt8) (chunk : SpeculativeChunk) (scratch : List ℕ) :
    (∀ access ∈ (Accumulator.decodeMemberU8 input startBit endBitHint out).log,
      Sound input access) ∧
    (∀ access ∈ (Accumulator.decodeMemberU8Preload input startBit endBitHint out).log,
      Sound input access) ∧
    (∀ access ∈ (Accumulator.decodeUntil input startBit endBitHint chunk).log,
      Sound input access) ∧
    ∀ access, .bits access ∈ (decodeUntilU16 input startBit endBitHint chunk scratch).log →
      Sound input access := by
  refine ⟨?_, ?_, ?_, ?_⟩
  · exact Accumulator.sound_decodeMemberU8 input startBit endBitHint out
  · exact Accumulator.sound_decodeMemberU8Preload input startBit endBitHint out
  · exact Accumulator.sound_decodeUntil input startBit endBitHint chunk
  · exact sound_of_accepts (accepts_decodeUntilU16 input startBit endBitHint chunk scratch)

/-- The kernels stay inside their buffers: the byte kernels in the vector, whatever it holds and
however it grows, and the window kernel in its cells, whatever blocks come. -/
theorem kernels_stay_inside (grow : Reserve) {copyN : ℕ}
    (hn : copyN = 16 ∨ copyN = 32) {len capacity : ℕ} (hle : len ≤ capacity)
    (lit dist : HuffmanDecoder) (br : BitReader) (chunkBase : ℕ) (input : List UInt8)
    (startBit endBitHint : ℕ) (chunk : SpeculativeChunk) (scratch : List ℕ) :
    KernelRoom.NeverOverruns (KernelRoom.decodeCompressed grow copyN lit dist)
      (KernelRoom.start grow len capacity, br) ∧
    KernelRoom.NeverOverruns (KernelRoom.decodeCompressedSpeculative grow copyN chunkBase lit dist)
      (KernelRoom.start grow len capacity, br) ∧
    KernelRoom.NeverOverruns (KernelRoom.serialRound grow lit dist)
      (KernelRoom.start grow len capacity, br) ∧
    (window input).Accepts ⟨0, fun _ => False⟩
      (decodeUntilU16 input startBit endBitHint chunk scratch).log := by
  have hwidth : copyN ≤ Preload.HEADROOM := by
    rcases hn with rfl | rfl
    · decide
    · decide
  refine ⟨?_, ?_, ?_, ?_⟩
  · exact KernelRoom.neverOverruns_decodeCompressed grow hwidth lit dist br hle
  · exact KernelRoom.neverOverruns_decodeCompressedSpeculative grow hwidth chunkBase lit dist br hle
  · exact KernelRoom.neverOverruns_serialRound grow lit dist br hle
  · exact accepts_decodeUntilU16 input startBit endBitHint chunk scratch

/-- All four kernels with the fixed codes, from a vector of seven bytes on. -/
theorem kernels_stay_inside_fixed :
    ∃ lit dist, fromLengthsLitlen fixedLiteralLengths = .ok lit ∧
      fromLengthsDist fixedDistanceLengths = .ok dist ∧
      KernelRoom.NeverOverruns (KernelRoom.decodeCompressed amortized 32 lit dist)
        (KernelRoom.start amortized 0 7, BitReader.new FastInflate.storedByte) ∧
      KernelRoom.NeverOverruns
        (KernelRoom.decodeCompressedSpeculative amortized 32 0 lit dist)
        (KernelRoom.start amortized 0 7, BitReader.new FastInflate.storedByte) ∧
      KernelRoom.NeverOverruns (KernelRoom.serialRound amortized lit dist)
        (KernelRoom.start amortized 0 7, BitReader.new FastInflate.storedByte) ∧
      (window FastInflate.storedByte).Accepts ⟨0, fun _ => False⟩
        (decodeUntilU16 FastInflate.storedByte 0 0 ⟨[], []⟩ []).log := by
  obtain ⟨lit, hlit⟩ := buildInto_ok prefixCode_fixed.1 .litLen
  obtain ⟨dist, hdist⟩ := buildInto_ok prefixCode_fixed.2 .dist
  exact ⟨lit, dist, hlit, hdist, kernels_stay_inside amortized (Or.inr rfl)
    (by decide) lit dist (BitReader.new FastInflate.storedByte) 0 FastInflate.storedByte 0 0
    ⟨[], []⟩ []⟩

end WindowRoom

end RustyRapidgzip
