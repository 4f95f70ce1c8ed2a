import RustyRapidgzip.Deflate.Unbounded
import RustyRapidgzip.Deflate.Speculative

/-!
# The window of cells

Speculative decoding writes cells into a bounded window. When the window fills, all but
its last 32 KiB are extracted into the chunk and the rest slides down. A copy that
reaches before the first cell writes markers; other copies move whole cells, so markers
spread by themselves. Once the last 32 KiB hold no marker, the byte kernel takes over.
-/

namespace RustyRapidgzip

open LsbBits Reference HuffmanDecoder Lz

/-- Flush once the write cursor reaches here. -/
def U16_FLUSH_AT : ℕ := 256 * 1024

/-- Hand off to the byte kernel no earlier than here. -/
def U16_HANDOFF_AT : ℕ := 2 * U16_WINDOW

/-- Cells that a copy may overwrite past its end. -/
def COPY_HEADROOM_U16 : ℕ := 16

/-- The cells of the window's buffer. -/
def U16_BUFCAP : ℕ := U16_FLUSH_AT + 258 + COPY_HEADROOM_U16 + 8

/-- The buffer with its write cursor, the position of its first cell in the member, and
the chunk that took the cells before it. -/
structure Window where
  scratch : ℕ → ℕ
  cur : ℕ
  windowBase : ℕ
  chunk : SpeculativeChunk

/-- Move `count` cells from `src` to `dst`, as one load and one store. -/
def moveCells (scratch : ℕ → ℕ) (src dst count : ℕ) : ℕ → ℕ := fun i =>
  if dst ≤ i ∧ i < dst + count then scratch (src + (i - dst)) else scratch i

/-- Write one cell. -/
def setCell (scratch : ℕ → ℕ) (pos cell : ℕ) : ℕ → ℕ := fun i =>
  if i = pos then cell else scratch i

/-- Copy eight cells at a time up to `stop`. -/
def copyChunks : ℕ → (ℕ → ℕ) → ℕ → ℕ → ℕ → ℕ → ℕ
  | 0, scratch, _, _, _ => scratch
  | rounds + 1, scratch, src, dst, stop =>
    let scratch := moveCells scratch src dst 8
    if stop ≤ src + 8 then scratch else copyChunks rounds scratch (src + 8) (dst + 8) stop

/-- Copy cell by cell. -/
def copyCells : ℕ → (ℕ → ℕ) → ℕ → ℕ → ℕ → ℕ
  | 0, scratch, _, _ => scratch
  | n + 1, scratch, src, dst =>
    copyCells n (setCell scratch dst (scratch src)) (src + 1) (dst + 1)

/-- Write one cell `n` times. -/
def fillCells (v : ℕ) : ℕ → (ℕ → ℕ) → ℕ → ℕ → ℕ
  | 0, scratch, _ => scratch
  | n + 1, scratch, dst => fillCells v n (setCell scratch dst v) (dst + 1)

/-- Copy `length` cells from `distance` cells back. -/
def copyBackU16 (scratch : ℕ → ℕ) (cur distance length : ℕ) : ℕ → ℕ :=
  let src := cur - distance
  if length ≤ distance then copyChunks length scratch src cur (src + length)
  else if distance = 1 then fillCells (scratch src) length scratch cur
  else copyCells length scratch src cur

/-- Write `count` markers, the first `k` being written. -/
def writeMarkers (distance cur : ℕ) : ℕ → ℕ → (ℕ → ℕ) → ℕ → ℕ
  | 0, _, scratch => scratch
  | count + 1, k, scratch =>
    writeMarkers distance cur count (k + 1)
      (setCell scratch (cur + k) (MARKER16 ||| (distance - cur - k - 1)))

namespace Window

/-- Extract everything but the last 32 KiB and slide those down. -/
def flushU16 (w : Window) : Window :=
  let flushCount := w.cur - U16_WINDOW
  { scratch := moveCells w.scratch flushCount 0 U16_WINDOW
    cur := U16_WINDOW
    windowBase := w.windowBase + flushCount
    chunk := w.chunk.extractFromU16 ((List.range flushCount).map w.scratch) }

/-- Flush a full window. -/
def flushFull (w : Window) : Window := if U16_FLUSH_AT ≤ w.cur then w.flushU16 else w

/-- Write one cell at the cursor. -/
def push (w : Window) (cell : ℕ) : Window :=
  { w with scratch := setCell w.scratch w.cur cell, cur := w.cur + 1 }

/-- Resolve a copy: markers where it reaches before the first cell, then cells. -/
def backReference (w : Window) (distance length : ℕ) : Except DeflateError Window :=
  if w.windowBase = 0 ∧ w.cur < distance then
    let prefixCount := min (distance - w.cur) length
    let scratch := writeMarkers distance w.cur prefixCount 0 w.scratch
    let cur := w.cur + prefixCount
    let inBuffer := length - prefixCount
    if 0 < inBuffer then
      .ok { w with scratch := copyBackU16 scratch cur distance inBuffer, cur := cur + inBuffer }
    else .ok { w with scratch := scratch, cur := cur }
  else if distance = 0 then .error (.invalid "zero back-reference distance")
  else
    .ok { w with
      scratch := copyBackU16 w.scratch w.cur distance length
      cur := w.cur + length }

/-- Extract all cells of the window. -/
def extractAll (w : Window) : SpeculativeChunk :=
  w.chunk.extractFromU16 ((List.range w.cur).map w.scratch)

end Window

namespace Speculative

/-- The symbol loop stands at its top, or holds an entry whose code it has consumed. -/
structure State where
  loaded : Option ℕ
  window : Window
  br : BitReader

/-- Preload the next entry, or go back to the top where bits or cells run low or the code
does not fit the table. -/
def preloadNext (lit : HuffmanDecoder) (w : Window) (br : BitReader) : State :=
  if br.bits < 15 ∨ U16_FLUSH_AT ≤ w.cur then ⟨none, w, br⟩
  else
    let e := lit.lut (br.peekBitsUnchecked LUT_BITS)
    let len := e &&& 0xff
    if len = 0 then ⟨none, w, br⟩ else ⟨some e, w, br.consume len⟩

/-- One step of the symbol loop: load an entry at the top, or act on the loaded one. -/
def round (lit dist : HuffmanDecoder) (s : State) :
    Except DeflateError (State ⊕ (Window × BitReader)) :=
  match s.loaded with
  | none =>
    match s.br.refillKernel with
    | .error e => .error e
    | .ok br =>
      match lit.lookupFilled br with
      | .error e => .error e
      | .ok (entry, br) => .ok (.inl ⟨some entry, s.window.flushFull, br⟩)
  | some entry =>
    if entry &&& HUFFDEC_LITERAL ≠ 0 then
      .ok (.inl (preloadNext lit (s.window.push ((entry >>> 16) &&& 0xff)) s.br))
    else if entry &&& HUFFDEC_EXCEPTIONAL ≠ 0 then
      if entry >>> 16 = 0 then .ok (.inr (s.window, s.br))
      else .error (.invalid "literal/length symbol out of range")
    else
      match (if s.br.bits < 33 then s.br.refillKernel else .ok s.br) with
      | .error e => .error e
      | .ok br =>
        let (length, br) := lengthOf entry br
        match copyMatch Window.backReference dist length s.window br with
        | .error e => .error e
        | .ok (w, br) => .ok (.inl ⟨none, w, br⟩)

/-- The symbol loop. Every second step consumes a bit, which bounds the steps. -/
def decodeCompressedU16 (lit dist : HuffmanDecoder) (w : Window) (br : BitReader) :
    Except DeflateError (Window × BitReader) :=
  Loop.iterate .outOfFuel (round lit dist) (2 * (8 * br.input.length) + 2) ⟨none, w, br⟩

/-- Read bytes into the window. -/
def readCells : ℕ → Window → BitReader → Except DeflateError (Window × BitReader)
  | 0, w, br => .ok (w, br)
  | n + 1, w, br => do
    let (b, br) ← br.read 8
    readCells n (w.push b) br

/-- Copy the data of a stored block, flushing the window whenever it is full. Each round
copies a byte or more, which bounds the rounds. -/
def storedCells : ℕ → ℕ → Window → BitReader → Except DeflateError (Window × BitReader)
  | 0, remaining, w, br => if remaining = 0 then .ok (w, br) else .error .outOfFuel
  | rounds + 1, remaining, w, br =>
    if remaining = 0 then .ok (w, br)
    else do
      let w := w.flushFull
      let take := min remaining (U16_FLUSH_AT - w.cur)
      let (w, br) ← readCells take w br
      storedCells rounds (remaining - take) w br

/-- A stored block. -/
def decodeStoredU16 (w : Window) (br : BitReader) : Except DeflateError (Window × BitReader) := do
  let br := br.byteAlign
  let (len, br) ← br.read 16
  let (nlen, br) ← br.read 16
  if (65535 - len) ^^^ nlen ≠ 0 then .error (.invalid "stored block: LEN/NLEN mismatch")
  else storedCells len len w br

/-- The contents of a block of the given type. -/
def decodeBlockU16 (btype : ℕ) (w : Window) (br : BitReader) :
    Except DeflateError (Window × BitReader) :=
  if btype = 0 then decodeStoredU16 w br
  else do
    let ((lit, dist), br) ← blockTrees btype br
    decodeCompressedU16 lit dist w br

/-- The retained 32 KiB are there and hold no marker. -/
def markerFree (w : Window) : Bool :=
  decide (U16_HANDOFF_AT ≤ w.cur) &&
    (List.range U16_WINDOW).all fun i => w.scratch (w.cur - U16_WINDOW + i) &&& MARKER16 == 0

/-- Decode one block of cells. The flag is BFINAL. -/
def decodeOneBlockU16 (w : Window) (br : BitReader) :
    Except DeflateError ((Bool × Window) × BitReader) := do
  let (bfinal, br) ← br.read 1
  let (btype, br) ← br.read 2
  let (w, br) ← decodeBlockU16 btype w br
  .ok ((bfinal != 0, w), br)

/-- One round of the loop over the speculative blocks. It ends with the flag of the last
block, or with `none` to hand off to the byte kernel. -/
def phase1Round (endBitHint : ℕ) (s : Window × BitReader) :
    Except DeflateError ((Window × BitReader) ⊕ ((Option Bool × Window) × BitReader)) :=
  match decodeOneBlockU16 s.1 s.2 with
  | .error e => .error e
  | .ok ((bfinal, w), br) =>
    if bfinal then .ok (.inr ((some true, w), br))
    else if endBitHint ≤ br.tellBit then .ok (.inr ((some false, w), br))
    else if markerFree w then .ok (.inr ((none, w), br))
    else .ok (.inl (w, br))

/-- The speculative blocks. Each block has a bit, which bounds the rounds. -/
def phase1 (endBitHint : ℕ) (w : Window) (br : BitReader) :
    Except DeflateError ((Option Bool × Window) × BitReader) :=
  Loop.iterate .outOfFuel (phase1Round endBitHint) (8 * br.input.length + 1) (w, br)

/-- The buffer that a worker brings along: one of another size is replaced. -/
def prepareScratch (scratch : List ℕ) : ℕ → ℕ :=
  if scratch.length ≠ U16_BUFCAP then fun _ => 0 else fun i => scratch.getD i 0

end Speculative

namespace Unbounded

open Speculative

/-- Decode speculatively from a bit position up to the final block, or up to the first
block that ends at or after the hint, over an unbounded output. The result is the end bit, the
flag and the chunk. -/
def decodeUntilU16 (input : List UInt8) (startBit endBitHint : ℕ) (chunk : SpeculativeChunk)
    (scratch : List ℕ) : Except DeflateError ((ℕ × Bool) × SpeculativeChunk) := do
  let br ← (BitReader.new input).seekToBit startBit
  let ((ended, w), br) ← phase1 endBitHint ⟨prepareScratch scratch, 0, 0, chunk⟩ br
  let chunk := w.extractAll
  match ended with
  | some finalBlock => .ok ((br.tellBit, finalBlock), chunk)
  | none => do
    let ((finalBlock, bytes), br) ← blocksWith decodeOneBlockPreload
      (fun br => decide (endBitHint ≤ br.tellBit)) chunk.bytes br
    .ok ((br.tellBit, finalBlock), { chunk with bytes := bytes })

end Unbounded

/-! ## Copies of cells -/

/-- Chunks of eight cells copy the source, and change nothing before it. -/
theorem copyChunks_spec (rounds : ℕ) (scratch : ℕ → ℕ) {src dst stop : ℕ}
    (hrounds : stop ≤ src + 8 * rounds) (hsrc : src < stop) (hdst : stop ≤ dst) :
    (∀ i < dst, copyChunks rounds scratch src dst stop i = scratch i) ∧
      ∀ j, src + j < stop → copyChunks rounds scratch src dst stop (dst + j) =
        scratch (src + j) := by
  induction rounds generalizing scratch src dst with
  | zero => omega
  | succ rounds ih =>
    have hmoved (j : ℕ) (hj : j < 8) :
        moveCells scratch src dst 8 (dst + j) = scratch (src + j) := by
      rw [moveCells, if_pos (by omega), Nat.add_sub_cancel_left]
    have hkept (i : ℕ) (hi : i < dst) : moveCells scratch src dst 8 i = scratch i := by
      rw [moveCells, if_neg (by omega)]
    simp only [copyChunks]
    by_cases hlast : stop ≤ src + 8
    · rw [if_pos hlast]
      exact ⟨hkept, fun j hj => hmoved j (by omega)⟩
    · rw [if_neg hlast]
      obtain ⟨hbefore, hafter⟩ :=
        ih (moveCells scratch src dst 8) (show stop ≤ src + 8 + 8 * rounds by omega) (by omega)
          (show stop ≤ dst + 8 by omega)
      refine ⟨fun i hi => by rw [hbefore i (by omega), hkept i hi], fun j hj => ?_⟩
      by_cases hj8 : j < 8
      · rw [hbefore (dst + j) (by omega), hmoved j hj8]
      · obtain ⟨j', rfl⟩ : ∃ j', j = 8 + j' := ⟨j - 8, by omega⟩
        have h := hafter j' (by omega)
        rw [Nat.add_assoc, Nat.add_assoc] at h
        rw [h, hkept _ (by omega)]

/-- Filling sets its cells, and changes nothing before them. -/
theorem fillCells_spec (v n : ℕ) (scratch : ℕ → ℕ) (dst : ℕ) :
    (∀ i < dst, fillCells v n scratch dst i = scratch i) ∧
      ∀ j < n, fillCells v n scratch dst (dst + j) = v := by
  induction n generalizing scratch dst with
  | zero => exact ⟨fun _ _ => rfl, fun j hj => by omega⟩
  | succ n ih =>
    obtain ⟨hbefore, hafter⟩ := ih (setCell scratch dst v) (dst + 1)
    simp only [fillCells]
    refine ⟨fun i hi => by rw [hbefore i (by omega), setCell, if_neg (by omega)], fun j hj => ?_⟩
    cases j with
    | zero => rw [Nat.add_zero dst, hbefore dst (by omega), setCell, if_pos rfl]
    | succ j =>
      rw [show dst + (j + 1) = dst + 1 + j by omega]
      exact hafter j (by omega)

/-- Cell by cell the source repeats. -/
theorem copyCells_spec (n : ℕ) (scratch : ℕ → ℕ) {src dst : ℕ} (hlt : src < dst) :
    (∀ i < dst, copyCells n scratch src dst i = scratch i) ∧
      ∀ j < n, copyCells n scratch src dst (dst + j) = copyCells n scratch src dst (src + j) := by
  induction n generalizing scratch src dst with
  | zero => exact ⟨fun _ _ => rfl, fun j hj => by omega⟩
  | succ n ih =>
    obtain ⟨hbefore, hafter⟩ := ih (setCell scratch dst (scratch src))
      (show src + 1 < dst + 1 by omega)
    simp only [copyCells]
    refine ⟨fun i hi => by rw [hbefore i (by omega), setCell, if_neg (by omega)], fun j hj => ?_⟩
    cases j with
    | zero =>
      rw [Nat.add_zero dst, Nat.add_zero src, hbefore dst (by omega), hbefore src (by omega),
        setCell, setCell, if_pos rfl, if_neg (by omega)]
    | succ j =>
      rw [show dst + (j + 1) = dst + 1 + j by omega, show src + (j + 1) = src + 1 + j by omega]
      exact hafter j (by omega)

/-- However it is done, a copy keeps the cells before the cursor and repeats with the
distance after it. -/
theorem copyBackU16_spec (scratch : ℕ → ℕ) {cur distance length : ℕ} (hd : 0 < distance)
    (hle : distance ≤ cur) (hlength : 0 < length) :
    (∀ i < cur, copyBackU16 scratch cur distance length i = scratch i) ∧
      ∀ j < length, copyBackU16 scratch cur distance length (cur + j) =
        copyBackU16 scratch cur distance length (cur + j - distance) := by
  unfold copyBackU16
  by_cases hslice : length ≤ distance
  · simp only [if_pos hslice]
    obtain ⟨hbefore, hafter⟩ := copyChunks_spec length scratch
      (show cur - distance + length ≤ cur - distance + 8 * length by omega) (by omega)
      (show cur - distance + length ≤ cur by omega)
    refine ⟨hbefore, fun j hj => ?_⟩
    rw [hafter j (by omega), hbefore _ (by omega)]
    congr 1
    omega
  by_cases hone : distance = 1
  · simp only [if_neg hslice, if_pos hone]
    obtain ⟨hbefore, hafter⟩ := fillCells_spec (scratch (cur - distance)) length scratch cur
    refine ⟨hbefore, fun j hj => ?_⟩
    rw [hafter j hj]
    cases j with
    | zero => rw [Nat.add_zero cur, hbefore _ (by omega)]
    | succ j => rw [show cur + (j + 1) - distance = cur + j by omega, hafter j (by omega)]
  · simp only [if_neg hslice, if_neg hone]
    obtain ⟨hbefore, hafter⟩ := copyCells_spec length scratch
      (show cur - distance < cur by omega)
    refine ⟨hbefore, fun j hj => ?_⟩
    rw [hafter j hj]
    congr 1
    omega

/-- The markers that are written point back in order. -/
theorem writeMarkers_spec (distance cur count k : ℕ) (scratch : ℕ → ℕ) :
    (∀ i < cur + k, writeMarkers distance cur count k scratch i = scratch i) ∧
      ∀ j < count, writeMarkers distance cur count k scratch (cur + (k + j)) =
        MARKER16 ||| (distance - cur - (k + j) - 1) := by
  induction count generalizing k scratch with
  | zero => exact ⟨fun _ _ => rfl, fun j hj => by omega⟩
  | succ count ih =>
    obtain ⟨hbefore, hafter⟩ := ih (k + 1)
      (setCell scratch (cur + k) (MARKER16 ||| (distance - cur - k - 1)))
    simp only [writeMarkers]
    refine ⟨fun i hi => by rw [hbefore i (by omega), setCell, if_neg (by omega)], fun j hj => ?_⟩
    cases j with
    | zero => rw [Nat.add_zero k, hbefore _ (by omega), setCell, if_pos rfl]
    | succ j =>
      rw [show k + (j + 1) = k + 1 + j by omega]
      exact hafter j (by omega)

/-! ## What the window stands for -/

/-- The window and the chunk behind it hold these cells. -/
structure Window.Holds (w : Window) (cells : List ℕ) : Prop where
  length_eq : cells.length = w.windowBase + w.cur
  live : ∀ i < w.cur, cells[w.windowBase + i]? = some (w.scratch i)
  chunk_eq : w.chunk = chunkOf (cells.take w.windowBase)
  /-- Cells are only flushed from a full window, and the retained ones reach back as far as any
  copy. -/
  retained : w.windowBase = 0 ∨ U16_WINDOW ≤ w.cur ∧ U16_FLUSH_AT ≤ w.windowBase + w.cur
  /-- A match that follows fits the buffer, with the overshoot of its copy. -/
  cur_lt : w.cur < U16_FLUSH_AT + 258

/-- The output that a window stands for, behind the unknown history. -/
def Window.Behind (w : Window) (out : List ℕ) : Prop :=
  ∃ cells, out = markerPrefix ++ cells ∧ w.Holds cells

namespace Window

variable {w : Window} {cells : List ℕ}

/-- A new window holds no cells. -/
theorem Holds.start (scratch : ℕ → ℕ) : (Window.mk scratch 0 0 ⟨[], []⟩).Holds [] :=
  ⟨rfl, fun i hi => by simp at hi, rfl, Or.inl rfl, by simp [U16_FLUSH_AT]⟩

/-- Cells written after the cursor are appended. -/
theorem Holds.extend (h : w.Holds cells) {scratch : ℕ → ℕ} {n : ℕ}
    (hkept : ∀ i < w.cur, scratch i = w.scratch i) (hroom : w.cur + n < U16_FLUSH_AT + 258) :
    Holds { w with scratch := scratch, cur := w.cur + n }
      (cells ++ (List.range n).map fun j => scratch (w.cur + j)) := by
  have hlen := h.length_eq
  refine ⟨by simp; omega, fun i hi => ?_, ?_,
    h.retained.imp_right fun hle => ⟨Nat.le_trans hle.1 (Nat.le_add_right _ _),
      Nat.le_trans hle.2 (Nat.add_le_add_left (Nat.le_add_right _ _) _)⟩, hroom⟩
  · simp only at hi ⊢
    by_cases hold : i < w.cur
    · rw [List.getElem?_append_left (by omega), h.live i hold, hkept i hold]
    · have hge : cells.length ≤ w.windowBase + i := by omega
      rw [List.getElem?_append_right hge, List.getElem?_map,
        List.getElem?_range (by omega)]
      simp only [Option.map_some, Option.some.injEq]
      congr 1
      omega
  · have htake : (cells ++ (List.range n).map fun j => scratch (w.cur + j)).take w.windowBase =
        cells.take w.windowBase := List.take_append_of_le_length (by omega)
    simp only
    rw [htake]
    exact h.chunk_eq

/-- Writing one cell. -/
theorem Holds.push (h : w.Holds cells) (hcur : w.cur < U16_FLUSH_AT) (cell : ℕ) :
    (w.push cell).Holds (cells ++ [cell]) := by
  have hext := h.extend
    (show ∀ i < w.cur, setCell w.scratch w.cur cell i = w.scratch i from fun i hi => by
      rw [setCell, if_neg (by omega)])
    (show w.cur + 1 < U16_FLUSH_AT + 258 by omega)
  have hcell : ((List.range 1).map fun j => setCell w.scratch w.cur cell (w.cur + j)) = [cell] := by
    simp [setCell]
  rwa [hcell] at hext

/-- The cells of the window. -/
theorem Holds.live_eq (h : w.Holds cells) {n : ℕ} (hn : n ≤ w.cur) :
    (List.range n).map w.scratch = (cells.drop w.windowBase).take n := by
  have hlen := h.length_eq
  apply List.ext_getElem?
  intro i
  by_cases hi : i < n
  · rw [List.getElem?_map, List.getElem?_range hi, List.getElem?_take, if_pos hi,
      List.getElem?_drop, h.live i (by omega)]
    rfl
  · rw [List.getElem?_eq_none (by simp; omega), List.getElem?_eq_none (by simp; omega)]

/-- Flushing a full window moves cells into the chunk. -/
theorem Holds.flushU16 (h : w.Holds cells) (hfull : U16_FLUSH_AT ≤ w.cur) :
    w.flushU16.Holds cells := by
  have hlen := h.length_eq
  have hcur : U16_WINDOW ≤ w.cur := Nat.le_trans (by decide) hfull
  refine ⟨?_, fun i hi => ?_, ?_, Or.inr ⟨le_rfl, ?_⟩, ?_⟩
  · simp only [Window.flushU16]
    omega
  · simp only [Window.flushU16] at hi ⊢
    have hlive := h.live (w.cur - U16_WINDOW + i) (by omega)
    rwa [moveCells, if_pos (by omega), Nat.sub_zero, Nat.add_assoc]
  · simp only [Window.flushU16]
    rw [h.chunk_eq, h.live_eq (by omega), extract_chunkOf, ← List.take_add]
  · simp only [Window.flushU16]
    omega
  · simp only [Window.flushU16]
    decide

/-- A flush of a full window holds the same cells, and leaves it open. -/
theorem Holds.flushFull (h : w.Holds cells) :
    w.flushFull.Holds cells ∧ w.flushFull.cur < U16_FLUSH_AT := by
  unfold Window.flushFull
  by_cases hfull : U16_FLUSH_AT ≤ w.cur
  · rw [if_pos hfull]
    exact ⟨h.flushU16 hfull, show U16_WINDOW < U16_FLUSH_AT by decide⟩
  · rw [if_neg hfull]
    exact ⟨h, by omega⟩

/-- Extracting the window leaves a chunk of all cells. -/
theorem Holds.extractAll (h : w.Holds cells) : w.extractAll = chunkOf cells := by
  have hlen := h.length_eq
  rw [Window.extractAll, h.chunk_eq, h.live_eq le_rfl, extract_chunkOf, ← List.take_add,
    List.take_of_length_le (by omega)]

/-- Cells after the cursor that repeat with the distance, or are the markers of the unknown
history, are a copy. -/
theorem Holds.copy (h : w.Holds cells) {scratch : ℕ → ℕ} {d n : ℕ}
    (hd : 0 < d) (hmax : d ≤ U16_WINDOW) (hkept : ∀ i < w.cur, scratch i = w.scratch i)
    (hmarkers : ∀ j < n, w.cur + j < d → w.windowBase = 0 ∧
      scratch (w.cur + j) = MARKER16 ||| (d - w.cur - j - 1))
    (hcells : ∀ j < n, d ≤ w.cur + j → scratch (w.cur + j) = scratch (w.cur + j - d)) :
    markerPrefix ++ (cells ++ (List.range n).map fun j => scratch (w.cur + j)) =
      copyBack (markerPrefix ++ cells) d n := by
  have hlen := h.length_eq
  have hout : (markerPrefix ++ cells).length = U16_WINDOW + (w.windowBase + w.cur) := by
    rw [List.length_append, markerPrefix_length, hlen]
  have hnew (j : ℕ) (hj : j < n) : (markerPrefix ++ (cells ++ (List.range n).map
      fun j => scratch (w.cur + j)))[(markerPrefix ++ cells).length + j]? =
        some (scratch (w.cur + j)) := by
    rw [← List.append_assoc, List.getElem?_append_right (by omega), Nat.add_sub_cancel_left,
      List.getElem?_map, List.getElem?_range hj]
    rfl
  apply eq_copyBack hd
  · omega
  · rw [← List.append_assoc, List.length_append, List.length_map, List.length_range]
  · rw [← List.append_assoc]
    exact List.prefix_append _ _
  · intro j hj
    rw [hnew j hj, hout]
    by_cases hreach : w.cur + j < d
    · obtain ⟨hbase, hcell⟩ := hmarkers j hj hreach
      have hplace : U16_WINDOW - 1 - (U16_WINDOW + (w.windowBase + w.cur) + j - d) =
          d - w.cur - j - 1 := by omega
      rw [List.getElem?_append_left (by rw [markerPrefix_length]; omega),
        getElem?_markerPrefix (by omega), hcell, hplace]
    · rw [hcells j hj (by omega)]
      by_cases hnewer : d ≤ j
      · have hi := hnew (j - d) (by omega)
        rw [hout, show U16_WINDOW + (w.windowBase + w.cur) + (j - d) =
          U16_WINDOW + (w.windowBase + w.cur) + j - d by omega,
          show w.cur + (j - d) = w.cur + j - d by omega] at hi
        exact hi.symm
      · have hlive := h.live (w.cur + j - d) (by omega)
        have hplace : U16_WINDOW + (w.windowBase + w.cur) + j - d - U16_WINDOW =
            w.windowBase + (w.cur + j - d) := by omega
        rw [hkept _ (by omega), ← hlive,
          List.getElem?_append_right (by rw [markerPrefix_length]; omega), markerPrefix_length,
          hplace, List.getElem?_append_left (by omega)]

/-- A copy in the window is the copy behind the unknown history. -/
theorem Holds.backReference (h : w.Holds cells) (hcur : w.cur < U16_FLUSH_AT) {d n : ℕ}
    (hbounds : CopyBounds (.copy n d)) :
    ∃ w', w.backReference d n = .ok w' ∧ w'.Behind (copyBack (markerPrefix ++ cells) d n) := by
  obtain ⟨hn, hn', hd, hmax⟩ := hbounds
  have hwindow : MAX_DISTANCE = U16_WINDOW := rfl
  unfold Window.backReference
  by_cases hreach : w.windowBase = 0 ∧ w.cur < d
  · simp only [if_pos hreach]
    obtain ⟨hkept, hmarked⟩ := writeMarkers_spec d w.cur (min (d - w.cur) n) 0 w.scratch
    simp only [Nat.add_zero, Nat.zero_add] at hkept hmarked
    by_cases hrest : 0 < n - min (d - w.cur) n
    · rw [if_pos hrest]
      obtain ⟨hkept', hperiod⟩ := copyBackU16_spec
        (writeMarkers d w.cur (min (d - w.cur) n) 0 w.scratch)
        hd (show d ≤ w.cur + min (d - w.cur) n by omega) hrest
      generalize copyBackU16 (writeMarkers d w.cur (min (d - w.cur) n) 0 w.scratch)
        (w.cur + min (d - w.cur) n) d (n - min (d - w.cur) n) = scratch at hkept' hperiod ⊢
      have hall (i : ℕ) (hi : i < w.cur) : scratch i = w.scratch i := by
        rw [hkept' i (by omega), hkept i hi]
      rw [show w.cur + min (d - w.cur) n + (n - min (d - w.cur) n) = w.cur + n by omega]
      refine ⟨_, rfl, _, (h.copy hd (by omega) hall (fun j hj hlt => ⟨hreach.1, ?_⟩)
        fun j hj hge => ?_).symm, h.extend hall (by omega)⟩
      · rw [hkept' _ (by omega), hmarked j (by omega)]
      · have hj' := hperiod (w.cur + j - d) (by omega)
        rwa [show w.cur + min (d - w.cur) n + (w.cur + j - d) = w.cur + j by omega] at hj'
    · rw [if_neg hrest]
      rw [show min (d - w.cur) n = n by omega] at hkept hmarked ⊢
      exact ⟨_, rfl, _, (h.copy hd (by omega) hkept (fun j hj hlt =>
        ⟨hreach.1, hmarked j (by omega)⟩)
        fun j hj hge => by omega).symm, h.extend hkept (by omega)⟩
  · have hsource : d ≤ w.cur := by
      rcases h.retained with hzero | ⟨hle, -⟩
      · by_contra hlt
        exact hreach ⟨hzero, by omega⟩
      · omega
    rw [if_neg hreach, if_neg (by omega)]
    obtain ⟨hkept, hperiod⟩ := copyBackU16_spec w.scratch hd hsource
      (show 0 < n by omega)
    refine ⟨_, rfl, _, ?_, h.extend hkept (by omega)⟩
    exact (h.copy hd (by omega) hkept (fun j _ hlt => by omega) fun j hj _ => hperiod j hj).symm

end Window

end RustyRapidgzip
