import RustyRapidgzip.Deflate.Window16
import RustyRapidgzip.Lib.Iterate

/-!
# Decoding onto a chunk

Speculative decoding appends to the chunk that it is given and never looks at it. What it does
with a chunk is what it does with an empty one, put behind the chunk: the bytes follow, and the
markers stand further along.
-/

namespace RustyRapidgzip

/-- A chunk behind another one. -/
def SpeculativeChunk.onto (pre chunk : SpeculativeChunk) : SpeculativeChunk where
  bytes := pre.bytes ++ chunk.bytes
  markers := pre.markers ++
    chunk.markers.map fun m => ⟨(pre.bytes.length + m.outPos) % 2 ^ 32, m.prefixOffset⟩

section Chunks

variable {pre chunk : SpeculativeChunk}

/-- Extracted cells are narrowed to bytes, and the marked ones are noted. -/
theorem SpeculativeChunk.extractFromU16_eq (chunk : SpeculativeChunk) (cells : List ℕ) :
    chunk.extractFromU16 cells =
      ⟨chunk.bytes ++ cells.map narrow, chunk.markers ++ marks chunk.bytes.length cells⟩ :=
  recordMarkers_eq chunk.bytes.length 0 cells chunk.bytes chunk.markers rfl

/-- The markers of cells that stand further along. -/
theorem map_marks (n pos : ℕ) (cells : List ℕ) :
    ((marks pos cells).map fun m => (⟨(n + m.outPos) % 2 ^ 32, m.prefixOffset⟩ : Marker)) =
      marks (n + pos) cells := by
  induction cells generalizing pos with
  | nil => rfl
  | cons cell cells ih =>
    have hrest := ih (pos + 1)
    rw [← Nat.add_assoc] at hrest
    rw [marks, marks]
    by_cases hmarker : cell &&& MARKER16 ≠ 0
    · rw [if_pos hmarker, if_pos hmarker, List.map_cons, hrest, Nat.add_mod_mod]
    · rw [if_neg hmarker, if_neg hmarker, hrest]

/-- Extraction appends, whatever the chunk holds. -/
theorem SpeculativeChunk.onto_extractFromU16 (cells : List ℕ) :
    (pre.onto chunk).extractFromU16 cells = pre.onto (chunk.extractFromU16 cells) := by
  rw [extractFromU16_eq, extractFromU16_eq]
  simp only [onto, List.append_assoc, List.map_append, map_marks, List.length_append]

/-- Chunks of cells behind each other are the chunk of all the cells. -/
theorem onto_chunkOf (cells more : List ℕ) :
    (chunkOf cells).onto (chunkOf more) = chunkOf (cells ++ more) := by
  simp only [SpeculativeChunk.onto, chunkOf, List.map_append, map_marks, marks_append,
    List.length_map, Nat.add_zero, Nat.zero_add]

end Chunks

namespace Window

variable {pre : SpeculativeChunk} {w : Window}

/-- A window whose chunk stands behind another one. -/
def onto (pre : SpeculativeChunk) (w : Window) : Window := { w with chunk := pre.onto w.chunk }

/-- A window on another chunk has the same cells. -/
@[simp] theorem onto_scratch : (w.onto pre).scratch = w.scratch := rfl

/-- A window on another chunk has the same cursor. -/
@[simp] theorem onto_cur : (w.onto pre).cur = w.cur := rfl

/-- A window on another chunk has the same base. -/
@[simp] theorem onto_windowBase : (w.onto pre).windowBase = w.windowBase := rfl

/-- A push does not look at the chunk. -/
@[simp] theorem onto_push (cell : ℕ) : (w.onto pre).push cell = (w.push cell).onto pre := rfl

/-- A flush goes on behind the chunk. -/
theorem onto_flushU16 : (w.onto pre).flushU16 = w.flushU16.onto pre := by
  simp only [flushU16, onto, SpeculativeChunk.onto_extractFromU16]

/-- A flush of a full window goes on behind the chunk. -/
@[simp] theorem onto_flushFull : (w.onto pre).flushFull = w.flushFull.onto pre := by
  unfold flushFull
  by_cases hfull : U16_FLUSH_AT ≤ w.cur
  · rw [if_pos hfull, onto_cur, if_pos hfull, onto_flushU16]
  · rw [if_neg hfull, onto_cur, if_neg hfull]

/-- The last cells are extracted behind the chunk. -/
@[simp] theorem onto_extractAll : (w.onto pre).extractAll = pre.onto w.extractAll :=
  SpeculativeChunk.onto_extractFromU16 _

/-- A match does not look at the chunk. -/
theorem onto_backReference (distance length : ℕ) :
    (w.onto pre).backReference distance length =
      (w.backReference distance length).map (onto pre) := by
  unfold backReference
  by_cases hreach : w.windowBase = 0 ∧ w.cur < distance
  · have hreach' : (w.onto pre).windowBase = 0 ∧ (w.onto pre).cur < distance := hreach
    rw [if_pos hreach, if_pos hreach']
    by_cases hrest : 0 < length - min (distance - w.cur) length
    · have hrest' : 0 < length - min (distance - (w.onto pre).cur) length := hrest
      simp only [if_pos hrest, if_pos hrest']
      rfl
    · have hrest' : ¬0 < length - min (distance - (w.onto pre).cur) length := hrest
      simp only [if_neg hrest, if_neg hrest']
      rfl
  · have hreach' : ¬((w.onto pre).windowBase = 0 ∧ (w.onto pre).cur < distance) := hreach
    rw [if_neg hreach, if_neg hreach']
    split <;> rfl

end Window

namespace Speculative

open Window

variable {pre : SpeculativeChunk}

/-- A state of the symbol loop whose chunk stands behind another one. -/
def State.onto (pre : SpeculativeChunk) (s : State) : State :=
  { s with window := s.window.onto pre }

/-- What a decoder of cells returns, with its chunk behind another one. -/
def ontoResult (pre : SpeculativeChunk) (r : Window × BitReader) : Window × BitReader :=
  (r.1.onto pre, r.2)

variable {lit dist : HuffmanDecoder} {w : Window} {br : BitReader}

/-- Loading the next entry does not look at the chunk. -/
theorem preloadNext_onto :
    preloadNext lit (w.onto pre) br = (preloadNext lit w br).onto pre := by
  unfold preloadNext
  by_cases hlow : br.bits < 15 ∨ U16_FLUSH_AT ≤ w.cur
  · have hlow' : br.bits < 15 ∨ U16_FLUSH_AT ≤ (w.onto pre).cur := hlow
    rw [if_pos hlow, if_pos hlow']
    rfl
  · have hlow' : ¬(br.bits < 15 ∨ U16_FLUSH_AT ≤ (w.onto pre).cur) := hlow
    rw [if_neg hlow, if_neg hlow']
    simp only
    split <;> rfl

/-- The length and the distance of a match do not depend on the chunk. -/
theorem copyMatch_onto (length : ℕ) :
    copyMatch backReference dist length (w.onto pre) br =
      (copyMatch backReference dist length w br).map (ontoResult pre) := by
  unfold copyMatch
  cases distanceOf dist br with
  | error e => rfl
  | ok r =>
    obtain ⟨distance, br⟩ := r
    simp only [bind, Except.bind, onto_backReference]
    cases w.backReference distance length <;> rfl

/-- The symbol loop does not look at the chunk. -/
theorem round_onto (s : State) :
    round lit dist (s.onto pre) =
      (round lit dist s).map (Sum.map (State.onto pre) (ontoResult pre)) := by
  obtain ⟨loaded, w, br⟩ := s
  rw [show State.onto pre ⟨loaded, w, br⟩ = ⟨loaded, w.onto pre, br⟩ from rfl]
  unfold round
  cases loaded with
  | none =>
    simp only [onto_flushFull]
    cases br.refillKernel with
    | error e => rfl
    | ok br =>
      simp only
      cases lit.lookupFilled br <;> rfl
  | some entry =>
    simp only [onto_push, preloadNext_onto]
    by_cases hliteral : entry &&& HUFFDEC_LITERAL ≠ 0
    · rw [if_pos hliteral, if_pos hliteral]
      rfl
    rw [if_neg hliteral, if_neg hliteral]
    by_cases hexc : entry &&& HUFFDEC_EXCEPTIONAL ≠ 0
    · rw [if_pos hexc, if_pos hexc]
      by_cases hend : entry >>> 16 = 0
      · rw [if_pos hend, if_pos hend]
        rfl
      · rw [if_neg hend, if_neg hend]
        rfl
    rw [if_neg hexc, if_neg hexc]
    cases (if br.bits < 33 then br.refillKernel else .ok br) with
    | error e => rfl
    | ok br =>
      simp only [copyMatch_onto]
      cases copyMatch backReference dist (lengthOf entry br).1 w (lengthOf entry br).2 <;> rfl

/-- The kernel does not look at the chunk. -/
theorem decodeCompressedU16_onto :
    decodeCompressedU16 lit dist (w.onto pre) br =
      (decodeCompressedU16 lit dist w br).map (ontoResult pre) :=
  Loop.iterate_map (f := State.onto pre) round_onto _ ⟨none, w, br⟩

/-- Stored bytes are read behind any chunk. -/
theorem readCells_onto (n : ℕ) :
    readCells n (w.onto pre) br = (readCells n w br).map (ontoResult pre) := by
  induction n generalizing w br with
  | zero => rfl
  | succ n ih =>
    unfold readCells
    cases br.read 8 with
    | error e => rfl
    | ok r =>
      obtain ⟨b, br⟩ := r
      exact @ih (w.push b) br

/-- The chunks of a stored block are read behind any chunk. -/
theorem storedCells_onto (rounds remaining : ℕ) :
    storedCells rounds remaining (w.onto pre) br =
      (storedCells rounds remaining w br).map (ontoResult pre) := by
  induction rounds generalizing remaining w br with
  | zero =>
    unfold storedCells
    split <;> rfl
  | succ rounds ih =>
    unfold storedCells
    by_cases hzero : remaining = 0
    · rw [if_pos hzero, if_pos hzero]
      rfl
    rw [if_neg hzero, if_neg hzero]
    simp only [onto_flushFull, onto_cur, readCells_onto]
    cases readCells (min remaining (U16_FLUSH_AT - w.flushFull.cur)) w.flushFull br with
    | error e => rfl
    | ok r => exact ih _

/-- A stored block is decoded behind any chunk. -/
theorem decodeStoredU16_onto :
    decodeStoredU16 (w.onto pre) br = (decodeStoredU16 w br).map (ontoResult pre) := by
  unfold decodeStoredU16
  simp only [bind, Except.bind]
  cases br.byteAlign.read 16 with
  | error e => rfl
  | ok r =>
    obtain ⟨len, br⟩ := r
    simp only
    cases br.read 16 with
    | error e => rfl
    | ok r =>
      obtain ⟨nlen, br⟩ := r
      simp only
      split
      · rfl
      · exact storedCells_onto len len

/-- The contents of a block are decoded behind any chunk. -/
theorem decodeBlockU16_onto (btype : ℕ) :
    decodeBlockU16 btype (w.onto pre) br = (decodeBlockU16 btype w br).map (ontoResult pre) := by
  unfold decodeBlockU16
  by_cases hstored : btype = 0
  · rw [if_pos hstored, if_pos hstored]
    exact decodeStoredU16_onto
  rw [if_neg hstored, if_neg hstored]
  cases blockTrees btype br with
  | error e => rfl
  | ok r => exact decodeCompressedU16_onto

/-- A block is decoded behind any chunk. -/
theorem decodeOneBlockU16_onto :
    decodeOneBlockU16 (w.onto pre) br =
      (decodeOneBlockU16 w br).map fun r => ((r.1.1, r.1.2.onto pre), r.2) := by
  unfold decodeOneBlockU16
  simp only [bind, Except.bind]
  cases br.read 1 with
  | error e => rfl
  | ok r =>
    obtain ⟨bfinal, br⟩ := r
    simp only
    cases br.read 2 with
    | error e => rfl
    | ok r =>
      obtain ⟨btype, br⟩ := r
      simp only [decodeBlockU16_onto]
      cases decodeBlockU16 btype w br <;> rfl

/-- A round of the first phase does not look at the chunk. -/
theorem phase1Round_onto (endBitHint : ℕ) (s : Window × BitReader) :
    phase1Round endBitHint (ontoResult pre s) =
      (phase1Round endBitHint s).map
        (Sum.map (ontoResult pre) fun r => ((r.1.1, r.1.2.onto pre), r.2)) := by
  obtain ⟨w, br⟩ := s
  unfold phase1Round
  simp only [ontoResult, decodeOneBlockU16_onto]
  cases decodeOneBlockU16 w br with
  | error e => rfl
  | ok r =>
    obtain ⟨⟨bfinal, w⟩, br⟩ := r
    have hfree : markerFree (w.onto pre) = markerFree w := rfl
    simp only [Except.map, hfree]
    split_ifs <;> rfl

/-- The speculative blocks do not look at the chunk. -/
theorem phase1_onto (endBitHint : ℕ) :
    phase1 endBitHint (w.onto pre) br =
      (phase1 endBitHint w br).map fun r => ((r.1.1, r.1.2.onto pre), r.2) :=
  Loop.iterate_map (f := ontoResult pre) (phase1Round_onto endBitHint) _ (w, br)

end Speculative

end RustyRapidgzip
