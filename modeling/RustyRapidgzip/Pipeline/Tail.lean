import RustyRapidgzip.Deflate.Markers
import RustyRapidgzip.Deflate.SpeculativeCorrect

/-!
# The chain of tails

Each chunk is resolved against the last 32 KiB before it. The next tail needs the markers at
the end of a chunk only, and a short chunk keeps a part of the tail before it. Over a whole
sequence of chunks the tails are the ends of the resolved output.
-/

namespace RustyRapidgzip

namespace Pipeline

/-- The markers of a chunk stand in the order of their positions, each with the 15 bits of
its cell. -/
structure Ordered (chunk : SpeculativeChunk) : Prop where
  sorted : chunk.markers.Pairwise (fun m m' => m.outPos < m'.outPos)
  offset_le : ∀ m ∈ chunk.markers, m.prefixOffset ≤ 0x7fff

/-- The chunks resolve one after the other, each against the output before it. -/
inductive Resolved : List UInt8 → List SpeculativeChunk → List (List UInt8) → Prop
  | nil {history : List UInt8} : Resolved history [] []
  | cons {history bytes : List UInt8} {chunk : SpeculativeChunk} {chunks : List SpeculativeChunk}
      {outputs : List (List UInt8)} (hchunk : resolveMarkers chunk history = .ok ⟨bytes, []⟩)
      (hrest : Resolved (history ++ bytes) chunks outputs) :
      Resolved history (chunk :: chunks) (bytes :: outputs)

/-- The tail before the chunk that follows the given ones. -/
def tailChain (chunks : List SpeculativeChunk) : List UInt8 :=
  chunks.foldl (fun prevTail chunk => buildPrevTailFast chunk prevTail) []

/-- Extraction orders the markers of a chunk. -/
theorem ordered_chunkOf {cells : List ℕ} (hnear : NearMarkers 0 cells) :
    Ordered (chunkOf cells) :=
  ⟨pairwise_marks hnear, prefixOffset_marks 0 cells⟩

/-! ## Applying markers -/

section Markers

variable {tail bytes : List UInt8} {markers : List Marker} {n : ℕ}

/-- Only the last 32 KiB of a history matter. -/
theorem applyMarkers_lastWindow {history : List UInt8} (bytes : List UInt8)
    (hoff : ∀ m ∈ markers, m.prefixOffset ≤ 0x7fff)
    (hreach : ∀ m ∈ markers, m.prefixOffset < history.length) :
    (∀ m ∈ markers, m.prefixOffset < (lastWindow history).length) ∧
      applyMarkers (lastWindow history) markers bytes = applyMarkers history markers bytes := by
  have hwindow : 0x7fff < U16_WINDOW := by decide
  have hlen : (lastWindow history).length = history.length - (history.length - U16_WINDOW) := by
    rw [lastWindow, List.length_drop]
  induction markers generalizing bytes with
  | nil => exact ⟨by simp, by rw [applyMarkers, applyMarkers]⟩
  | cons m markers ih =>
    rw [List.forall_mem_cons] at hoff hreach
    obtain ⟨hfar, hsame⟩ :=
      @ih (bytes.set m.outPos (history.getD (history.length - 1 - m.prefixOffset) 0))
        hoff.2 hreach.2
    have hoff' := hoff.1
    have hreach' := hreach.1
    have hlt : m.prefixOffset < (lastWindow history).length := by omega
    refine ⟨List.forall_mem_cons.mpr ⟨hlt, hfar⟩, ?_⟩
    have hget : (lastWindow history).getD ((lastWindow history).length - 1 - m.prefixOffset) 0 =
        history.getD (history.length - 1 - m.prefixOffset) 0 := by
      have hindex : history.length - U16_WINDOW +
          ((lastWindow history).length - 1 - m.prefixOffset) =
          history.length - 1 - m.prefixOffset := by omega
      rw [List.getD_eq_getElem?_getD, List.getD_eq_getElem?_getD, ← hindex, lastWindow,
        List.getElem?_drop]
    rw [applyMarkers, applyMarkers, hget, hsame]

/-- Filling a tail applies the markers that stand in it. -/
theorem fillTail_eq (hsorted : markers.Pairwise (fun m m' => m.outPos < m'.outPos))
    (hreach : ∀ m ∈ markers, m.prefixOffset < tail.length) (hpos : ∀ m ∈ markers, n ≤ m.outPos)
    (hn : n ≤ bytes.length) :
    fillTail tail n markers (bytes.drop n) = (applyMarkers tail markers bytes).drop n := by
  induction markers generalizing bytes with
  | nil => rfl
  | cons m markers ih =>
    rw [List.pairwise_cons] at hsorted
    rw [List.forall_mem_cons] at hreach hpos
    rw [fillTail]
    simp only [List.length_drop, if_pos hreach.1]
    by_cases hend : n + (bytes.length - n) ≤ m.outPos
    · rw [if_pos hend, applyMarkers_of_length_le]
      rw [List.forall_mem_cons]
      refine ⟨by omega, fun m' hm' => ?_⟩
      have := hsorted.1 m' hm'
      omega
    · rw [if_neg hend, applyMarkers,
        ← ih hsorted.2 hreach.2 hpos.2 (by rw [List.length_set]; exact hn),
        List.drop_set, if_neg (Nat.not_lt.mpr hpos.1)]

/-- The search for the first marker of a tail splits the markers at its position. -/
theorem dropWhile_outPos (hsorted : markers.Pairwise (fun m m' => m.outPos < m'.outPos)) :
    ∀ m ∈ markers.dropWhile (fun m => m.outPos < n), n ≤ m.outPos := by
  induction markers with
  | nil => simp
  | cons m markers ih =>
    rw [List.pairwise_cons] at hsorted
    by_cases hlt : m.outPos < n
    · rw [List.dropWhile_cons_of_pos (by simpa using hlt)]
      exact ih hsorted.2
    · rw [List.dropWhile_cons_of_neg (by simpa using hlt), List.forall_mem_cons]
      refine ⟨by omega, fun m' hm' => ?_⟩
      have := hsorted.1 m' hm'
      omega

end Markers

/-! ## Tails -/

/-- A part of the old window and the end of the new bytes are the end of both. -/
theorem lastWindow_append (history bytes : List UInt8) :
    lastWindow (history ++ bytes) =
      (if bytes.length < U16_WINDOW ∧ lastWindow history ≠ [] then
        (lastWindow history).drop ((lastWindow history).length - (U16_WINDOW - bytes.length)) ++
          bytes.drop (bytes.length - U16_WINDOW)
      else bytes.drop (bytes.length - U16_WINDOW)) := by
  have hpos : 0 < U16_WINDOW := by decide
  simp only [lastWindow, List.length_append, List.length_drop]
  generalize U16_WINDOW = window at hpos
  by_cases hshort : bytes.length < window
  swap
  · rw [if_neg fun h => hshort h.1, List.drop_append, List.drop_of_length_le (by omega),
      List.nil_append]
    congr 1
    omega
  by_cases hempty : history = []
  · subst hempty
    simp
  · have hlen : 0 < history.length := List.length_pos_iff.mpr hempty
    have hne : history.drop (history.length - window) ≠ [] := by
      rw [Ne, List.drop_eq_nil_iff]
      omega
    rw [if_pos ⟨hshort, hne⟩, List.drop_drop, List.drop_append_of_le_length (by omega),
      Nat.sub_eq_zero_of_le hshort.le, List.drop_zero]
    congr 2
    omega

/-- The next tail is the end of the output so far. -/
theorem buildPrevTailFast_eq {chunk : SpeculativeChunk} {history bytes : List UInt8}
    (hordered : Ordered chunk) (hchunk : resolveMarkers chunk history = .ok ⟨bytes, []⟩) :
    buildPrevTailFast chunk (lastWindow history) = lastWindow (history ++ bytes) := by
  obtain ⟨hreach, rfl⟩ : (∀ m ∈ chunk.markers, m.prefixOffset < history.length) ∧
      bytes = applyMarkers history chunk.markers chunk.bytes := by
    unfold resolveMarkers at hchunk
    cases hfill : fillMarkers history chunk.markers chunk.bytes with
    | error e =>
      rw [hfill] at hchunk
      cases hchunk
    | ok bytes' =>
      rw [hfill] at hchunk
      cases hchunk
      exact fillMarkers_eq_ok_iff.mp hfill
  obtain ⟨hreach', hsame⟩ :=
    applyMarkers_lastWindow chunk.bytes hordered.offset_le hreach
  have hsplit := List.takeWhile_append_dropWhile
    (p := fun m : Marker => decide (m.outPos < chunk.bytes.length - U16_WINDOW))
    (l := chunk.markers)
  have hfront : ∀ m ∈ chunk.markers.takeWhile
      (fun m => decide (m.outPos < chunk.bytes.length - U16_WINDOW)),
      m.outPos < chunk.bytes.length - U16_WINDOW := fun m hm => by
    simpa using List.mem_takeWhile_imp hm
  have hback := dropWhile_outPos (n := chunk.bytes.length - U16_WINDOW) hordered.sorted
  have hsuffix := List.dropWhile_suffix
    (fun m : Marker => decide (m.outPos < chunk.bytes.length - U16_WINDOW)) (l := chunk.markers)
  have htail : fillTail (lastWindow history) (chunk.bytes.length - U16_WINDOW)
      (chunk.markers.dropWhile fun m => decide (m.outPos < chunk.bytes.length - U16_WINDOW))
      (chunk.bytes.drop (chunk.bytes.length - U16_WINDOW)) =
      (applyMarkers history chunk.markers chunk.bytes).drop
        (chunk.bytes.length - U16_WINDOW) := by
    have hskip := drop_applyMarkers_of_lt (lastWindow history) chunk.bytes hfront
    rw [← hskip, fillTail_eq (hordered.sorted.sublist hsuffix.sublist)
      (fun m hm => hreach' m (hsuffix.subset hm)) hback (by simp), ← applyMarkers_append, hsplit,
      hsame]
  rw [lastWindow_append, applyMarkers_length, ← htail]
  simp only [buildPrevTailFast]

/-- A step that follows every chunk follows the whole sequence. -/
theorem Resolved.foldl {tailOf : List UInt8 → List UInt8}
    {step : List UInt8 → SpeculativeChunk → List UInt8}
    (hstep : ∀ history chunk bytes, Ordered chunk →
      resolveMarkers chunk history = .ok ⟨bytes, []⟩ →
      step (tailOf history) chunk = tailOf (history ++ bytes))
    {chunks : List SpeculativeChunk} {outputs : List (List UInt8)} {history : List UInt8}
    (hordered : ∀ chunk ∈ chunks, Ordered chunk) (h : Resolved history chunks outputs) (k : ℕ) :
    (chunks.take k).foldl step (tailOf history) =
      tailOf (history ++ (outputs.take k).flatten) := by
  induction h generalizing k with
  | nil => simp only [List.take_nil, List.foldl_nil, List.flatten_nil, List.append_nil]
  | @cons history bytes chunk chunks outputs hchunk _ ih =>
    cases k with
    | zero => simp only [List.take_zero, List.foldl_nil, List.flatten_nil, List.append_nil]
    | succ k =>
      rw [List.forall_mem_cons] at hordered
      rw [List.take_succ_cons, List.take_succ_cons, List.foldl_cons,
        hstep history chunk bytes hordered.1 hchunk, ih hordered.2, List.flatten_cons,
        List.append_assoc]

/-- Before every chunk, the tail is the end of the output of the chunks before it. -/
theorem tailChain_eq {chunks : List SpeculativeChunk} {outputs : List (List UInt8)}
    (hordered : ∀ chunk ∈ chunks, Ordered chunk) (h : Resolved [] chunks outputs) (k : ℕ) :
    tailChain (chunks.take k) = lastWindow (outputs.take k).flatten := by
  have hempty : lastWindow [] = [] := List.drop_nil
  have hchain := @Resolved.foldl lastWindow (fun prevTail chunk => buildPrevTailFast chunk prevTail)
    (fun _ _ _ hordered hchunk => buildPrevTailFast_eq hordered hchunk) _ _ _ hordered h k
  rwa [hempty, List.nil_append] at hchain

/-- A chunk of one byte, and a chunk of a marker that names it. -/
theorem tailChain_eq_twoChunks :
    tailChain ([chunkOf [65], chunkOf [0x8000]].take 2) =
      lastWindow ([[65], [65]].take 2).flatten := by
  refine tailChain_eq ?_ ?_ 2
  · simp only [List.forall_mem_cons, List.not_mem_nil, false_implies, implies_true, and_true]
    exact ⟨ordered_chunkOf (nearMarkers_of_length (by decide)),
      ordered_chunkOf (nearMarkers_of_length (by decide))⟩
  · exact .cons (by decide) (.cons (by decide) .nil)

end Pipeline

end RustyRapidgzip
