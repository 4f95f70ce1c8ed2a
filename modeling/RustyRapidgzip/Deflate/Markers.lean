import RustyRapidgzip.Deflate.Speculative

/-!
# Markers and their positions

A chunk is built from windows of cells and from plain bytes. Resolving it writes the byte of
every marker at the marker's position. Positions are 32-bit words, so this is the place of
the marker's cell as long as the cell stands below 4 GiB; beyond, the byte lands elsewhere.
-/

namespace RustyRapidgzip

/-! ## Chunks in parts -/

/-- What is appended to a chunk at once. -/
inductive ChunkPart where
  | window (cells : List ℕ)
  | plain (data : List UInt8)

/-- The cells of a part. -/
def ChunkPart.cells : ChunkPart → List ℕ
  | .window cells => cells
  | .plain data => data.map UInt8.toNat

/-- Append a part to a chunk. -/
def SpeculativeChunk.add (chunk : SpeculativeChunk) : ChunkPart → SpeculativeChunk
  | .window cells => chunk.extractFromU16 cells
  | .plain data => { chunk with bytes := chunk.bytes ++ data }

/-- The chunk built from parts. -/
def chunkOfParts (parts : List ChunkPart) : SpeculativeChunk :=
  parts.foldl SpeculativeChunk.add ⟨[], []⟩

/-- A part is added behind the cells of a chunk. -/
theorem add_chunkOf (cells : List ℕ) (part : ChunkPart) :
    (chunkOf cells).add part = chunkOf (cells ++ part.cells) := by
  cases part with
  | window more => exact extract_chunkOf cells more
  | plain data => exact (chunkOf_append_bytes cells data).symm

/-- However a chunk is built, it is the chunk of its cells. -/
theorem chunkOfParts_eq (parts : List ChunkPart) :
    chunkOfParts parts = chunkOf (parts.flatMap ChunkPart.cells) := by
  induction parts using List.reverseRecOn with
  | nil => rfl
  | append_singleton parts part ih =>
    rw [chunkOfParts, List.foldl_append, List.foldl_cons, List.foldl_nil, List.flatMap_append,
      List.flatMap_singleton, ← add_chunkOf, ← ih, chunkOfParts]

/-! ## Applying markers -/

/-- Write the byte of every marker. -/
def applyMarkers (tail : List UInt8) : List Marker → List UInt8 → List UInt8
  | [], bytes => bytes
  | m :: markers, bytes =>
    applyMarkers tail markers
      (bytes.set m.outPos (tail.getD (tail.length - 1 - m.prefixOffset) 0))

section Markers

variable {tail bytes : List UInt8} {markers more : List Marker} {n : ℕ}

/-- Applying markers keeps the length. -/
@[simp] theorem applyMarkers_length (tail : List UInt8) (markers : List Marker)
    (bytes : List UInt8) : (applyMarkers tail markers bytes).length = bytes.length := by
  induction markers generalizing bytes with
  | nil => rfl
  | cons m markers ih => rw [applyMarkers, ih, List.length_set]

/-- Markers are applied in order. -/
theorem applyMarkers_append : applyMarkers tail (markers ++ more) bytes =
    applyMarkers tail more (applyMarkers tail markers bytes) := by
  induction markers generalizing bytes with
  | nil => rfl
  | cons m markers ih => exact ih

/-- Filling the markers succeeds where the tail reaches all of them. -/
theorem fillMarkers_eq_ok_iff {bytes' : List UInt8} :
    fillMarkers tail markers bytes = .ok bytes' ↔
      (∀ m ∈ markers, m.prefixOffset < tail.length) ∧ bytes' = applyMarkers tail markers bytes := by
  induction markers generalizing bytes with
  | nil => simp [fillMarkers, applyMarkers, eq_comm]
  | cons m markers ih =>
    rw [fillMarkers]
    by_cases hoff : tail.length ≤ m.prefixOffset
    · rw [if_pos hoff]
      refine iff_of_false (by simp) fun h => ?_
      have := h.1 m List.mem_cons_self
      omega
    · rw [if_neg hoff, ih, List.forall_mem_cons, applyMarkers]
      have hlt : m.prefixOffset < tail.length := by omega
      simp only [hlt, true_and]

/-- Markers behind the end of the bytes write nothing. -/
theorem applyMarkers_of_length_le (h : ∀ m ∈ markers, bytes.length ≤ m.outPos) :
    applyMarkers tail markers bytes = bytes := by
  induction markers with
  | nil => rfl
  | cons m markers ih =>
    rw [List.forall_mem_cons] at h
    rw [applyMarkers, List.set_eq_of_length_le h.1, ih h.2]

/-- Markers before a position change nothing from there on. -/
theorem drop_applyMarkers_of_lt (tail bytes : List UInt8) (h : ∀ m ∈ markers, m.outPos < n) :
    (applyMarkers tail markers bytes).drop n = bytes.drop n := by
  induction markers generalizing bytes with
  | nil => rfl
  | cons m markers ih =>
    rw [List.forall_mem_cons] at h
    rw [applyMarkers, ih _ h.2, List.drop_set_of_lt h.1]

/-- Markers in the first part of the bytes leave the rest alone. -/
theorem applyMarkers_append_bytes {rest : List UInt8} (h : ∀ m ∈ markers, m.outPos < bytes.length) :
    applyMarkers tail markers (bytes ++ rest) = applyMarkers tail markers bytes ++ rest := by
  induction markers generalizing bytes with
  | nil => rfl
  | cons m markers ih =>
    rw [List.forall_mem_cons] at h
    rw [applyMarkers, List.set_append_left _ _ h.1, ih (by rw [List.length_set]; exact h.2),
      applyMarkers]

end Markers

/-- The recorded positions are 32-bit numbers within the cells. -/
theorem outPos_lt_marks (pos : ℕ) (cells : List ℕ) :
    ∀ m ∈ marks pos cells, m.outPos < 2 ^ 32 ∧ m.outPos < pos + cells.length := by
  induction cells generalizing pos with
  | nil => simp [marks]
  | cons cell cells ih =>
    have hrest : ∀ m ∈ marks (pos + 1) cells,
        m.outPos < 2 ^ 32 ∧ m.outPos < pos + (cells.length + 1) := by
      intro m hm
      have := ih (pos + 1) m hm
      omega
    have hmod := Nat.mod_lt pos (show 0 < 2 ^ 32 by decide)
    have hle := Nat.mod_le pos (2 ^ 32)
    rw [marks, List.length_cons]
    split
    · refine List.forall_mem_cons.mpr ⟨?_, hrest⟩
      simp only
      omega
    · exact hrest

/-- The recorded offsets have fifteen bits. -/
theorem prefixOffset_marks (pos : ℕ) (cells : List ℕ) :
    ∀ m ∈ marks pos cells, m.prefixOffset ≤ 0x7fff := by
  induction cells generalizing pos with
  | nil => simp [marks]
  | cons cell cells ih =>
    rw [marks]
    split
    · exact List.forall_mem_cons.mpr ⟨Nat.and_le_right, ih _⟩
    · exact ih _

/-! ## Resolved cells -/

/-- The byte that a cell stands for. -/
def namedByte (tail : List UInt8) (cell : ℕ) : UInt8 :=
  if cell &&& MARKER16 ≠ 0 then tail.getD (tail.length - 1 - (cell &&& 0x7fff)) 0 else narrow cell

/-- The bytes of cells after resolution. -/
def resolvedBytes (tail : List UInt8) (cells : List ℕ) : List UInt8 :=
  applyMarkers tail (marks 0 cells) (cells.map narrow)

/-- The markers whose positions do not fit a word write zeros over zeros. -/
def FarMarkersZero (tail : List UInt8) (cells : List ℕ) : Prop :=
  ∀ p cell : ℕ, 2 ^ 32 ≤ p → cells[p]? = some cell → cell &&& MARKER16 ≠ 0 →
    namedByte tail cell = 0 ∧ ∀ c, cells[p % 2 ^ 32]? = some c → namedByte tail c = 0

/-- After resolution the bytes of the markers are the named ones, and the other bytes are
unchanged. -/
def ResolvesInPlace (parts : List ChunkPart) (tail : List UInt8) : Prop :=
  ∃ bytes : List UInt8, resolveMarkers (chunkOfParts parts) tail = .ok ⟨bytes, []⟩ ∧
    ∀ p cell : ℕ, (parts.flatMap ChunkPart.cells)[p]? = some cell →
      bytes[p]? = if cell &&& MARKER16 ≠ 0 then tail[tail.length - 1 - (cell &&& 0x7fff)]?
        else (chunkOfParts parts).bytes[p]?

section Cells

variable {tail : List UInt8} {cells : List ℕ} {cell p : ℕ}

/-- There is a byte for each cell. -/
@[simp] theorem resolvedBytes_length : (resolvedBytes tail cells).length = cells.length := by
  rw [resolvedBytes, applyMarkers_length, List.length_map]

/-- One more cell. -/
theorem resolvedBytes_snoc : resolvedBytes tail (cells ++ [cell]) =
    if cell &&& MARKER16 ≠ 0 then
      (resolvedBytes tail cells ++ [0]).set (cells.length % 2 ^ 32) (namedByte tail cell)
    else resolvedBytes tail cells ++ [narrow cell] := by
  have hrange : ∀ m ∈ marks 0 cells, m.outPos < (cells.map narrow).length := by
    intro m hm
    have := (outPos_lt_marks 0 cells m hm).2
    rw [List.length_map]
    omega
  rw [resolvedBytes, marks_append, Nat.zero_add, List.map_append, applyMarkers_append,
    applyMarkers_append_bytes hrange]
  by_cases hmarker : cell &&& MARKER16 ≠ 0
  · simp only [marks, applyMarkers, namedByte, narrow, if_pos hmarker, List.map_cons, List.map_nil,
      resolvedBytes]
  · simp only [marks, applyMarkers, if_neg hmarker, List.map_cons, List.map_nil, resolvedBytes]

/-- No position that does not fit a word is written. -/
theorem getElem?_resolvedBytes_far (tail : List UInt8) (cells : List ℕ) (hp : 2 ^ 32 ≤ p) :
    (resolvedBytes tail cells)[p]? = (cells.map narrow)[p]? := by
  have hdrop := drop_applyMarkers_of_lt tail (cells.map narrow)
    fun m hm => (outPos_lt_marks 0 cells m hm).1
  have hget := congrArg (fun l => l[p - 2 ^ 32]?) hdrop
  simp only [List.getElem?_drop] at hget
  rwa [Nat.add_sub_cancel' hp] at hget

/-- What holds of the far markers holds without the last cell. -/
theorem FarMarkersZero.of_snoc (h : FarMarkersZero tail (cells ++ [cell])) :
    FarMarkersZero tail cells := by
  intro p c hp hc hmarker
  have hlt := (List.getElem?_eq_some_iff.mp hc).1
  obtain ⟨hzero, hat⟩ := h p c hp (by rwa [List.getElem?_append_left hlt]) hmarker
  refine ⟨hzero, fun c' hc' => hat c' ?_⟩
  rwa [List.getElem?_append_left (List.getElem?_eq_some_iff.mp hc').1]

/-- Where no marker writes a wrong byte, all bytes are the named ones. -/
theorem resolvedBytes_eq (h : FarMarkersZero tail cells) :
    resolvedBytes tail cells = cells.map (namedByte tail) := by
  induction cells using List.reverseRecOn with
  | nil => rfl
  | append_singleton cells cell ih =>
    have hbefore := ih h.of_snoc
    rw [resolvedBytes_snoc, hbefore, List.map_append, List.map_singleton]
    by_cases hmarker : cell &&& MARKER16 ≠ 0
    swap
    · rw [if_neg hmarker, namedByte, if_neg hmarker]
    rw [if_pos hmarker]
    by_cases hnear : cells.length < 2 ^ 32
    · rw [Nat.mod_eq_of_lt hnear, List.set_append_right _ _ (by rw [List.length_map]),
        List.length_map, Nat.sub_self, List.set_cons_zero]
    · have hlt : cells.length % 2 ^ 32 < cells.length :=
        Nat.lt_of_lt_of_le (Nat.mod_lt _ (by decide)) (Nat.not_lt.mp hnear)
      obtain ⟨hzero, hat⟩ := h cells.length cell (Nat.not_lt.mp hnear)
        (by rw [List.getElem?_append_right le_rfl, Nat.sub_self]; rfl) hmarker
      have hold := hat (cells[cells.length % 2 ^ 32]) (by
        rw [List.getElem?_append_left hlt, List.getElem?_eq_getElem hlt])
      rw [List.set_append_left _ _ (by rwa [List.length_map]), hzero]
      congr 1
      refine List.ext_getElem (by simp) fun i hi hi' => ?_
      rw [List.getElem_set]
      split
      · next heq =>
        subst heq
        rw [List.getElem_map, hold]
      · rfl

/-- A far marker leaves a zero at the position it wraps to. -/
theorem getElem?_resolvedBytes_wrapped
    (hfar : ∀ p cell, 2 ^ 32 ≤ p → cells[p]? = some cell → cell &&& MARKER16 ≠ 0 →
      namedByte tail cell = 0)
    (hp : 2 ^ 32 ≤ p) (hcell : cells[p]? = some cell) (hmarker : cell &&& MARKER16 ≠ 0) :
    (resolvedBytes tail cells)[p % 2 ^ 32]? = some 0 := by
  have hwrap : p % 2 ^ 32 < 2 ^ 32 := Nat.mod_lt _ (by decide)
  induction cells using List.reverseRecOn with
  | nil => simp at hcell
  | append_singleton cells last ih =>
    have hlen := (List.getElem?_eq_some_iff.mp hcell).1
    rw [List.length_append, List.length_singleton] at hlen
    have hlast : (cells ++ [last])[cells.length]? = some last := by
      rw [List.getElem?_append_right le_rfl, Nat.sub_self]
      rfl
    rw [resolvedBytes_snoc]
    by_cases hnew : p = cells.length
    · subst hnew
      rw [hlast, Option.some.injEq] at hcell
      subst hcell
      rw [if_pos hmarker, hfar _ _ hp hlast hmarker,
        List.getElem?_set_self (by rw [List.length_append, resolvedBytes_length]; omega)]
    · have hold : (resolvedBytes tail cells)[p % 2 ^ 32]? = some 0 := by
        refine ih (fun q c hq hc => hfar q c hq ?_) ?_
        · rwa [List.getElem?_append_left (List.getElem?_eq_some_iff.mp hc).1]
        · rwa [List.getElem?_append_left (by omega)] at hcell
      have hlt : p % 2 ^ 32 < (resolvedBytes tail cells).length := by
        rw [resolvedBytes_length]
        omega
      split
      · next hmarker' =>
        rw [List.getElem?_set]
        split
        · rw [if_pos (by rw [List.length_append]; omega),
            hfar _ _ (by omega) hlast hmarker']
        · rw [List.getElem?_append_left hlt, hold]
      · rw [List.getElem?_append_left hlt, hold]

/-- All bytes are the named ones exactly where no far marker writes a wrong byte. -/
theorem resolvedBytes_eq_iff :
    resolvedBytes tail cells = cells.map (namedByte tail) ↔ FarMarkersZero tail cells := by
  refine ⟨fun h => ?_, resolvedBytes_eq⟩
  have hfar : ∀ p cell, 2 ^ 32 ≤ p → cells[p]? = some cell → cell &&& MARKER16 ≠ 0 →
      namedByte tail cell = 0 := by
    intro p cell hp hcell hmarker
    have hget := getElem?_resolvedBytes_far tail cells hp
    rw [h, List.getElem?_map, List.getElem?_map, hcell, Option.map_some, Option.map_some,
      narrow, if_pos hmarker, Option.some.injEq] at hget
    exact hget
  intro p cell hp hcell hmarker
  refine ⟨hfar p cell hp hcell hmarker, fun c hc => ?_⟩
  have hget := getElem?_resolvedBytes_wrapped hfar hp hcell hmarker
  rw [h, List.getElem?_map, hc, Option.map_some, Option.some.injEq] at hget
  exact hget

/-- A whole window reaches every marker. -/
theorem resolveMarkers_eq (htail : U16_WINDOW ≤ tail.length) :
    resolveMarkers (chunkOf cells) tail = .ok ⟨resolvedBytes tail cells, []⟩ := by
  have hwindow : 0x7fff < U16_WINDOW := by decide
  have hfill : fillMarkers tail (marks 0 cells) (cells.map narrow) =
      .ok (resolvedBytes tail cells) := by
    refine fillMarkers_eq_ok_iff.mpr ⟨fun m hm => ?_, rfl⟩
    have := prefixOffset_marks 0 cells m hm
    omega
  simp only [resolveMarkers, chunkOf, hfill]

/-- With a whole window in the tail, resolution is right where each marker ends up at its cell. -/
theorem resolvesInPlace_iff_eq (parts : List ChunkPart) (htail : U16_WINDOW ≤ tail.length) :
    ResolvesInPlace parts tail ↔
      resolvedBytes tail (parts.flatMap ChunkPart.cells) =
        (parts.flatMap ChunkPart.cells).map (namedByte tail) := by
  have hwindow : 0x7fff < U16_WINDOW := by decide
  have hnamed (cell : ℕ) (hmarker : cell &&& MARKER16 ≠ 0) :
      tail[tail.length - 1 - (cell &&& 0x7fff)]? = some (namedByte tail cell) := by
    rw [namedByte, if_pos hmarker, List.getElem?_eq_getElem (by omega),
      List.getD_eq_getElem _ _ (by omega)]
  unfold ResolvesInPlace
  rw [chunkOfParts_eq, resolveMarkers_eq htail]
  generalize parts.flatMap ChunkPart.cells = cells
  have hplace (p cell : ℕ) (hcell : cells[p]? = some cell) :
      (if cell &&& MARKER16 ≠ 0 then tail[tail.length - 1 - (cell &&& 0x7fff)]?
        else (chunkOf cells).bytes[p]?) = (cells.map (namedByte tail))[p]? := by
    rw [List.getElem?_map, hcell, Option.map_some]
    split
    · next hmarker => exact hnamed cell hmarker
    · next hmarker =>
      rw [chunkOf, List.getElem?_map, hcell, Option.map_some, namedByte, if_neg hmarker]
  constructor
  · rintro ⟨bytes, heq, hbytes⟩
    simp only [Except.ok.injEq, SpeculativeChunk.mk.injEq, and_true] at heq
    subst heq
    refine List.ext_getElem? fun p => ?_
    cases hcell : cells[p]? with
    | none =>
      rw [List.getElem?_eq_none_iff] at hcell
      rw [List.getElem?_eq_none_iff.mpr (by rwa [resolvedBytes_length]),
        List.getElem?_eq_none_iff.mpr (by rwa [List.length_map])]
    | some cell => rw [hbytes p cell hcell, hplace p cell hcell]
  · intro h
    exact ⟨_, rfl, fun p cell hcell => by rw [h, hplace p cell hcell]⟩

end Cells

/-- Resolution writes every named byte to its cell's place, and no other byte, exactly where
the markers beyond 4 GiB write zeros over zeros. -/
theorem resolvesInPlace_iff (parts : List ChunkPart) (tail : List UInt8)
    (htail : U16_WINDOW ≤ tail.length) :
    ResolvesInPlace parts tail ↔ FarMarkersZero tail (parts.flatMap ChunkPart.cells) :=
  (resolvesInPlace_iff_eq parts htail).trans resolvedBytes_eq_iff

/-- A chunk of at most 4 GiB has no such marker. -/
theorem farMarkersZero_of_length_le (tail : List UInt8) {cells : List ℕ}
    (hsize : cells.length ≤ 2 ^ 32) : FarMarkersZero tail cells := by
  intro p cell hp hcell
  have hlt := (List.getElem?_eq_some_iff.mp hcell).1
  omega

/-- A marker between bytes resolves. -/
theorem resolvesInPlace_iff_short :
    ResolvesInPlace [.window [65, 0x8000], .plain [66]] (List.replicate 32768 7) :=
  (resolvesInPlace_iff _ _ List.length_replicate.ge).mpr
    (farMarkersZero_of_length_le _ (by decide))

/-- A marker behind `n` bytes. -/
def farMarker (n : ℕ) : List ChunkPart := [.window (List.replicate n 65 ++ [0x8000])]

/-- A marker behind 4 GiB does not resolve, unless it stands for a zero. -/
theorem not_resolvesInPlace_of_far {n : ℕ} (hn : 2 ^ 32 ≤ n) {tail : List UInt8}
    (htail : U16_WINDOW ≤ tail.length) (hlast : tail.getD (tail.length - 1) 0 ≠ 0) :
    ¬ResolvesInPlace (farMarker n) tail := by
  intro h
  have hcells : (farMarker n).flatMap ChunkPart.cells = List.replicate n 65 ++ [0x8000] := by
    rw [farMarker, List.flatMap_singleton, ChunkPart.cells]
  have hmarker : (List.replicate n 65 ++ [0x8000])[n]? = some 0x8000 := by
    rw [List.getElem?_append_right (by rw [List.length_replicate]), List.length_replicate,
      Nat.sub_self]
    rfl
  rw [resolvesInPlace_iff_eq _ htail, hcells] at h
  have hget := getElem?_resolvedBytes_far tail (List.replicate n 65 ++ [0x8000]) hn
  rw [h, List.getElem?_map, List.getElem?_map, hmarker, Option.map_some, Option.map_some,
    Option.some.injEq] at hget
  exact hlast hget

/-- The first such marker. -/
theorem farMarker_not_resolvesInPlace :
    ¬ResolvesInPlace (farMarker (2 ^ 32)) (List.replicate 32768 1) :=
  not_resolvesInPlace_of_far le_rfl List.length_replicate.ge (by
    rw [List.length_replicate, List.getD_eq_getElem _ _ (by rw [List.length_replicate]; decide),
      List.getElem_replicate]
    decide)

end RustyRapidgzip
