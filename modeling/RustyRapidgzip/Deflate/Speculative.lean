import RustyRapidgzip.Deflate.BitReader
import RustyRapidgzip.Lib.Lz
import Mathlib.Data.List.DropRight

/-!
# Speculative chunks

A worker that starts in the middle of a stream does not know the bytes before its
chunk. It computes with 16-bit cells: a cell is a byte, or a marker that names a byte of
the unknown history. A chunk holds the bytes and, apart, the markers; once the history
is known, its last 32 KiB fill the marked places.
-/

namespace RustyRapidgzip

open Lz

/-- The bit of a cell that marks it as unknown. -/
def MARKER16 : ℕ := 0x8000

/-- The longest distance, in cells. -/
def U16_WINDOW : ℕ := 32 * 1024

/-- A byte of the output that is a byte of the history, counted backwards from its end. -/
structure Marker where
  outPos : ℕ
  prefixOffset : ℕ
  deriving DecidableEq, Repr

/-- The output of a chunk: its bytes, and the markers in the order of their positions. -/
structure SpeculativeChunk where
  bytes : List UInt8
  markers : List Marker
  deriving DecidableEq, Repr

/-- Record the markers among the cells and zero their bytes. Positions are 32-bit words. -/
def recordMarkers (base : ℕ) : List ℕ → ℕ → SpeculativeChunk → SpeculativeChunk
  | [], _, chunk => chunk
  | cell :: cells, idx, chunk =>
    if cell &&& MARKER16 ≠ 0 then
      recordMarkers base cells (idx + 1)
        { bytes := chunk.bytes.set (base + idx) 0
          markers := chunk.markers ++ [⟨(base + idx) % 2 ^ 32, cell &&& 0x7fff⟩] }
    else recordMarkers base cells (idx + 1) chunk

/-- Append cells to a chunk: their low bytes first, then the markers. -/
def SpeculativeChunk.extractFromU16 (chunk : SpeculativeChunk) (cells : List ℕ) :
    SpeculativeChunk :=
  recordMarkers chunk.bytes.length cells 0
    { chunk with bytes := chunk.bytes ++ cells.map UInt8.ofNat }

/-- Fill the marked places from the previous tail. -/
def fillMarkers (prevTail : List UInt8) : List Marker → List UInt8 →
    Except DeflateError (List UInt8)
  | [], bytes => .ok bytes
  | m :: markers, bytes =>
    let off := m.prefixOffset
    if prevTail.length ≤ off then
      .error (.invalid "marker references bytes outside the available prefix window")
    else
      fillMarkers prevTail markers
        (bytes.set m.outPos (prevTail.getD (prevTail.length - 1 - off) 0))

/-- Resolve a chunk against the bytes before it. -/
def resolveMarkers (chunk : SpeculativeChunk) (prevTail : List UInt8) :
    Except DeflateError SpeculativeChunk :=
  match fillMarkers prevTail chunk.markers chunk.bytes with
  | .error e => .error e
  | .ok bytes => .ok ⟨bytes, []⟩

/-- Fill the marked places of a chunk's tail, as long as the markers lie in it. A marker
that the previous tail does not reach is left alone. -/
def fillTail (prevTail : List UInt8) (tailStart : ℕ) : List Marker → List UInt8 → List UInt8
  | [], newTail => newTail
  | m :: markers, newTail =>
    if tailStart + newTail.length ≤ m.outPos then newTail
    else
      let off := m.prefixOffset
      fillTail prevTail tailStart markers
        (if off < prevTail.length then
          newTail.set (m.outPos - tailStart) (prevTail.getD (prevTail.length - 1 - off) 0)
        else newTail)

/-- The next chunk's previous tail, from the markers in the last 32 KiB. A shorter chunk
keeps a part of the previous tail. -/
def buildPrevTailFast (chunk : SpeculativeChunk) (prevTail : List UInt8) : List UInt8 :=
  let len := chunk.bytes.length
  let tailStart := len - U16_WINDOW
  let markers := chunk.markers.dropWhile (fun m => m.outPos < tailStart)
  let newTail := fillTail prevTail tailStart markers (chunk.bytes.drop tailStart)
  if len < U16_WINDOW ∧ prevTail ≠ [] then
    prevTail.drop (prevTail.length - (U16_WINDOW - len)) ++ newTail
  else newTail

/-! ## Cells -/

/-- What a cell stands for after the given history. -/
def resolveCell (tail : List UInt8) (cell : ℕ) : Option UInt8 :=
  if cell &&& MARKER16 ≠ 0 then
    if cell &&& 0x7fff < tail.length then tail[tail.length - 1 - (cell &&& 0x7fff)]? else none
  else some (UInt8.ofNat cell)

/-- The byte of a cell before resolution. -/
def narrow (cell : ℕ) : UInt8 := if cell &&& MARKER16 ≠ 0 then 0 else UInt8.ofNat cell

/-- The markers among cells that start at a position. -/
def marks : ℕ → List ℕ → List Marker
  | _, [] => []
  | pos, cell :: cells =>
    if cell &&& MARKER16 ≠ 0 then ⟨pos % 2 ^ 32, cell &&& 0x7fff⟩ :: marks (pos + 1) cells
    else marks (pos + 1) cells

/-- The chunk of a list of cells. -/
def chunkOf (cells : List ℕ) : SpeculativeChunk := ⟨cells.map narrow, marks 0 cells⟩

/-- The cells of the unknown history, each naming its own place. -/
def markerPrefix : List ℕ :=
  (List.range U16_WINDOW).map fun i => MARKER16 ||| (U16_WINDOW - 1 - i)

/-- A cell is a byte or a marker. -/
def IsCell (cell : ℕ) : Prop := cell < 256 ∨ ∃ off < U16_WINDOW, cell = MARKER16 ||| off

/-- The markers of cells behind each other are those of both parts. -/
theorem marks_append (pos : ℕ) (a b : List ℕ) :
    marks pos (a ++ b) = marks pos a ++ marks (pos + a.length) b := by
  induction a generalizing pos with
  | nil => simp [marks]
  | cons cell a ih =>
    rw [List.cons_append, marks, marks, ih, List.length_cons,
      show pos + 1 + a.length = pos + (a.length + 1) by omega]
    split
    · rw [List.cons_append]
    · rfl

/-- The markers stand at positions that fit a word. -/
def NearMarkers (pos : ℕ) (cells : List ℕ) : Prop :=
  ∀ i cell, cells[i]? = some cell → cell &&& MARKER16 ≠ 0 → pos + i < 2 ^ 32

/-- Cells below 4 GiB have near markers. -/
theorem nearMarkers_of_length {pos : ℕ} {cells : List ℕ} (hsize : pos + cells.length ≤ 2 ^ 32) :
    NearMarkers pos cells := by
  intro i cell hcell _
  have hlt := (List.getElem?_eq_some_iff.mp hcell).1
  omega

/-- Near markers are near from each cell on. -/
theorem nearMarkers_cons {pos cell : ℕ} {cells : List ℕ} (h : NearMarkers pos (cell :: cells)) :
    (cell &&& MARKER16 ≠ 0 → pos < 2 ^ 32) ∧ NearMarkers (pos + 1) cells := by
  constructor
  · exact fun hmarker => h 0 cell rfl hmarker
  · intro i c hc hmarker
    have hlt := h (i + 1) c (by rwa [List.getElem?_cons_succ]) hmarker
    omega

/-- Markers stand at their positions or after. -/
theorem outPos_marks {pos : ℕ} {cells : List ℕ} (hnear : NearMarkers pos cells) :
    ∀ m ∈ marks pos cells, pos ≤ m.outPos := by
  induction cells generalizing pos with
  | nil => simp [marks]
  | cons cell cells ih =>
    obtain ⟨hfirst, hrest⟩ := nearMarkers_cons hnear
    intro m hm
    rw [marks] at hm
    split at hm
    · next hmarker =>
      rcases List.mem_cons.mp hm with rfl | hmem
      · simp only
        rw [Nat.mod_eq_of_lt (hfirst hmarker)]
      · have := ih hrest m hmem
        omega
    · have := ih hrest m hm
      omega

/-- Markers stand in the order of their cells. -/
theorem pairwise_marks {pos : ℕ} {cells : List ℕ} (hnear : NearMarkers pos cells) :
    (marks pos cells).Pairwise (fun m m' => m.outPos < m'.outPos) := by
  induction cells generalizing pos with
  | nil => exact .nil
  | cons cell cells ih =>
    obtain ⟨hfirst, hrest⟩ := nearMarkers_cons hnear
    rw [marks]
    split
    · next hmarker =>
      refine List.pairwise_cons.mpr ⟨fun m hm => ?_, ih hrest⟩
      have hle := outPos_marks hrest m hm
      simp only [Nat.mod_eq_of_lt (hfirst hmarker)]
      omega
    · exact ih hrest

/-- A cell is marked by its sixteenth bit. -/
theorem and_marker16 (c : ℕ) : c &&& MARKER16 ≠ 0 ↔ c / 2 ^ 15 % 2 = 1 := by
  rw [show MARKER16 = 2 ^ 15 from rfl, Nat.and_two_pow, Nat.testBit_eq_decide_div_mod_eq]
  simp

/-- The fields of a marked cell. -/
theorem marker_fields {off : ℕ} (hoff : off < U16_WINDOW) :
    MARKER16 ||| off = 2 ^ 15 + off ∧ (MARKER16 ||| off) &&& MARKER16 ≠ 0 ∧
      (MARKER16 ||| off) &&& 0x7fff = off := by
  have h15 : U16_WINDOW = 2 ^ 15 := rfl
  have hsum : MARKER16 ||| off = 2 ^ 15 + off := by
    rw [show MARKER16 = 1 <<< 15 from rfl, ← Nat.shiftLeft_add_eq_or_of_lt (by omega)]
    rfl
  rw [and_marker16, hsum, show (0x7fff : ℕ) = 2 ^ 15 - 1 from rfl, Nat.and_two_pow_sub_one_eq_mod]
  omega

/-- A byte is no marked cell. -/
theorem byte_cell {c : ℕ} (hc : c < 256) : c &&& MARKER16 = 0 := by
  by_contra h
  have := (and_marker16 c).mp h
  omega

/-- A byte as a cell is itself. -/
theorem narrow_toNat (b : UInt8) : narrow b.toNat = b := by
  rw [narrow, if_neg (not_not.mpr (byte_cell (UInt8.toNat_lt b))), UInt8.ofNat_toNat]

/-- An unmarked cell is its byte. -/
theorem toNat_narrow {c : ℕ} (hc : IsCell c) (hbyte : c &&& MARKER16 = 0) :
    (narrow c).toNat = c := by
  rcases hc with hlt | ⟨off, hoff, rfl⟩
  · rw [narrow, if_neg (not_not.mpr hbyte), UInt8.toNat_ofNat']
    omega
  · exact absurd hbyte (marker_fields hoff).2.1

/-- An unmarked cell resolves to its byte. -/
theorem resolveCell_byte (tail : List UInt8) {c : ℕ} (hbyte : c &&& MARKER16 = 0) :
    resolveCell tail c = some (narrow c) := by
  rw [resolveCell, if_neg (not_not.mpr hbyte), narrow, if_neg (not_not.mpr hbyte)]

/-- A byte resolves to itself. -/
theorem resolveCell_toNat (tail : List UInt8) (b : UInt8) :
    resolveCell tail b.toNat = some b := by
  rw [resolveCell_byte tail (byte_cell (UInt8.toNat_lt b)), narrow_toNat]

/-- The markers of bytes are none. -/
theorem marks_bytes (pos : ℕ) (bytes : List UInt8) : marks pos (bytes.map UInt8.toNat) = [] := by
  induction bytes generalizing pos with
  | nil => rfl
  | cons b bytes ih =>
    rw [List.map_cons, marks, if_neg (not_not.mpr (byte_cell (UInt8.toNat_lt b))), ih]

/-- Appending bytes to a chunk. -/
theorem chunkOf_append_bytes (cells : List ℕ) (bytes : List UInt8) :
    chunkOf (cells ++ bytes.map UInt8.toNat) =
      ⟨(chunkOf cells).bytes ++ bytes, (chunkOf cells).markers⟩ := by
  have hnarrow : (bytes.map UInt8.toNat).map narrow = bytes := by
    rw [List.map_map]
    exact (List.map_congr_left fun b _ => narrow_toNat b).trans (List.map_id _)
  rw [chunkOf, chunkOf, marks_append, marks_bytes, List.append_nil, List.map_append, hnarrow]

/-- The recorded markers are those of the cells, and the cells are narrowed. -/
theorem recordMarkers_eq (base idx : ℕ) (cells : List ℕ) (bytes : List UInt8)
    (markers : List Marker) (hlen : bytes.length = base + idx) :
    recordMarkers base cells idx ⟨bytes ++ cells.map UInt8.ofNat, markers⟩ =
      ⟨bytes ++ cells.map narrow, markers ++ marks (base + idx) cells⟩ := by
  induction cells generalizing idx bytes markers with
  | nil => simp [recordMarkers, marks]
  | cons cell cells ih =>
    have hnext (b : UInt8) := fun markers => ih (idx + 1) (bytes ++ [b]) markers (by simp; omega)
    simp only [List.append_assoc, List.singleton_append] at hnext
    simp only [recordMarkers, marks, List.map_cons, narrow]
    by_cases hmarker : cell &&& MARKER16 ≠ 0
    · have hset : (bytes ++ UInt8.ofNat cell :: cells.map UInt8.ofNat).set (base + idx) 0 =
          bytes ++ 0 :: cells.map UInt8.ofNat := by
        rw [← hlen, List.set_append_right _ _ le_rfl, Nat.sub_self, List.set_cons_zero]
      simp only [if_pos hmarker]
      rw [hset, hnext]
      simp [Nat.add_assoc]
    · simp only [if_neg hmarker]
      rw [hnext]
      simp [Nat.add_assoc]

/-- Extraction appends cells. -/
theorem extract_chunkOf (cells more : List ℕ) :
    (chunkOf cells).extractFromU16 more = chunkOf (cells ++ more) := by
  unfold SpeculativeChunk.extractFromU16
  have h := recordMarkers_eq (chunkOf cells).bytes.length 0 more (chunkOf cells).bytes
    (chunkOf cells).markers rfl
  apply h.trans
  simp [chunkOf, marks_append]

/-! ## Resolution -/

/-- Filling the marks of cells resolves the cells, where all of them can be. -/
theorem fillMarkers_marks (tail : List UInt8) (cells : List ℕ) (bytes : List UInt8)
    (hnear : NearMarkers bytes.length cells) :
    (∃ more, cells.map (resolveCell tail) = more.map some ∧
      fillMarkers tail (marks bytes.length cells) (bytes ++ cells.map narrow) =
        .ok (bytes ++ more)) ∨
    (none ∈ cells.map (resolveCell tail) ∧
      ∃ msg, fillMarkers tail (marks bytes.length cells) (bytes ++ cells.map narrow) =
        .error (.invalid msg)) := by
  induction cells generalizing bytes with
  | nil => exact Or.inl ⟨[], rfl, by simp [fillMarkers, marks]⟩
  | cons cell cells ih =>
    obtain ⟨hfirst, hrest⟩ := nearMarkers_cons hnear
    have hnext (b : UInt8) := ih (bytes ++ [b]) (by
      rwa [List.length_append, List.length_singleton])
    simp only [List.length_append, List.length_singleton, List.append_assoc,
      List.singleton_append] at hnext
    have hcell (b : UInt8) (hb : resolveCell tail cell = some b) :
        (cell :: cells).map (resolveCell tail) = some b :: cells.map (resolveCell tail) := by
      rw [List.map_cons, hb]
    by_cases hmarker : cell &&& MARKER16 ≠ 0
    · simp only [marks, if_pos hmarker, fillMarkers]
      by_cases hoff : cell &&& 0x7fff < tail.length
      · have hget : resolveCell tail cell =
            some (tail.getD (tail.length - 1 - (cell &&& 0x7fff)) 0) := by
          rw [resolveCell, if_pos hmarker, if_pos hoff, List.getElem?_eq_getElem (by omega),
            List.getD_eq_getElem _ _ (by omega)]
        have hset : (bytes ++ (cell :: cells).map narrow).set (bytes.length % 2 ^ 32)
            (tail.getD (tail.length - 1 - (cell &&& 0x7fff)) 0) =
            bytes ++ tail.getD (tail.length - 1 - (cell &&& 0x7fff)) 0 :: cells.map narrow := by
          rw [Nat.mod_eq_of_lt (hfirst hmarker), List.map_cons, List.set_append_right _ _ le_rfl,
            Nat.sub_self, List.set_cons_zero]
        rw [if_neg (by omega), hset, hcell _ hget]
        rcases hnext (tail.getD (tail.length - 1 - (cell &&& 0x7fff)) 0) with
          ⟨more, hmore, hok⟩ | ⟨hnone, herr⟩
        · exact Or.inl ⟨_ :: more, by rw [hmore]; rfl, hok⟩
        · exact Or.inr ⟨List.mem_cons_of_mem _ hnone, herr⟩
      · have hnone : resolveCell tail cell = none := by
          rw [resolveCell, if_pos hmarker, if_neg hoff]
        rw [if_pos (by omega)]
        exact Or.inr ⟨by rw [List.map_cons, hnone]; exact List.mem_cons_self, _, rfl⟩
    · have hbyte := resolveCell_byte tail (not_not.mp hmarker)
      rw [hcell _ hbyte]
      simp only [marks, if_neg hmarker, List.map_cons]
      rcases hnext (narrow cell) with ⟨more, hmore, hok⟩ | ⟨hnone, herr⟩
      · exact Or.inl ⟨_ :: more, by rw [hmore]; rfl, hok⟩
      · exact Or.inr ⟨List.mem_cons_of_mem _ hnone, herr⟩

/-- Resolving a chunk succeeds exactly where all its cells can be resolved. -/
theorem resolveMarkers_chunkOf (tail : List UInt8) {cells : List ℕ}
    (hnear : NearMarkers 0 cells) :
    (∃ bytes, cells.map (resolveCell tail) = bytes.map some ∧
      resolveMarkers (chunkOf cells) tail = .ok ⟨bytes, []⟩) ∨
    (none ∈ cells.map (resolveCell tail) ∧
      ∃ msg, resolveMarkers (chunkOf cells) tail = .error (.invalid msg)) := by
  unfold resolveMarkers chunkOf
  rcases fillMarkers_marks tail cells [] hnear with
    ⟨more, hmore, hok⟩ | ⟨hnone, msg, herr⟩
  · simp only [List.length_nil, List.nil_append] at hok
    exact Or.inl ⟨more, hmore, by rw [hok]⟩
  · simp only [List.length_nil, List.nil_append] at herr
    exact Or.inr ⟨hnone, msg, by rw [herr]⟩

/-- Filling succeeds only where all cells can be resolved, whatever the positions. -/
theorem resolvable_of_fillMarkers {tail : List UInt8} {cells : List ℕ} {pos : ℕ}
    {bytes bytes' : List UInt8} (h : fillMarkers tail (marks pos cells) bytes = .ok bytes') :
    ∃ more : List UInt8, cells.map (resolveCell tail) = more.map some := by
  induction cells generalizing pos bytes with
  | nil => exact ⟨[], rfl⟩
  | cons cell cells ih =>
    by_cases hmarker : cell &&& MARKER16 ≠ 0
    · simp only [marks, if_pos hmarker, fillMarkers] at h
      by_cases hoff : tail.length ≤ cell &&& 0x7fff
      · rw [if_pos hoff] at h
        cases h
      · rw [if_neg hoff] at h
        obtain ⟨more, hmore⟩ := ih h
        refine ⟨tail[tail.length - 1 - (cell &&& 0x7fff)] :: more, ?_⟩
        rw [List.map_cons, List.map_cons, hmore, resolveCell, if_pos hmarker, if_pos (by omega),
          List.getElem?_eq_getElem (by omega)]
    · simp only [marks, if_neg hmarker] at h
      obtain ⟨more, hmore⟩ := ih h
      exact ⟨narrow cell :: more, by
        rw [List.map_cons, List.map_cons, hmore, resolveCell_byte tail (not_not.mp hmarker)]⟩

/-- Where the markers resolve, each cell does. -/
theorem resolvable_of_resolveMarkers {tail : List UInt8} {cells : List ℕ}
    {resolved : SpeculativeChunk} (h : resolveMarkers (chunkOf cells) tail = .ok resolved) :
    ∃ more : List UInt8, cells.map (resolveCell tail) = more.map some := by
  unfold resolveMarkers at h
  cases hfill : fillMarkers tail (chunkOf cells).markers (chunkOf cells).bytes with
  | error e =>
    rw [hfill] at h
    cases h
  | ok bytes => exact resolvable_of_fillMarkers hfill

/-- A history of at most 32 KiB stands at the end of the unknown one. -/
theorem map_resolveCell_markerPrefix {tail : List UInt8} (hle : tail.length ≤ U16_WINDOW) :
    markerPrefix.map (resolveCell tail) = padded (U16_WINDOW - tail.length) tail := by
  apply List.ext_getElem
  · simp [markerPrefix]
    omega
  · intro i hi hi'
    simp only [markerPrefix, List.length_map, List.length_range] at hi
    have hfields := marker_fields (show U16_WINDOW - 1 - i < U16_WINDOW by omega)
    simp only [markerPrefix, List.getElem_map, List.getElem_range, resolveCell, if_pos hfields.2.1,
      hfields.2.2, padded]
    by_cases hlt : i < U16_WINDOW - tail.length
    · rw [if_neg (by omega), List.getElem_append_left (by simpa using hlt), List.getElem_replicate]
    · rw [if_pos (by omega), List.getElem_append_right (by simp; omega),
        List.getElem?_eq_getElem (by omega)]
      simp only [List.length_replicate, List.getElem_map, Option.some.injEq]
      congr 1
      omega

/-- The prefix is as long as the window. -/
theorem markerPrefix_length : markerPrefix.length = U16_WINDOW := by simp [markerPrefix]

/-- A cell of the prefix points back to its own place. -/
theorem getElem?_markerPrefix {i : ℕ} (hi : i < U16_WINDOW) :
    markerPrefix[i]? = some (MARKER16 ||| (U16_WINDOW - 1 - i)) := by
  rw [markerPrefix, List.getElem?_map, List.getElem?_range hi]
  rfl

/-- The prefix is made of cells. -/
theorem isCell_markerPrefix : ∀ c ∈ markerPrefix, IsCell c := by
  intro c hc
  rw [markerPrefix, List.mem_map] at hc
  obtain ⟨i, -, rfl⟩ := hc
  exact Or.inr ⟨_, by rw [U16_WINDOW]; omega, rfl⟩

-- The prefix is 32 Ki cells long: from here on it is known by its lemmas only.
attribute [irreducible] markerPrefix

end RustyRapidgzip
