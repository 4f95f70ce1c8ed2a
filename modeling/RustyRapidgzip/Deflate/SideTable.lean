import RustyRapidgzip.Deflate.HandOff

/-!
# The side table of markers

The older speculative decoder writes plain bytes and keeps the markers apart, in a table
sorted by position. A copy looks up the markers of its source with a cursor and appends
theirs to the table; markers too old to be a source are retired from the search. The table
holds exactly the markers the window of cells carries along, so both decoders return the
same chunk.
-/

namespace RustyRapidgzip

open LsbBits Reference HuffmanDecoder Lz

namespace SideTable

/-- The table of a decode. The records of the source have the fields of markers. -/
structure SpeculativeContext where
  markers : List Marker
  maxMarkerPos : Option ℕ
  outPosOffset : ℕ
  liveStart : ℕ
  deriving DecidableEq, Repr

/-- The bytes written so far, and their table. -/
structure Output where
  bytes : List UInt8
  ctx : SpeculativeContext
  deriving DecidableEq, Repr

/-- Push the marker of the `k`-th byte of an overshoot. -/
def recordPrefixByte (written dist : ℕ) (ctx : SpeculativeContext) (k : ℕ) : SpeculativeContext :=
  let outPos := (ctx.outPosOffset + written + k) % 2 ^ 32
  { ctx with
    markers := ctx.markers ++ [⟨outPos, (dist - written - k - 1) % 2 ^ 16⟩]
    maxMarkerPos := some outPos }

/-- Push one marker for each byte of an overshoot. -/
def recordMatchPrefix (ctx : SpeculativeContext) (written dist count : ℕ) : SpeculativeContext :=
  (List.range count).foldl (recordPrefixByte written dist) ctx

/-- `while cursor < markers.len()`, skip the markers below a position. This is also the
partition point of the sorted markers after the cursor. -/
def skipBelow (markers : List Marker) (pos : ℕ) : ℕ → ℕ → ℕ
  | 0, cursor => cursor
  | rounds + 1, cursor =>
    match markers[cursor]? with
    | some m => if m.outPos < pos then skipBelow markers pos rounds (cursor + 1) else cursor
    | none => cursor

/-- `for k in 0..len`, push the marker of each marked source position. -/
def propagateLoop (dstStart srcLo len : ℕ) :
    ℕ → ℕ → List Marker → ℕ → ℕ → List Marker × ℕ
  | 0, _, markers, _, newMax => (markers, newMax)
  | rounds + 1, k, markers, cursor, newMax =>
    let srcPos := srcLo + k
    if newMax < srcPos then (markers, newMax)
    else
      let cursor := skipBelow markers srcPos markers.length cursor
      match markers[cursor]? with
      | none =>
        if k + 1 < len ∧ srcLo + k < newMax then
          propagateLoop dstStart srcLo len rounds (k + 1) markers cursor newMax
        else (markers, newMax)
      | some m =>
        if m.outPos = srcPos then
          let newPos := (dstStart + k) % 2 ^ 32
          propagateLoop dstStart srcLo len rounds (k + 1) (markers ++ [⟨newPos, m.prefixOffset⟩])
            (cursor + 1) newPos
        else propagateLoop dstStart srcLo len rounds (k + 1) markers cursor newMax

/-- Copy the markers of a copy's source to its destination. -/
def propagateMatchCached (ctx : SpeculativeContext) (written dist len : ℕ) : SpeculativeContext :=
  match ctx.maxMarkerPos with
  | none => ctx
  | some max =>
    let dstStart := ctx.outPosOffset + written
    if dstStart < dist then ctx
    else
      let srcLo := dstStart - dist
      if max < srcLo then ctx
      else
        let liveFloor := dstStart - MAX_DISTANCE
        let liveStart := skipBelow ctx.markers liveFloor ctx.markers.length ctx.liveStart
        let cursor := skipBelow ctx.markers srcLo ctx.markers.length liveStart
        let (markers, newMax) := propagateLoop dstStart srcLo len len 0 ctx.markers cursor max
        { ctx with markers := markers, maxMarkerPos := some newMax, liveStart := liveStart }

/-- Resolve a copy: placeholders and markers for what lies before the chunk, then bytes. -/
def resolve (chunkBase : ℕ) (t : Output) (distance length : ℕ) : Except DeflateError Output :=
  let emitted := t.bytes.length - chunkBase
  if emitted < distance then
    let prefixCount := min (distance - emitted) length
    let bytes := t.bytes ++ List.replicate prefixCount 0
    let ctx := recordMatchPrefix t.ctx emitted distance prefixCount
    let inBufferCount := length - prefixCount
    if 0 < inBufferCount then
      .ok ⟨copyBackRaw bytes distance inBufferCount,
        propagateMatchCached ctx (emitted + prefixCount) distance inBufferCount⟩
    else .ok ⟨bytes, ctx⟩
  else if distance = 0 then .error (.invalid "zero back-reference distance")
  else .ok ⟨copyBackRaw t.bytes distance length, propagateMatchCached t.ctx emitted distance length⟩

/-- Append bytes. -/
def Output.push (t : Output) (bytes : List UInt8) : Output := { t with bytes := t.bytes ++ bytes }

/-- One round of the symbol loop. -/
def round (chunkBase : ℕ) (lit dist : HuffmanDecoder) (s : Output × BitReader) :
    Except DeflateError ((Output × BitReader) ⊕ (Output × BitReader)) :=
  match s.2.refillKernel with
  | .error e => .error e
  | .ok br =>
    match lit.lookupFilled br with
    | .error e => .error e
    | .ok (entry, br) =>
      if entry &&& HUFFDEC_LITERAL ≠ 0 then
        let e2 := lit.lut (br.peekBitsUnchecked LUT_BITS)
        let len2 := e2 &&& 0xff
        if len2 ≠ 0 ∧ e2 &&& HUFFDEC_LITERAL ≠ 0 then
          .ok (.inl (s.1.push [UInt8.ofNat (entry >>> 16), UInt8.ofNat (e2 >>> 16)],
            br.consume len2))
        else .ok (.inl (s.1.push [UInt8.ofNat (entry >>> 16)], br))
      else if entry &&& HUFFDEC_EXCEPTIONAL ≠ 0 then
        if entry >>> 16 = 0 then .ok (.inr (s.1, br))
        else .error (.invalid "literal/length symbol out of range")
      else
        let (length, br) := lengthOf entry br
        match copyMatch (resolve chunkBase) dist length s.1 br with
        | .error e => .error e
        | .ok s => .ok (.inl s)

/-- The symbol loop. -/
def decodeCompressed (chunkBase : ℕ) (lit dist : HuffmanDecoder) (t : Output) (br : BitReader) :
    Except DeflateError (Output × BitReader) :=
  Loop.iterate .outOfFuel (round chunkBase lit dist) (8 * br.input.length + 1) (t, br)

/-- The contents of a block of the given type. -/
def decodeBlock (btype chunkBase : ℕ) (t : Output) (br : BitReader) :
    Except DeflateError (Output × BitReader) :=
  if btype = 0 then (decodeStored br t.bytes).map fun r => ({ t with bytes := r.1 }, r.2)
  else do
    let ((lit, dist), br) ← blockTrees btype br
    decodeCompressed chunkBase lit dist t br

/-- Decode one block. The flag is BFINAL. -/
def decodeOneBlock (chunkBase : ℕ) (t : Output) (br : BitReader) :
    Except DeflateError ((Bool × Output) × BitReader) := do
  let (bfinal, br) ← br.read 1
  let (btype, br) ← br.read 2
  let (t, br) ← decodeBlock btype chunkBase t br
  .ok ((bfinal != 0, t), br)

/-- One round of the loop over the blocks. -/
def untilRound (chunkBase endBitHint : ℕ) (s : Output × BitReader) :
    Except DeflateError ((Output × BitReader) ⊕ ((Bool × Output) × BitReader)) :=
  match decodeOneBlock chunkBase s.1 s.2 with
  | .error e => .error e
  | .ok ((bfinal, t), br) =>
    if bfinal then .ok (.inr ((true, t), br))
    else if endBitHint ≤ br.tellBit then .ok (.inr ((false, t), br))
    else .ok (.inl (t, br))

end SideTable

/-- Move the markers of a table into the chunk. -/
def SpeculativeChunk.bytesOffsetMarkers (chunk : SpeculativeChunk) (src : List Marker)
    (base : ℕ) : SpeculativeChunk :=
  { chunk with
    markers := chunk.markers ++ src.map fun m => ⟨(m.outPos + base) % 2 ^ 32, m.prefixOffset⟩ }

/-- Decode blocks with the side table, up to the final one or the first that ends at or after
the hint. -/
def decodeUntil (input : List UInt8) (startBit endBitHint : ℕ) (chunk : SpeculativeChunk) :
    Except DeflateError ((ℕ × Bool) × SpeculativeChunk) := do
  let br ← (BitReader.new input).seekToBit startBit
  let chunkBase := chunk.bytes.length
  let ((finalBlock, t), br) ← Loop.iterate .outOfFuel (SideTable.untilRound chunkBase endBitHint)
    (8 * br.input.length + 1) (⟨chunk.bytes, ⟨[], none, 0, 0⟩⟩, br)
  .ok ((br.tellBit, finalBlock),
    { chunk with bytes := t.bytes }.bytesOffsetMarkers t.ctx.markers (chunkBase % 2 ^ 32))

/-! ## Markers of cells -/

/-- The markers of cells name their marked places. -/
theorem mem_marks_iff {pos : ℕ} {cells : List ℕ} (hsize : pos + cells.length ≤ 2 ^ 32)
    {m : Marker} :
    m ∈ marks pos cells ↔
      ∃ i cell, cells[i]? = some cell ∧ cell &&& MARKER16 ≠ 0 ∧ m = ⟨pos + i, cell &&& 0x7fff⟩ := by
  induction cells generalizing pos with
  | nil => simp [marks]
  | cons cell cells ih =>
    rw [List.length_cons] at hsize
    have hrest := ih (show pos + 1 + cells.length ≤ 2 ^ 32 by omega)
    have hmod : pos % 2 ^ 32 = pos := Nat.mod_eq_of_lt (by omega)
    have hlater : m ∈ marks (pos + 1) cells ↔ ∃ i c, (cell :: cells)[i + 1]? = some c ∧
        c &&& MARKER16 ≠ 0 ∧ m = ⟨pos + (i + 1), c &&& 0x7fff⟩ := by
      simp only [hrest, List.getElem?_cons_succ, Nat.add_assoc, Nat.add_comm 1]
    constructor
    · intro hm
      rw [marks, hmod] at hm
      split at hm
      · rename_i hmarker
        rcases List.mem_cons.mp hm with rfl | hmem
        · exact ⟨0, cell, rfl, hmarker, rfl⟩
        · obtain ⟨i, c, h⟩ := hlater.mp hmem
          exact ⟨i + 1, c, h⟩
      · obtain ⟨i, c, h⟩ := hlater.mp hm
        exact ⟨i + 1, c, h⟩
    · rintro ⟨i, c, hget, hmarker, rfl⟩
      rw [marks, hmod]
      cases i with
      | zero =>
        rw [List.getElem?_cons_zero, Option.some.injEq] at hget
        subst hget
        rw [if_pos hmarker]
        exact List.mem_cons_self
      | succ i =>
        have hmem := hlater.mpr ⟨i, c, hget, hmarker, rfl⟩
        split
        · exact List.mem_cons_of_mem _ hmem
        · exact hmem

/-- Unmarked cells have no markers. -/
theorem marks_of_unmarked {cells : List ℕ} (pos : ℕ) (h : ∀ c ∈ cells, c &&& MARKER16 = 0) :
    marks pos cells = [] := by
  induction cells generalizing pos with
  | nil => rfl
  | cons cell cells ih =>
    rw [List.forall_mem_cons] at h
    rw [marks, if_neg (not_not.mpr h.1), ih _ h.2]

/-- One more cell adds its marker. -/
theorem marks_snoc (cells : List ℕ) (c : ℕ) :
    marks 0 (cells ++ [c]) = marks 0 cells ++
      if c &&& MARKER16 ≠ 0 then [⟨cells.length % 2 ^ 32, c &&& 0x7fff⟩] else [] := by
  rw [marks_append, Nat.zero_add, marks, marks]

/-- A copy from unmarked cells adds no marker. -/
theorem marks_copyBack {cells : List ℕ} {d n : ℕ} (hd : 0 < d) (hle : d ≤ cells.length)
    (h : ∀ c ∈ cells.drop (cells.length - d), c &&& MARKER16 = 0) :
    marks 0 (copyBack cells d n) = marks 0 cells := by
  have hsplit := List.take_append_drop (cells.length - d) cells
  obtain ⟨more, hmore⟩ := copyBack_extends (cells.drop (cells.length - d)) d n
  have hcopy : copyBack cells d n = cells ++ more := by
    conv_lhs => rw [← hsplit]
    rw [copyBack_append_left _ hd (by rw [List.length_drop]; omega), ← hmore, ← List.append_assoc,
      hsplit]
  have hclean : ∀ c ∈ more, c &&& MARKER16 = 0 := fun c hc =>
    copyBack_forall h d n c (hmore ▸ List.mem_append_right _ hc)
  rw [hcopy, marks_append, marks_of_unmarked _ hclean, List.append_nil]

/-! ## The table -/

namespace SideTable

/-- The position of the last marker. -/
def lastPos (markers : List Marker) : Option ℕ := markers.getLast?.map Marker.outPos

/-- The table of the cells written so far. -/
structure Marked (ctx : SpeculativeContext) (cells : List ℕ) : Prop where
  offset : ctx.outPosOffset = 0
  markers_eq : ctx.markers = marks 0 cells
  max_eq : ctx.maxMarkerPos = lastPos ctx.markers
  live_le : ctx.liveStart ≤ ctx.markers.length
  retired : ∀ m ∈ ctx.markers.take ctx.liveStart, m.outPos + MAX_DISTANCE < cells.length

section Table

variable {cells : List ℕ} {ctx : SpeculativeContext} {pos cursor d n : ℕ}

/-- Skipping stops at the first marker that is not below the position. -/
theorem skipBelow_spec (markers : List Marker) (pos : ℕ) {rounds cursor : ℕ}
    (hrounds : markers.length ≤ cursor + rounds) (hcursor : cursor ≤ markers.length) :
    skipBelow markers pos rounds cursor ≤ markers.length ∧
    (∀ m ∈ markers.take (skipBelow markers pos rounds cursor),
      m ∈ markers.take cursor ∨ m.outPos < pos) ∧
    ∀ m, markers[skipBelow markers pos rounds cursor]? = some m → pos ≤ m.outPos := by
  induction rounds generalizing cursor with
  | zero =>
    have hend : markers[cursor]? = none := List.getElem?_eq_none (by omega)
    simp only [skipBelow, hend]
    exact ⟨hcursor, fun m hm => Or.inl hm, nofun⟩
  | succ rounds ih =>
    cases hget : markers[cursor]? with
    | none =>
      simp only [skipBelow, hget]
      exact ⟨hcursor, fun m hm => Or.inl hm, nofun⟩
    | some m =>
      obtain ⟨hlt, -⟩ := List.getElem?_eq_some_iff.mp hget
      simp only [skipBelow, hget]
      by_cases hbelow : m.outPos < pos
      · rw [if_pos hbelow]
        obtain ⟨hle, hskipped, hstop⟩ := ih (show _ ≤ cursor + 1 + rounds by omega) (by omega)
        refine ⟨hle, fun m' hm' => ?_, hstop⟩
        rcases hskipped m' hm' with hmem | hlow
        · rw [List.take_add_one, hget, List.mem_append] at hmem
          rcases hmem with hmem | hmem
          · exact Or.inl hmem
          · obtain rfl : m' = m := by simpa using hmem
            exact Or.inr hbelow
        · exact Or.inr hlow
      · rw [if_neg hbelow, hget]
        refine ⟨hcursor, fun m hm => Or.inl hm, ?_⟩
        rintro _ ⟨⟩
        omega

/-- No marker is behind the last one. -/
theorem le_lastPos (hsize : cells.length ≤ 2 ^ 32) {max : ℕ}
    (hmax : lastPos (marks 0 cells) = some max) : ∀ m ∈ marks 0 cells, m.outPos ≤ max := by
  have hsorted := pairwise_marks (nearMarkers_of_length (show 0 + cells.length ≤ 2 ^ 32 by omega))
  generalize marks 0 cells = markers at hmax hsorted
  obtain ⟨last, hlast, rfl⟩ := Option.map_eq_some_iff.mp hmax
  obtain ⟨front, rfl⟩ := List.getLast?_eq_some_iff.mp hlast
  intro m hm
  rcases List.mem_append.mp hm with hfront | hend
  · exact Nat.le_of_lt ((List.pairwise_append.mp hsorted).2.2 m hfront last (by simp))
  · obtain rfl : m = last := by simpa using hend
    exact le_rfl

/-- Cells after the last marker are unmarked. -/
theorem unmarked_of_lastPos (hsize : cells.length ≤ 2 ^ 32)
    (h : ∀ m ∈ marks 0 cells, m.outPos < pos) : ∀ c ∈ cells.drop pos, c &&& MARKER16 = 0 := by
  intro c hc
  by_contra hmarker
  obtain ⟨i, hi⟩ := List.mem_iff_getElem?.mp hc
  rw [List.getElem?_drop] at hi
  have hmem := (mem_marks_iff (show 0 + cells.length ≤ 2 ^ 32 by omega)).mpr
    ⟨pos + i, c, hi, hmarker, rfl⟩
  have := h _ hmem
  simp only at this
  omega

/-- The cursor finds the marker of a source position, if it has one. -/
theorem marker_at (hsize : cells.length ≤ 2 ^ 32) {c : ℕ} (hcell : cells[pos]? = some c)
    (hbefore : ∀ m ∈ (marks 0 cells).take cursor, m.outPos < pos) {m : Marker}
    (hget : (marks 0 cells)[cursor]? = some m) (hle : pos ≤ m.outPos) :
    (m.outPos = pos ∧ c &&& MARKER16 ≠ 0 ∧ m.prefixOffset = c &&& 0x7fff) ∨
      (m.outPos ≠ pos ∧ c &&& MARKER16 = 0) := by
  have hsize0 : 0 + cells.length ≤ 2 ^ 32 := by omega
  by_cases heq : m.outPos = pos
  · obtain ⟨i, c', hc', hmarker, rfl⟩ := (mem_marks_iff hsize0).mp (List.mem_of_getElem? hget)
    simp only at heq
    obtain rfl : i = pos := by omega
    rw [hcell, Option.some.injEq] at hc'
    subst hc'
    exact Or.inl ⟨heq, hmarker, rfl⟩
  · refine Or.inr ⟨heq, ?_⟩
    by_contra hmarker
    have hmem := (mem_marks_iff hsize0).mpr ⟨pos, c, hcell, hmarker, rfl⟩
    have hsorted := pairwise_marks (nearMarkers_of_length hsize0)
    rw [← List.take_append_drop cursor (marks 0 cells)] at hmem hsorted
    rcases List.mem_append.mp hmem with hfront | hback
    · have := hbefore _ hfront
      simp only at this
      omega
    · obtain ⟨hlt, hm⟩ := List.getElem?_eq_some_iff.mp hget
      rw [List.drop_eq_getElem_cons hlt, hm] at hback hsorted
      rcases List.mem_cons.mp hback with rfl | hlater
      · simp only at heq
        omega
      · have := List.rel_of_pairwise_cons (List.pairwise_append.mp hsorted).2.1 hlater
        simp only at this
        omega

/-- The loop over a copy pushes the markers of the copied cells. -/
theorem propagateLoop_spec (len : ℕ) {dstStart srcLo rounds k newMax : ℕ} (hd : 0 < d)
    (hle : d ≤ cells.length) (hsize : cells.length + rounds ≤ 2 ^ 32)
    (hsrc : srcLo + k + d = cells.length) (hdst : dstStart + k = cells.length)
    (hcursor : cursor ≤ (marks 0 cells).length)
    (hbefore : ∀ m ∈ (marks 0 cells).take cursor, m.outPos < srcLo + k)
    (hmax : lastPos (marks 0 cells) = some newMax) :
    ∃ last, propagateLoop dstStart srcLo len rounds k (marks 0 cells) cursor newMax =
        (marks 0 (copyBack cells d rounds), last) ∧
      lastPos (marks 0 (copyBack cells d rounds)) = some last := by
  induction rounds generalizing cells k cursor newMax with
  | zero => exact ⟨newMax, rfl, hmax⟩
  | succ rounds ih =>
    have hlast := le_lastPos (show cells.length ≤ 2 ^ 32 by omega) hmax
    by_cases hend : newMax < srcLo + k
    · have hsame : marks 0 (copyBack cells d (rounds + 1)) = marks 0 cells := by
        apply marks_copyBack hd hle
        rw [show cells.length - d = srcLo + k by omega]
        exact unmarked_of_lastPos (by omega) fun m hm => by
          have := hlast m hm
          omega
      simp only [propagateLoop, if_pos hend, hsame]
      exact ⟨newMax, rfl, hmax⟩
    · obtain ⟨hcursor', hskipped, hstop⟩ := skipBelow_spec (marks 0 cells) (srcLo + k)
        (show (marks 0 cells).length ≤ cursor + (marks 0 cells).length by omega) hcursor
      simp only [propagateLoop, if_neg hend]
      generalize skipBelow (marks 0 cells) (srcLo + k) (marks 0 cells).length cursor = at_ at *
      have hbefore' : ∀ m ∈ (marks 0 cells).take at_, m.outPos < srcLo + k := fun m hm =>
        (hskipped m hm).elim (hbefore m) id
      obtain ⟨c, hcell⟩ : ∃ c, cells[srcLo + k]? = some c :=
        ⟨_, List.getElem?_eq_getElem (show srcLo + k < cells.length by omega)⟩
      have hcopy : copyBack cells d (rounds + 1) = copyBack (cells ++ [c]) d rounds := by
        rw [copyBack, show cells.length - d = srcLo + k by omega, hcell]
        rfl
      have hsnoc := marks_snoc cells c
      rw [hcopy]
      cases hget : (marks 0 cells)[at_]? with
      | none =>
        obtain ⟨m, hm, rfl⟩ := Option.map_eq_some_iff.mp hmax
        have hall : (marks 0 cells).take at_ = marks 0 cells :=
          List.take_of_length_le (List.getElem?_eq_none_iff.mp hget)
        rw [hall] at hbefore'
        exact absurd (hbefore' m (List.mem_of_getLast? hm)) hend
      | some m =>
        simp only
        rcases marker_at (by omega) hcell hbefore' hget (hstop m hget) with
          ⟨heq, hmarker, hoff⟩ | ⟨hne, hbyte⟩
        · rw [if_pos hmarker, ← hdst, ← hoff] at hsnoc
          rw [if_pos heq, ← hsnoc]
          obtain ⟨hlt, -⟩ := List.getElem?_eq_some_iff.mp hget
          refine ih (by simp; omega) (by simp; omega) (by simp; omega) (by simp; omega)
            (by rw [hsnoc, List.length_append]; omega) ?_ ?_
          · rw [hsnoc, List.take_append_of_le_length hlt, List.take_add_one, hget]
            intro m' hm'
            rcases List.mem_append.mp hm' with hfront | hend
            · have := hbefore' m' hfront
              omega
            · obtain rfl : m' = m := by simpa using hend
              omega
          · rw [hsnoc, lastPos, List.getLast?_append, List.getLast?_singleton]
            rfl
        · rw [if_neg (not_not.mpr hbyte), List.append_nil] at hsnoc
          rw [if_neg hne, ← hsnoc]
          refine ih (by simp; omega) (by simp; omega) (by simp; omega) (by simp; omega)
            (by rw [hsnoc]; omega) ?_ (by rw [hsnoc, hmax])
          rw [hsnoc]
          intro m' hm'
          have := hbefore' m' hm'
          omega

/-- The empty table. -/
theorem marked_nil : Marked ⟨[], none, 0, 0⟩ [] := ⟨rfl, rfl, rfl, le_rfl, by simp⟩

/-- Bytes leave the table as it is. -/
theorem Marked.append_bytes (h : Marked ctx cells) (bytes : List UInt8) :
    Marked ctx (cells ++ bytes.map UInt8.toNat) := by
  refine ⟨h.offset, ?_, h.max_eq, h.live_le, fun m hm => ?_⟩
  · rw [marks_append, marks_bytes, List.append_nil, h.markers_eq]
  · have := h.retired m hm
    rw [List.length_append]
    omega

/-- The cells of an overshoot. -/
def prefixCells (written dist count : ℕ) : List ℕ :=
  (List.range count).map fun k => MARKER16 ||| (dist - written - k - 1)

/-- An overshoot pushes the markers of its cells. -/
theorem Marked.recordMatchPrefix (h : Marked ctx cells) {dist count : ℕ}
    (hdist : dist ≤ U16_WINDOW) (hcount : cells.length + count ≤ dist)
    (hsize : cells.length + count ≤ 2 ^ 32) :
    Marked (recordMatchPrefix ctx cells.length dist count)
      (cells ++ prefixCells cells.length dist count) := by
  induction count with
  | zero => simpa [SideTable.recordMatchPrefix, prefixCells] using h
  | succ count ih =>
    have hprev := ih (by omega) (by omega)
    have hwindow : U16_WINDOW = 2 ^ 15 := rfl
    have hfields := marker_fields (show dist - cells.length - count - 1 < U16_WINDOW by omega)
    have hlen : (cells ++ prefixCells cells.length dist count).length = cells.length + count := by
      simp [prefixCells]
    have hsnoc := marks_snoc (cells ++ prefixCells cells.length dist count)
      (MARKER16 ||| (dist - cells.length - count - 1))
    rw [if_pos hfields.2.1, hfields.2.2, hlen, ← hprev.markers_eq] at hsnoc
    rw [SideTable.recordMatchPrefix, List.range_succ, List.foldl_append, List.foldl_cons,
      List.foldl_nil, ← SideTable.recordMatchPrefix, prefixCells, List.range_succ, List.map_append,
      List.map_singleton, ← prefixCells, ← List.append_assoc, recordPrefixByte, hprev.offset,
      Nat.zero_add, Nat.mod_eq_of_lt (show dist - cells.length - count - 1 < 2 ^ 16 by omega)]
    refine ⟨rfl, hsnoc.symm, ?_, ?_, fun m hm => ?_⟩
    · simp only [lastPos, List.getLast?_append, List.getLast?_singleton]
      rfl
    · have := hprev.live_le
      simp only [List.length_append]
      omega
    · rw [List.take_append_of_le_length hprev.live_le] at hm
      have := hprev.retired m hm
      rw [List.length_append]
      omega

/-- A copy pushes the markers of its cells. -/
theorem Marked.propagateMatchCached (h : Marked ctx cells) (hd : 0 < d) (hle : d ≤ cells.length)
    (hmax : d ≤ MAX_DISTANCE) (hsize : cells.length + n ≤ 2 ^ 32) :
    Marked (propagateMatchCached ctx cells.length d n) (copyBack cells d n) := by
  have hlen := copyBack_length (n := n) hd hle
  have hsame (hnone : ∀ m ∈ marks 0 cells, m.outPos < cells.length - d) :
      Marked ctx (copyBack cells d n) := by
    have hmarks := marks_copyBack (n := n) hd hle (unmarked_of_lastPos (by omega) hnone)
    refine ⟨h.offset, by rw [hmarks, h.markers_eq], h.max_eq, h.live_le, fun m hm => ?_⟩
    have := h.retired m hm
    omega
  have hmax_eq := h.max_eq
  rw [h.markers_eq] at hmax_eq
  unfold SideTable.propagateMatchCached
  cases hlast : ctx.maxMarkerPos with
  | none =>
    apply hsame
    rw [hlast, lastPos, eq_comm, Option.map_eq_none_iff, List.getLast?_eq_none_iff] at hmax_eq
    rw [hmax_eq]
    simp
  | some max =>
    rw [hlast] at hmax_eq
    simp only [h.offset, Nat.zero_add]
    rw [if_neg (by omega)]
    by_cases hbehind : max < cells.length - d
    · rw [if_pos hbehind]
      refine hsame fun m hm => ?_
      have := le_lastPos (by omega) hmax_eq.symm m hm
      omega
    · rw [if_neg hbehind]
      obtain ⟨hlive, hretired, -⟩ := skipBelow_spec ctx.markers (cells.length - MAX_DISTANCE)
        (show ctx.markers.length ≤ ctx.liveStart + ctx.markers.length by omega) h.live_le
      obtain ⟨hcursor, hbelow, -⟩ := skipBelow_spec ctx.markers (cells.length - d)
        (show ctx.markers.length ≤ _ + ctx.markers.length by omega) hlive
      generalize skipBelow ctx.markers (cells.length - MAX_DISTANCE) ctx.markers.length
        ctx.liveStart = liveStart at *
      generalize skipBelow ctx.markers (cells.length - d) ctx.markers.length liveStart = cursor at *
      have hold : ∀ m ∈ ctx.markers.take liveStart, m.outPos + MAX_DISTANCE < cells.length := by
        intro m hm
        rcases hretired m hm with hmem | hlow
        · exact h.retired m hmem
        · omega
      rw [h.markers_eq] at hcursor hbelow hold hlive ⊢
      obtain ⟨last, hloop, hlast'⟩ := propagateLoop_spec n hd hle hsize
        (show cells.length - d + 0 + d = cells.length by omega)
        (show cells.length + 0 = cells.length from rfl) hcursor (fun m hm => by
          rcases hbelow m hm with hmem | hlow
          · have := hold m hmem
            omega
          · omega) hmax_eq.symm
      rw [hloop]
      obtain ⟨more, hmore⟩ := copyBack_extends cells d n
      have hmarks : marks 0 cells <+: marks 0 (copyBack cells d n) := by
        rw [← hmore, marks_append]
        exact List.prefix_append _ _
      refine ⟨rfl, rfl, hlast'.symm, Nat.le_trans hlive hmarks.length_le, fun m hm => ?_⟩
      simp only at hm
      obtain ⟨added, hadded⟩ := hmarks
      rw [← hadded, List.take_append_of_le_length hlive] at hm
      have := hold m hm
      omega

end Table

/-! ## Copies -/

section Copies

variable {t : Output} {out cells : List ℕ} {d n : ℕ}

/-- The bytes and the table are those of an output behind the unknown history. Beyond 4 GiB
the positions of the table are not followed. -/
def Tracks (t : Output) (out : List ℕ) : Prop :=
  ∃ cells, out = markerPrefix ++ cells ∧ t.bytes = cells.map narrow ∧
    (cells.length ≤ 2 ^ 32 → Marked t.ctx cells)

/-- An empty table tracks the window of markers. -/
theorem tracks_nil : Tracks ⟨[], ⟨[], none, 0, 0⟩⟩ markerPrefix :=
  ⟨[], by rw [List.append_nil], rfl, fun _ => marked_nil⟩

/-- Appending bytes. -/
theorem Tracks.push (h : Tracks t out) (bytes : List UInt8) :
    Tracks (t.push bytes) (out ++ bytes.map UInt8.toNat) := by
  obtain ⟨cells, rfl, hbytes, hmarked⟩ := h
  refine ⟨cells ++ bytes.map UInt8.toNat, by rw [List.append_assoc], ?_, fun hsize => ?_⟩
  · have hchunk := congrArg SpeculativeChunk.bytes (chunkOf_append_bytes cells bytes)
    rw [Output.push, hbytes]
    exact hchunk.symm
  · rw [List.length_append] at hsize
    exact (hmarked (by omega)).append_bytes bytes

/-- A copy can be made in two parts. -/
theorem copyBack_add (out : List ℕ) (d a b : ℕ) :
    copyBack out d (a + b) = copyBack (copyBack out d a) d b := by
  induction a generalizing out with
  | zero => rw [Nat.zero_add, copyBack]
  | succ a ih => rw [show a + 1 + b = a + b + 1 by omega, copyBack, copyBack, ih]

/-- The part of a copy that lies before the chunk are the cells of the overshoot. -/
theorem copyBack_markerPrefix (hd : 0 < d) (hmax : d ≤ U16_WINDOW) (hn : cells.length + n ≤ d) :
    copyBack (markerPrefix ++ cells) d n =
      markerPrefix ++ (cells ++ prefixCells cells.length d n) := by
  induction n with
  | zero => simp [copyBack, prefixCells]
  | succ n ih =>
    have hlen : (markerPrefix ++ (cells ++ prefixCells cells.length d n)).length =
        U16_WINDOW + (cells.length + n) := by
      rw [List.length_append, markerPrefix_length, List.length_append, prefixCells,
        List.length_map, List.length_range]
    have hsource : (markerPrefix ++ (cells ++ prefixCells cells.length d n))[U16_WINDOW +
        (cells.length + n) - d]? = some (MARKER16 ||| (d - cells.length - n - 1)) := by
      rw [List.getElem?_append_left (by rw [markerPrefix_length]; omega),
        getElem?_markerPrefix (by omega),
        show U16_WINDOW - 1 - (U16_WINDOW + (cells.length + n) - d) = d - cells.length - n - 1 by
          omega]
    rw [copyBack_add, ih (by omega), copyBack, copyBack, hlen, hsource, Option.toList_some]
    simp only [prefixCells, List.range_succ, List.map_append, List.map_singleton,
      List.append_assoc]

/-- The bytes of an overshoot are placeholders. -/
theorem map_narrow_prefixCells (hmax : d ≤ U16_WINDOW) (written : ℕ) :
    (prefixCells written d n).map narrow = List.replicate n 0 := by
  rw [prefixCells, List.map_map, List.eq_replicate_iff]
  refine ⟨by simp, fun b hb => ?_⟩
  obtain ⟨k, -, rfl⟩ := List.mem_map.mp hb
  by_cases hoff : d - written - k - 1 < U16_WINDOW
  · exact if_pos (marker_fields hoff).2.1
  · have hwindow : U16_WINDOW = 2 ^ 15 := rfl
    omega

/-- A copy within the chunk. -/
theorem Tracks.copy {bytes : List UInt8} {ctx : SpeculativeContext}
    (hbytes : bytes = cells.map narrow) (hmarked : cells.length ≤ 2 ^ 32 → Marked ctx cells)
    (hd : 0 < d) (hle : d ≤ cells.length) (hmax : d ≤ U16_WINDOW) :
    Tracks ⟨copyBackRaw bytes d n, propagateMatchCached ctx cells.length d n⟩
      (copyBack (markerPrefix ++ cells) d n) := by
  have hwindow : MAX_DISTANCE = U16_WINDOW := rfl
  refine ⟨copyBack cells d n, copyBack_append_left _ hd hle, ?_, fun hsize => ?_⟩
  · rw [hbytes, map_copyBack]
    exact copyBackRaw_eq hd (by simpa using hle)
  · rw [copyBack_length hd hle] at hsize
    exact (hmarked (by omega)).propagateMatchCached hd hle (by omega) hsize

/-- Every copy is the copy behind the unknown history. -/
theorem resolves_resolve : Resolves Tracks Tracks (resolve 0) := by
  rintro t _ d n ⟨cells, rfl, hbytes, hmarked⟩ ⟨hn, -, hd, hmax⟩
  have hwindow : MAX_DISTANCE = U16_WINDOW := rfl
  have hemitted : t.bytes.length - 0 = cells.length := by
    rw [hbytes, List.length_map, Nat.sub_zero]
  refine Or.inl ⟨by rw [List.length_append, markerPrefix_length]; omega, ?_⟩
  unfold resolve
  simp only [hemitted]
  by_cases hover : cells.length < d
  · rw [if_pos hover]
    obtain ⟨a, ha⟩ : ∃ a, min (d - cells.length) n = a := ⟨_, rfl⟩
    simp only [ha]
    have hcells := copyBack_markerPrefix hd (by omega) (show cells.length + a ≤ d by omega)
    have hplaced : t.bytes ++ List.replicate a 0 =
        (cells ++ prefixCells cells.length d a).map narrow := by
      rw [hbytes, List.map_append, map_narrow_prefixCells (by omega)]
    have hlen : (cells ++ prefixCells cells.length d a).length = cells.length + a := by
      simp [prefixCells]
    have hrecorded (hsize : (cells ++ prefixCells cells.length d a).length ≤ 2 ^ 32) :
        Marked (recordMatchPrefix t.ctx cells.length d a)
          (cells ++ prefixCells cells.length d a) := by
      rw [hlen] at hsize
      exact (hmarked (by omega)).recordMatchPrefix (by omega) (by omega) hsize
    by_cases hrest : 0 < n - a
    · rw [if_pos hrest]
      have hsplit : copyBack (markerPrefix ++ cells) d n =
          copyBack (markerPrefix ++ (cells ++ prefixCells cells.length d a)) d (n - a) := by
        rw [← hcells, ← copyBack_add, Nat.add_sub_cancel' (by omega)]
      rw [hsplit, ← hlen]
      exact ⟨_, rfl, Tracks.copy hplaced hrecorded hd (by omega) (by omega)⟩
    · rw [if_neg hrest, show n = a by omega, hcells]
      exact ⟨_, rfl, _, rfl, hplaced, hrecorded⟩
  · rw [if_neg hover, if_neg (by omega)]
    exact ⟨_, rfl, Tracks.copy hbytes hmarked hd (by omega) (by omega)⟩

end Copies

/-! ## The symbol loop -/

section Loop

variable {input : List UInt8} {lit dist : HuffmanDecoder} {lits dists : List ℕ} {br : BitReader}
  {bs : List Bool} {t : Output} {out : List ℕ}

/-- A round of the loop follows the tokens, two literals at a time if it can. -/
theorem follows_round (hlen : lits.length ≤ 288) (hlit : lit.Implements lits .litLen)
    (hdist : dist.Implements dists .dist) (htracks : Tracks t out) (hat : br.At input bs) :
    RoundFollows 48 48 lits dists UInt8.toNat (Stands Tracks input) (Stands Tracks input)
      (fun _ bs => bs.length) bs.length bs out (round 0 lit dist (t, br)) := by
  unfold round
  rcases hat.refillKernel with ⟨hroom, br₁, hrefill, hat₁, hbits₁⟩ | ⟨hroom, hrefill⟩
  swap
  · rw [hrefill]
    refine ⟨by simp, fun rest res hdec => ?_⟩
    have := hdec.room_le
    omega
  simp only [hrefill]
  rcases hlit.lookupFilled_cases (hat₁.holds hbits₁) (by decide) with
    ⟨s, rest, br₂, hdec, hs, hle, hlook, hat₂, hbits₂⟩ | ⟨hdec, hlook⟩
  swap
  · rw [hlook]
    refine ⟨by simp, fun _ _ => not_decodes_of_readToken ?_⟩
    rw [readToken, hdec]
    rfl
  rw [hlook]
  simp only
  have hentry := litLen_entry (show s < 2 ^ 15 by omega) hle
  have htoken := readToken_eq dists hdec
  by_cases hliteral : encodeEntry s (lits.getD s 0) .litLen &&& HUFFDEC_LITERAL ≠ 0
  · rw [if_pos hliteral]
    have hfirst := readToken_literal dists (by omega) hle hdec hliteral
    have hshort := readToken_length hfirst
    by_cases hsecond : lit.lut (br₂.peekBitsUnchecked LUT_BITS) &&& 0xff ≠ 0 ∧
        lit.lut (br₂.peekBitsUnchecked LUT_BITS) &&& HUFFDEC_LITERAL ≠ 0
    · rw [if_pos hsecond]
      obtain ⟨rest', htoken', hat₃, -⟩ := FastInflate.peek_literal dists hlen hlit
        (hat₂.holds (n := LUT_BITS) (by have : LUT_BITS = 10 := rfl; omega)) le_rfl
        hsecond.1 hsecond.2
      have hshort' := readToken_length htoken'
      exact ⟨_, rest', _, Steps.cons hfirst (Steps.single htoken'), expand_lits _ _ [_, _],
        ⟨htracks.push _, hat₃⟩, by simp only; omega⟩
    · rw [if_neg hsecond]
      exact ⟨_, rest, _, Steps.single hfirst, expand_lits _ _ [_], ⟨htracks.push _, hat₂⟩, hshort⟩
  rw [if_neg hliteral]
  cases hsym : litLen s with
  | literal b =>
    rw [hsym] at hentry
    exact absurd hentry.1 hliteral
  | endOfBlock =>
    rw [hsym] at hentry htoken
    rw [if_pos hentry.2.1, if_pos hentry.2.2]
    exact ⟨rest, out, ⟨[], .stop htoken hroom, rfl⟩, htracks, hat₂⟩
  | reserved =>
    rw [hsym] at hentry htoken
    rw [if_pos hentry.2.1, if_neg hentry.2.2]
    exact ⟨by simp, fun _ _ => not_decodes_of_readToken htoken⟩
  | length base extra =>
    rw [hsym] at hentry
    obtain ⟨-, hexc, hbase, hextra⟩ := hentry
    obtain ⟨-, -, hextra5, -⟩ := litLen_length_bounds hsym
    obtain ⟨v, br₃, hread, htake, hat₃, hbits₃⟩ := hat₂.takeExtra base extra (by omega)
    rw [if_neg (not_not.mpr hexc)]
    simp only [lengthOf, hbase, hextra, htake]
    rcases copyMatch_cases (f := UInt8.toNat) resolves_resolve hdist hdec hsym hread hat₃
      (by omega) htracks with
      ⟨t', br₄, tok, mid, out', hcopy, htoken', hexpand, htracks', hat₄⟩ | ⟨e, herr, he, hnone⟩
    · simp only [hcopy]
      have hshort := readToken_length htoken'
      exact ⟨[tok], mid, out', Steps.single htoken', by rw [expand_cons, hexpand]; rfl,
        ⟨htracks', hat₄⟩, hshort⟩
    · simp only [herr]
      exact ⟨he, hnone 48⟩

/-- The loop decodes the block bodies that leave it 48 bits. -/
theorem loopFollows_decodeCompressed (hlen : lits.length ≤ 288)
    (hlit : lit.Implements lits .litLen) (hdist : dist.Implements dists .dist)
    (htracks : Tracks t out) (hat : br.At input bs) :
    LoopFollows 48 48 lits dists UInt8.toNat (Stands Tracks input) bs out
      (decodeCompressed 0 lit dist t br) := by
  have hle := hat.length_le
  refine loopFollows_iterate (Stands Tracks input) (fun _ bs => bs.length) ?_ ⟨htracks, hat⟩ ?_
  · rintro ⟨t, br⟩ bs out ⟨htracks, hat⟩
    exact follows_round hlen hlit hdist htracks hat
  · rw [hat.input_eq]
    omega

/-! ## Blocks -/

/-- What a decoded block stands for. -/
def DoneBlock (input : List UInt8) (r : (Bool × Output) × BitReader) (f : Bool)
    (rest : List Bool) (res : List ℕ) : Prop :=
  r.1.1 = f ∧ Tracks r.1.2 res ∧ r.2.At input rest

/-- A stored block appends the reference's data. -/
theorem agrees_decodeStored_map (htracks : Tracks t out) (hat : br.At input bs) :
    Agrees 0 input (fun t' data => Tracks t' (out ++ data.map UInt8.toNat))
      ((decodeStored br t.bytes).map fun r => ({ t with bytes := r.1 }, r.2)) (readStored bs) := by
  have h := agrees_decodeStored t.bytes hat
  cases hstored : decodeStored br t.bytes with
  | error e =>
    rw [hstored] at h
    refine ⟨nofun, fun data rest href hroom => ?_, fun he => ?_⟩
    · obtain ⟨_, _, hok⟩ := h.complete data rest href hroom
      cases hok
    · cases he
      exact h.fuel rfl
  | ok r =>
    obtain ⟨bytes, br'⟩ := r
    obtain ⟨data, rest, href, rfl, hat'⟩ := h.sound bytes br' hstored
    refine ⟨?_, fun _ _ _ _ => ⟨_, _, rfl⟩, by simp [Except.map]⟩
    rintro _ _ ⟨⟩
    exact ⟨data, rest, href, htracks.push data, hat'⟩

/-- The side table decodes the reference's blocks. -/
theorem blockFollows_decodeOneBlock (htracks : Tracks t out) (hat : br.At input bs) :
    BlockFollows 48 48 UInt8.toNat (DoneBlock input) bs out (decodeOneBlock 0 t br) := by
  refine blockFollows_of_contents BitReader.read
    (fun btype br => decodeBlock btype 0 t br) (fun bfinal r => ((bfinal != 0, r.1), r.2))
    (fun n _ _ _ hn hat => hat.agrees_read (by omega)) (fun btype br bs hat => ?_)
    (fun bfinal r rest res (hdone : Stands Tracks input r rest res) =>
      ⟨rfl, hdone.1, hdone.2⟩) hat
  unfold decodeBlock
  by_cases hstored : btype = 0
  · rw [if_pos hstored]
    subst btype
    exact contentsFollows_stored (agrees_decodeStored_map htracks hat)
  · rw [if_neg hstored]
    apply contentsFollows_compressed hstored (agrees_blockTrees btype hat) (by decide)
    rintro ⟨lit, dist⟩ lits dists br rest ⟨hlit, hdist⟩ hat hlen
    exact loopFollows_decodeCompressed hlen hlit hdist htracks hat

/-- What the loop over the blocks returns. -/
def BlocksFollow (input : List UInt8) (stop : List Bool → Bool) (bs : List Bool) (out : List ℕ) :
    Except DeflateError ((Bool × Output) × BitReader) → Prop
  | .error e => e ≠ .outOfFuel ∧ ∀ f rest res, ¬BlocksDecode 48 stop UInt8.toNat bs out f rest res
  | .ok ((f, t), br) => ∃ rest res, BlocksDecode 48 stop UInt8.toNat bs out f rest res ∧
      Tracks t res ∧ br.At input rest

/-- The loop over the blocks follows the reference. -/
theorem blocksFollow_iterate (endBitHint : ℕ) {fuel : ℕ} (htracks : Tracks t out)
    (hat : br.At input bs) (hfuel : bs.length < fuel) :
    BlocksFollow input (stopAt input endBitHint) bs out
      (Loop.iterate .outOfFuel (untilRound 0 endBitHint) fuel (t, br)) := by
  induction fuel generalizing t out br bs with
  | zero => omega
  | succ fuel ih =>
    have hblock := blockFollows_decodeOneBlock htracks hat
    cases hres : decodeOneBlock 0 t br with
    | error e =>
      have hround : untilRound 0 endBitHint (t, br) = .error e := by simp only [untilRound, hres]
      rw [hres] at hblock
      rw [Loop.iterate_fail hround]
      refine ⟨hblock.1, fun f rest res hdec => ?_⟩
      obtain ⟨f₁, mid, out', hfirst, -⟩ := hdec.cases
      exact hblock.2 f₁ mid out' hfirst
    | ok r =>
      obtain ⟨⟨f, t₁⟩, br₁⟩ := r
      rw [hres] at hblock
      obtain ⟨_, mid, out', ⟨ts, hblk, hts⟩, rfl, htracks₁, hat₁⟩ := hblock
      simp only at hblk htracks₁ hat₁
      have hstop := stopAt_eq endBitHint hat₁
      cases f with
      | true =>
        have hround : untilRound 0 endBitHint (t, br) = .ok (.inr ((true, t₁), br₁)) := by
          simp only [untilRound, hres, if_true]
        rw [Loop.iterate_break hround]
        exact ⟨mid, out', ⟨ts, .final hblk, hts⟩, htracks₁, hat₁⟩
      | false =>
        by_cases hhint : endBitHint ≤ br₁.tellBit
        · have hround : untilRound 0 endBitHint (t, br) = .ok (.inr ((false, t₁), br₁)) := by
            simp [untilRound, hres, hhint]
          rw [Loop.iterate_break hround]
          exact ⟨mid, out', ⟨ts, .stop hblk (by rw [← hstop]; exact decide_eq_true hhint), hts⟩,
            htracks₁, hat₁⟩
        · have hround : untilRound 0 endBitHint (t, br) = .ok (.inl (t₁, br₁)) := by
            simp [untilRound, hres, hhint]
          rw [decide_eq_false hhint] at hstop
          have hlt := hblk.length_lt
          have hrest := ih htracks₁ hat₁ (by omega)
          rw [Loop.iterate_continue hround]
          revert hrest
          cases Loop.iterate .outOfFuel (untilRound 0 endBitHint) fuel (t₁, br₁) with
          | error e =>
            rintro ⟨he, hnone⟩
            exact ⟨he, fun f rest res hdec =>
              hnone f rest res (BlockDecodes.tail ⟨ts, hblk, hts⟩ hstop.symm hdec)⟩
          | ok r =>
            rintro ⟨rest, res, hdec, hdone⟩
            exact ⟨rest, res, BlockDecodes.more ⟨ts, hblk, hts⟩ hstop.symm hdec, hdone⟩

end Loop

/-- A fresh chunk takes over the table. -/
theorem bytesOffsetMarkers_marked {bytes : List UInt8} {ctx : SpeculativeContext}
    {cells : List ℕ} (hsize : cells.length ≤ 2 ^ 32) (hbytes : bytes = cells.map narrow)
    (hmarked : Marked ctx cells) :
    SpeculativeChunk.bytesOffsetMarkers ⟨bytes, []⟩ ctx.markers 0 = chunkOf cells := by
  have hkept : ctx.markers.map (fun m => (⟨(m.outPos + 0) % 2 ^ 32, m.prefixOffset⟩ : Marker)) =
      ctx.markers := by
    refine (List.map_congr_left fun m hm => ?_).trans (List.map_id _)
    rw [hmarked.markers_eq] at hm
    obtain ⟨i, c, hget, -, rfl⟩ :=
      (mem_marks_iff (show 0 + cells.length ≤ 2 ^ 32 by omega)).mp hm
    obtain ⟨hlt, -⟩ := List.getElem?_eq_some_iff.mp hget
    simp only [id, Nat.add_zero, Nat.mod_eq_of_lt (show 0 + i < 2 ^ 32 by omega)]
  rw [SpeculativeChunk.bytesOffsetMarkers, hkept, chunkOf, hbytes, hmarked.markers_eq,
    List.nil_append]

/-- What decoding with the side table returns. -/
def UntilSpec (input : List UInt8) (startBit endBitHint : ℕ) :
    Except DeflateError ((ℕ × Bool) × SpeculativeChunk) → Prop
  | .error e => e ≠ .outOfFuel ∧ ∀ f ts rest, startBit ≤ 8 * input.length →
      ¬Blocks 48 (stopAt input endBitHint) ((bits input).drop startBit) f ts rest
  | .ok ((e, f), chunk) => startBit ≤ 8 * input.length ∧ ∃ ts rest cells,
      Blocks 48 (stopAt input endBitHint) ((bits input).drop startBit) f ts rest ∧
      e + rest.length = 8 * input.length ∧
      expand UInt8.toNat markerPrefix ts = some (markerPrefix ++ cells) ∧
      chunk.bytes.length = cells.length ∧ (cells.length ≤ 2 ^ 32 → chunk = chunkOf cells)

/-- Decoding with the side table decodes the blocks behind the unknown history. -/
theorem untilSpec_decodeUntil (input : List UInt8) (startBit endBitHint : ℕ) :
    UntilSpec input startBit endBitHint (decodeUntil input startBit endBitHint ⟨[], []⟩) := by
  unfold decodeUntil
  rcases BitReader.seekToBit_at input startBit with ⟨hle, br, hseek, hat⟩ | ⟨hlt, hseek⟩
  swap
  · rw [hseek]
    exact ⟨by simp, fun _ _ _ hle => by omega⟩
  rw [hseek]
  simp only [bind, Except.bind, List.length_nil]
  have hfuel := hat.length_le
  have hblocks := blocksFollow_iterate endBitHint tracks_nil hat
    (show ((bits input).drop startBit).length < 8 * br.input.length + 1 by rw [hat.input_eq]; omega)
  revert hblocks
  cases Loop.iterate .outOfFuel (untilRound 0 endBitHint) (8 * br.input.length + 1)
    (⟨[], ⟨[], none, 0, 0⟩⟩, br) with
  | error e =>
    rintro ⟨he, hnone⟩
    refine ⟨he, fun f ts rest _ hblocks => ?_⟩
    obtain ⟨res, hdec⟩ := Speculative.blocksDecode_of_blocks hblocks markerPrefix_length.ge
    exact hnone f rest res hdec
  | ok r =>
    obtain ⟨⟨f, t⟩, br₁⟩ := r
    rintro ⟨rest, _, ⟨ts, hblocks, hexpand⟩, ⟨cells, rfl, hbytes, hmarked⟩, hat₁⟩
    refine ⟨hle, ts, rest, cells, hblocks, hat₁.tellBit, hexpand, ?_, fun hsize => ?_⟩
    · simp only [SpeculativeChunk.bytesOffsetMarkers, hbytes, List.length_map]
    · exact bytesOffsetMarkers_marked hsize hbytes (hmarked hsize)

/-- Over an unbounded output the window of cells and the side table return the same chunks,
wherever the output is shorter than 4 GiB and 64 bits follow the end. -/
theorem unbounded_iff_decodeUntil (input : List UInt8) (startBit endBitHint : ℕ)
    (scratch : List ℕ) (e : ℕ) (f : Bool) (chunk : SpeculativeChunk)
    (hsize : chunk.bytes.length < 2 ^ 32) (hroom : e + 64 ≤ 8 * input.length) :
    Unbounded.decodeUntilU16 input startBit endBitHint ⟨[], []⟩ scratch = .ok ((e, f), chunk) ↔
      decodeUntil input startBit endBitHint ⟨[], []⟩ = .ok ((e, f), chunk) := by
  have hwindow := Speculative.untilSpec_decodeUntilU16 input startBit endBitHint scratch
  have htable := untilSpec_decodeUntil input startBit endBitHint
  constructor
  · intro hrun
    rw [hrun] at hwindow
    obtain ⟨hle, ts, rest, cells, hblocks, he, hcells, rfl⟩ := hwindow
    have hblocks48 := hblocks.of_rest (show 48 ≤ rest.length by omega)
    cases hother : decodeUntil input startBit endBitHint ⟨[], []⟩ with
    | error err =>
      rw [hother] at htable
      exact absurd hblocks48 (htable.2 f ts rest hle)
    | ok r =>
      obtain ⟨⟨e', f'⟩, chunk'⟩ := r
      rw [hother] at htable
      obtain ⟨-, us, rest', cells', hblocks', he', hcells', -, hchunk⟩ := htable
      obtain ⟨rfl, rfl, rfl⟩ := hblocks48.unique hblocks'
      rw [hcells, Option.some.injEq, List.append_cancel_left_eq] at hcells'
      subst hcells'
      rw [chunkOf, List.length_map] at hsize
      rw [hchunk (by omega), show e' = e by omega]
  · intro hrun
    rw [hrun] at htable
    obtain ⟨hle, ts, rest, cells, hblocks, he, hcells, hlen, hchunk⟩ := htable
    cases hother : Unbounded.decodeUntilU16 input startBit endBitHint ⟨[], []⟩ scratch with
    | error err =>
      rw [hother] at hwindow
      exact absurd hblocks (hwindow.2 f ts rest hle)
    | ok r =>
      obtain ⟨⟨e', f'⟩, chunk'⟩ := r
      rw [hother] at hwindow
      obtain ⟨-, us, rest', cells', hblocks', he', hcells', rfl⟩ := hwindow
      obtain ⟨rfl, rfl, rfl⟩ := hblocks.unique hblocks'
      rw [hcells, Option.some.injEq, List.append_cancel_left_eq] at hcells'
      subst hcells'
      rw [hchunk (by omega), show e' = e by omega]

/-- The blocks from the bit position are valid, 64 bits follow them, and behind the unknown
history they expand to less than 4 GiB. -/
def ValidUnknown (input : List UInt8) (startBit endBitHint : ℕ) : Prop :=
  startBit ≤ 8 * input.length ∧ ∃ f ts rest cells,
    Blocks 48 (stopAt input endBitHint) ((bits input).drop startBit) f ts rest ∧
      64 ≤ rest.length ∧ expand UInt8.toNat markerPrefix ts = some (markerPrefix ++ cells) ∧
      cells.length < 2 ^ 32

/-- What the side table returns for such blocks. -/
theorem decodeUntil_of_blocks {input : List UInt8} {startBit endBitHint : ℕ} {f : Bool}
    {ts : List Token} {rest : List Bool} {cells : List ℕ} (hle : startBit ≤ 8 * input.length)
    (hblocks : Blocks 48 (stopAt input endBitHint) ((bits input).drop startBit) f ts rest)
    (hcells : expand UInt8.toNat markerPrefix ts = some (markerPrefix ++ cells))
    (hsize : cells.length < 2 ^ 32) :
    decodeUntil input startBit endBitHint ⟨[], []⟩ =
      .ok ((8 * input.length - rest.length, f), chunkOf cells) := by
  have htable := untilSpec_decodeUntil input startBit endBitHint
  cases hrun : decodeUntil input startBit endBitHint ⟨[], []⟩ with
  | error err =>
    rw [hrun] at htable
    exact absurd hblocks (htable.2 f ts rest hle)
  | ok r =>
    obtain ⟨⟨e, f'⟩, chunk⟩ := r
    rw [hrun] at htable
    obtain ⟨-, us, rest', cells', hblocks', he, hcells', -, hchunk⟩ := htable
    obtain ⟨rfl, rfl, rfl⟩ := hblocks.unique hblocks'
    rw [hcells, Option.some.injEq, List.append_cancel_left_eq] at hcells'
    subst hcells'
    rw [hchunk (by omega), show e = 8 * input.length - rest.length by omega]

/-- A stream is valid behind an unknown window exactly where the decoder accepts it, makes less than
4 GiB, and leaves eight bytes of input. -/
theorem validUnknown_iff (input : List UInt8) (startBit endBitHint : ℕ) :
    ValidUnknown input startBit endBitHint ↔
      ∃ e f chunk, decodeUntil input startBit endBitHint ⟨[], []⟩ = .ok ((e, f), chunk) ∧
        chunk.bytes.length < 2 ^ 32 ∧ e + 64 ≤ 8 * input.length := by
  constructor
  · rintro ⟨hle, f, ts, rest, cells, hblocks, hrest, hcells, hsize⟩
    have hlen := hblocks.length_lt
    rw [List.length_drop, bits_length] at hlen
    exact ⟨_, f, _, decodeUntil_of_blocks hle hblocks hcells hsize,
      by rwa [chunkOf, List.length_map], by omega⟩
  · rintro ⟨e, f, chunk, hrun, hsize, hroom⟩
    have htable := untilSpec_decodeUntil input startBit endBitHint
    rw [hrun] at htable
    obtain ⟨hle, ts, rest, cells, hblocks, he, hcells, hlen, -⟩ := htable
    exact ⟨hle, f, ts, rest, cells, hblocks, by omega, hcells, by omega⟩

/-- The decoder with the window of cells runs off its vector exactly where a block of the preload
kernel does not fit. It returns the chunks that the side table returns, of less than 4 GiB and
64 bits before the end, exactly where the blocks fit if the side table returns one. -/
theorem decodeUntilU16_decodeUntil_iff (build : Build) (capacity : ℕ) (input : List UInt8)
    (startBit endBitHint : ℕ) (scratch : List ℕ) :
    (Speculative.decodeUntilU16 build capacity input startBit endBitHint (VecChunk.fresh 0)
        scratch = .error .fault ↔
      ¬Speculative.UntilFits build capacity input startBit endBitHint (VecChunk.fresh 0)
        scratch) ∧
    ((∀ e f chunk, chunk.bytes.length < 2 ^ 32 → e + 64 ≤ 8 * input.length →
        ((∃ vec, Speculative.decodeUntilU16 build capacity input startBit endBitHint
            (VecChunk.fresh 0) scratch = .ok ((e, f), vec) ∧ vec.unbounded = chunk) ↔
          decodeUntil input startBit endBitHint ⟨[], []⟩ = .ok ((e, f), chunk))) ↔
      (ValidUnknown input startBit endBitHint →
        Speculative.UntilFits build capacity input startBit endBitHint (VecChunk.fresh 0)
          scratch)) := by
  have hfault := @Speculative.decodeUntilU16_eq_fault_iff build capacity
    input startBit endBitHint (VecChunk.fresh 0) scratch
  refine ⟨hfault, ?_, ?_⟩
  · intro h hvalid
    obtain ⟨e, f, chunk, hrun, hsize, hroom⟩ := (validUnknown_iff _ _ _).mp hvalid
    obtain ⟨vec, hvec, -⟩ := (h e f chunk hsize hroom).mpr hrun
    by_contra hover
    rw [hfault.mpr hover] at hvec
    cases hvec
  · intro hfits e f chunk hsize hroom
    have hiff := unbounded_iff_decodeUntil input startBit endBitHint scratch e f chunk hsize hroom
    constructor
    · rintro ⟨vec, hvec, rfl⟩
      exact hiff.mp ((Speculative.tracks_decodeUntilU16 input startBit endBitHint
        (VecChunk.fresh 0) scratch).ok_eq hvec)
    · intro hrun
      exact Speculative.exists_of_untilFits
        (hfits ((validUnknown_iff _ _ _).mpr ⟨e, f, chunk, hrun, hsize, hroom⟩)) (hiff.mpr hrun)

/-- The side table returns 70149 bytes without markers. -/
theorem decodeUntil_handOffInput :
    decodeUntil Speculative.handOffInput 0 (2 ^ 40) ⟨[], []⟩ =
      .ok ((1384, true), ⟨List.replicate 70149 0, []⟩) := by
  obtain ⟨ts, hblocks, hexpand⟩ := Speculative.handOffInput_blocks
  have hmap := map_expand UInt8.toNat id [] ts
  rw [hexpand, Option.map_some, List.map_nil] at hmap
  have hcells := expand_append_left markerPrefix hmap.symm
  rw [List.append_nil] at hcells
  have h := decodeUntil_of_blocks (Nat.zero_le _) hblocks hcells
    (by rw [List.length_map, List.length_replicate]; decide)
  rwa [Speculative.handOffInput_length, List.length_replicate, chunkOf, marks_bytes, List.map_map,
    show narrow ∘ UInt8.toNat = id from funext narrow_toNat, List.map_id] at h

/-- The side table returns a chunk, and the window of cells runs off its vector. -/
theorem decodeUntilU16_overruns :
    decodeUntil Speculative.handOffInput 0 (2 ^ 40) ⟨[], []⟩ =
        .ok ((1384, true), ⟨List.replicate 70149 0, []⟩) ∧
      ∀ scratch, Speculative.decodeUntilU16 narrow16 70147 Speculative.handOffInput 0 (2 ^ 40)
        (VecChunk.fresh 0) scratch = .error .fault :=
  ⟨decodeUntil_handOffInput, fun scratch => (Speculative.decodeUntilU16_eq_fault_iff _ _ _ _ _).mpr
    (Speculative.handOffInput_cases scratch).2.1⟩

/-- The same blocks, with a vector that is too small and with one that is large enough. -/
theorem decodeUntilU16_decodeUntil_iff_handOffInput :
    ValidUnknown Speculative.handOffInput 0 (2 ^ 40) ∧
    Speculative.decodeUntilU16 narrow16 70147 Speculative.handOffInput 0 (2 ^ 40)
        (VecChunk.fresh 0) [] = .error .fault ∧
    ∃ vec, Speculative.decodeUntilU16 narrow16 71000 Speculative.handOffInput 0 (2 ^ 40)
        (VecChunk.fresh 0) [] = .ok ((1384, true), vec) ∧
      vec.unbounded = ⟨List.replicate 70149 0, []⟩ := by
  obtain ⟨-, hsmall, hlarge⟩ := Speculative.handOffInput_cases []
  obtain ⟨hfault, -⟩ := decodeUntilU16_decodeUntil_iff narrow16 70147 Speculative.handOffInput 0
    (2 ^ 40) []
  obtain ⟨-, hiff⟩ := decodeUntilU16_decodeUntil_iff narrow16 71000 Speculative.handOffInput 0
    (2 ^ 40) []
  have hsize : (List.replicate 70149 (0 : UInt8)).length < 2 ^ 32 := by
    rw [List.length_replicate]
    decide
  have hroom : 1384 + 64 ≤ 8 * Speculative.handOffInput.length := by
    rw [Speculative.handOffInput_length]
  exact ⟨(validUnknown_iff _ _ _).mpr ⟨1384, true, _, decodeUntil_handOffInput, hsize, hroom⟩,
    hfault.mpr hsmall, (hiff.mpr (fun _ => hlarge) 1384 true _ hsize hroom).mpr
      decodeUntil_handOffInput⟩

end SideTable

end RustyRapidgzip
