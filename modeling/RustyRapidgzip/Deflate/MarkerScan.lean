import RustyRapidgzip.Deflate.Speculative
import RustyRapidgzip.Lib.Mask

/-!
# The scan for markers, eight cells at a time

Where the processor can gather the high bits of eight cells in one mask, the scan for markers
walks over the set bits of the masks, and over single cells only behind the last eight. It records
what the plain scan from left to right records.
-/

namespace RustyRapidgzip

open LsbBits Mask

/-- Record one marker cell. -/
def recordMarker (base idx cell : ℕ) (chunk : SpeculativeChunk) : SpeculativeChunk :=
  { bytes := chunk.bytes.set (base + idx) 0
    markers := chunk.markers ++ [⟨(base + idx) % 2 ^ 32, cell &&& 0x7fff⟩] }

/-- The high bits of the bytes of eight cells. -/
def movemask (cells : List ℕ) : ℕ :=
  ofLsb (cells.flatMap fun cell => [cell.testBit 7, cell.testBit 15])

/-- `while m != 0`, record the cell of the lowest set bit and clear it. -/
def recordLanes (base : ℕ) (scratch : List ℕ) (i : ℕ) :
    ℕ → ℕ → SpeculativeChunk → SpeculativeChunk
  | 0, _, chunk => chunk
  | rounds + 1, m, chunk =>
    if m = 0 then chunk
    else
      let lane := trailingZeros 32 m >>> 1
      let idx := i + lane
      recordLanes base scratch i rounds (m &&& (m - 1))
        (recordMarker base idx (scratch.getD idx 0) chunk)

/-- `while i + 8 <= n`, record the markers among eight cells. The number is where the loop
ends. -/
def scanChunks (base : ℕ) (scratch : List ℕ) :
    ℕ → ℕ → SpeculativeChunk → ℕ × SpeculativeChunk
  | 0, i, chunk => (i, chunk)
  | rounds + 1, i, chunk =>
    if i + 8 ≤ scratch.length then
      let m := movemask ((scratch.drop i).take 8) &&& 0xaaaa
      scanChunks base scratch rounds (i + 8) (recordLanes base scratch i 32 m chunk)
    else (i, chunk)

/-- Append cells to a chunk, with the scan of eight cells at a time. -/
def SpeculativeChunk.extractFromU16Sse2 (chunk : SpeculativeChunk) (scratch : List ℕ) :
    SpeculativeChunk :=
  let base := chunk.bytes.length
  let (tailStart, chunk) := scanChunks base scratch scratch.length 0
    { chunk with bytes := chunk.bytes ++ scratch.map UInt8.ofNat }
  recordMarkers base (scratch.drop tailStart) tailStart chunk

section Scan

variable {base i : ℕ} {scratch : List ℕ} {chunk : SpeculativeChunk}

/-- The marker bit of a cell is its highest. -/
theorem testBit_marker (cell : ℕ) : cell.testBit 15 = true ↔ cell &&& MARKER16 ≠ 0 := by
  rw [and_marker16, Nat.testBit_eq_decide_div_mod_eq, decide_eq_true_iff]

/-- The plain scan, in two parts. -/
theorem recordMarkers_append (base : ℕ) (cells more : List ℕ) (idx : ℕ)
    (chunk : SpeculativeChunk) :
    recordMarkers base (cells ++ more) idx chunk =
      recordMarkers base more (idx + cells.length) (recordMarkers base cells idx chunk) := by
  induction cells generalizing idx chunk with
  | nil => rfl
  | cons cell cells ih =>
    rw [List.cons_append, recordMarkers, recordMarkers, List.length_cons, ih, ih,
      show idx + (cells.length + 1) = idx + 1 + cells.length by omega]
    split <;> rfl

/-- The plain scan of cells of the window records the marked ones in turn. -/
theorem recordMarkers_eq_foldl (base : ℕ) (before cells after : List ℕ)
    (chunk : SpeculativeChunk) :
    recordMarkers base cells before.length chunk =
      (cells.findIdxs (fun cell => cell.testBit 15) before.length).foldl
        (fun chunk idx =>
          recordMarker base idx ((before ++ cells ++ after).getD idx 0) chunk) chunk := by
  induction cells generalizing before chunk with
  | nil => rfl
  | cons cell cells ih =>
    have hrest := fun chunk => ih (before ++ [cell]) chunk
    simp only [List.length_append, List.length_singleton, List.append_assoc,
      List.cons_append, List.nil_append] at hrest
    have hcell : (before ++ cell :: (cells ++ after)).getD before.length 0 = cell := by simp
    rw [recordMarkers, List.findIdxs_cons, List.append_assoc, List.cons_append, hrest, hrest]
    by_cases hmarker : cell &&& MARKER16 ≠ 0
    · rw [if_pos hmarker, if_pos ((testBit_marker cell).mpr hmarker), List.foldl_cons, hcell]
      rfl
    · rw [if_neg hmarker, if_neg (mt (testBit_marker cell).mp hmarker)]

/-- The loop over a mask records the cells of its set bits in turn. -/
theorem recordLanes_eq_foldl (rounds m : ℕ) (chunk : SpeculativeChunk) :
    recordLanes base scratch i rounds m chunk =
      (setBits 32 rounds m).foldl
        (fun chunk p =>
          recordMarker base (i + p >>> 1) (scratch.getD (i + p >>> 1) 0) chunk) chunk := by
  induction rounds generalizing m chunk with
  | zero => rfl
  | succ rounds ih =>
    rw [recordLanes, setBits]
    by_cases hm : m = 0
    · rw [if_pos hm, if_pos hm]
      rfl
    · rw [if_neg hm, if_neg hm, List.foldl_cons]
      exact ih _ _

/-- The mask keeps the high bits of eight cells. -/
theorem movemask_and {cells : List ℕ} (hlen : cells.length = 8) :
    movemask cells &&& 0xaaaa =
      ofLsb (cells.flatMap fun cell => [false, cell.testBit 15]) := by
  have hodd : (0xaaaa : ℕ) = ofLsb ((List.replicate 8 [false, true]).flatten) := by decide
  obtain ⟨c₀, c₁, c₂, c₃, c₄, c₅, c₆, c₇, rfl⟩ :
      ∃ c₀ c₁ c₂ c₃ c₄ c₅ c₆ c₇, cells = [c₀, c₁, c₂, c₃, c₄, c₅, c₆, c₇] := by
    match cells, hlen with
    | [c₀, c₁, c₂, c₃, c₄, c₅, c₆, c₇], _ => exact ⟨c₀, c₁, c₂, c₃, c₄, c₅, c₆, c₇, rfl⟩
  rw [movemask, hodd, ← ofLsb_zipWith_and]
  simp

/-- Eight cells are recorded as the plain scan records them. -/
theorem recordLanes_eq (chunk : SpeculativeChunk) (hroom : i + 8 ≤ scratch.length) :
    recordLanes base scratch i 32 (movemask ((scratch.drop i).take 8) &&& 0xaaaa) chunk =
      recordMarkers base ((scratch.drop i).take 8) i chunk := by
  have hlen : ((scratch.drop i).take 8).length = 8 := by
    rw [List.length_take, List.length_drop]
    omega
  have hbefore : (scratch.take i).length = i := by
    rw [List.length_take]
    omega
  have hscratch : scratch.take i ++ (scratch.drop i).take 8 ++ (scratch.drop i).drop 8 =
      scratch := by
    rw [List.append_assoc, List.take_append_drop, List.take_append_drop]
  have hplain := recordMarkers_eq_foldl base (scratch.take i) ((scratch.drop i).take 8)
    ((scratch.drop i).drop 8) chunk
  rw [hscratch, hbefore] at hplain
  generalize (scratch.drop i).take 8 = cells at hlen hplain ⊢
  have hbits : (cells.flatMap fun cell => [false, cell.testBit 15]).length = 16 := by
    simp [hlen]
  have hvisited := findIdxs_odd (fun cell => cell.testBit 15) cells 0
  rw [Nat.mul_zero] at hvisited
  have hhalf (p : ℕ) : (2 * p + 1) >>> 1 = p := by
    rw [Nat.shiftRight_one]
    omega
  have hplaces : cells.findIdxs (fun cell => cell.testBit 15) i =
      (cells.findIdxs fun cell => cell.testBit 15).map (· + i) := List.findIdxs_start
  rw [recordLanes_eq_foldl, movemask_and hlen, setBits_ofLsb _ (by omega) (by omega), hvisited,
    hplain, hplaces, List.foldl_map, List.foldl_map]
  simp only [hhalf, Nat.add_comm i]

/-- The loop over eight cells at a time leaves the plain scan to be done, and less than eight
cells of it. -/
theorem scanChunks_spec (base : ℕ) (scratch : List ℕ) {rounds i : ℕ} (chunk : SpeculativeChunk)
    (hrounds : scratch.length < i + 8 * (rounds + 1)) :
    scratch.length < (scanChunks base scratch rounds i chunk).1 + 8 ∧
      recordMarkers base (scratch.drop (scanChunks base scratch rounds i chunk).1)
          (scanChunks base scratch rounds i chunk).1 (scanChunks base scratch rounds i chunk).2 =
        recordMarkers base (scratch.drop i) i chunk := by
  induction rounds generalizing i chunk with
  | zero =>
    rw [scanChunks]
    exact ⟨by omega, rfl⟩
  | succ rounds ih =>
    rw [scanChunks]
    by_cases hroom : i + 8 ≤ scratch.length
    · obtain ⟨hend, hrest⟩ := ih (recordMarkers base ((scratch.drop i).take 8) i chunk)
        (show scratch.length < i + 8 + 8 * (rounds + 1) by omega)
      have hlen : ((scratch.drop i).take 8).length = 8 := by
        rw [List.length_take, List.length_drop]
        omega
      have hsplit : recordMarkers base (scratch.drop i) i chunk =
          recordMarkers base (scratch.drop (i + 8)) (i + 8)
            (recordMarkers base ((scratch.drop i).take 8) i chunk) := by
        conv_lhs => rw [← List.take_append_drop 8 (scratch.drop i)]
        rw [recordMarkers_append, hlen, List.drop_drop]
      simp only [if_pos hroom, recordLanes_eq chunk hroom]
      exact ⟨hend, hrest.trans hsplit.symm⟩
    · rw [if_neg hroom]
      exact ⟨by omega, rfl⟩

end Scan

/-- Both scans record the same markers. -/
theorem SpeculativeChunk.extractFromU16Sse2_eq (chunk : SpeculativeChunk) (scratch : List ℕ) :
    chunk.extractFromU16Sse2 scratch = chunk.extractFromU16 scratch := by
  have hscan := scanChunks_spec chunk.bytes.length scratch
    { chunk with bytes := chunk.bytes ++ scratch.map UInt8.ofNat }
    (show scratch.length < 0 + 8 * (scratch.length + 1) by omega)
  exact hscan.2

end RustyRapidgzip
