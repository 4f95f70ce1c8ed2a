import RustyRapidgzip.Gzip.Concat
import RustyRapidgzip.Pipeline.Chunk

/-!
# The walk over the blocks of a BGZF file

The header of a BGZF block gives the length of the block. Dispatch follows these lengths from
block to block, and collects the ranges of the blocks into batches, small ones at first. The
walk ends at the first member that is no BGZF block, or at a block that the file cuts off.
-/

namespace RustyRapidgzip

open LsbBits Crc

namespace Gzip

/-- Look for the subfield with the block's length among the subfields from `p` on. Each
subfield has a byte, which bounds the rounds. -/
def bgzfSubfield (input : List UInt8) (fieldsEnd : ℕ) : ℕ → ℕ → Option ℕ
  | 0, _ => none
  | rounds + 1, p =>
    if p + 4 ≤ fieldsEnd then
      let si1 := input.getD p 0
      let si2 := input.getD (p + 1) 0
      let slen := leNat ((input.drop (p + 2)).take 2)
      if fieldsEnd < p + 4 + slen then none
      else if si1 = 0x42 ∧ si2 = 0x43 ∧ slen = 2 then
        some (leNat ((input.drop (p + 4)).take 2) + 1)
      else bgzfSubfield input fieldsEnd rounds (p + (4 + slen))
    else none

/-- The length of the BGZF block at the start of `input`, if there is one. -/
def parseBgzfBlockSize (input : List UInt8) : Option ℕ :=
  if input.length < 12 ∨ input.take 2 ≠ GZ_MAGIC ∨ input.getD 2 0 ≠ CM_DEFLATE then none
  else if input.getD 3 0 &&& FEXTRA = 0 then none
  else
    let xlen := leNat ((input.drop 10).take 2)
    if input.length < 12 + xlen then none
    else bgzfSubfield input (12 + xlen) (12 + xlen) 12

section BlockSize

variable {input : List UInt8} {fieldsEnd p rounds size : ℕ}

/-- A size that a subfield gives is at least one byte, and at most 64 KiB. -/
theorem bgzfSubfield_bounds (h : bgzfSubfield input fieldsEnd rounds p = some size) :
    0 < size ∧ size ≤ 2 ^ 16 := by
  induction rounds generalizing p with
  | zero => cases h
  | succ rounds ih =>
    simp only [bgzfSubfield] at h
    split at h
    · split at h
      · cases h
      · split at h
        · cases h
          have hlt := leNat_lt ((input.drop (p + 4)).take 2)
          have hpow := Nat.pow_le_pow_right (show 0 < 256 by decide)
            (List.length_take_le 2 (input.drop (p + 4)))
          omega
        · exact ih h
    · cases h

/-- A declared size is not zero, and at most 64 KiB. -/
theorem parseBgzfBlockSize_bounds (h : parseBgzfBlockSize input = some size) :
    0 < size ∧ size ≤ 2 ^ 16 := by
  simp only [parseBgzfBlockSize] at h
  split at h
  · cases h
  · split at h
    · cases h
    · split at h
      · cases h
      · exact bgzfSubfield_bounds h

/-- No bytes declare no size. -/
theorem parseBgzfBlockSize_nil : parseBgzfBlockSize [] = none := rfl

end BlockSize

end Gzip

namespace Pipeline

namespace Bgzf

/-- A batch of blocks: its number, the number of its first member, and the ranges of its blocks.
`left` is what dispatch returns if the batch cannot be sent. -/
structure Batch where
  id : ℕ
  firstMember : ℕ
  ranges : List (ℕ × ℕ)
  left : ℕ × Option Error

/-- The variables of dispatch, and the batches so far. -/
structure Walk where
  pos : ℕ
  id : ℕ
  firstMember : ℕ
  cur : List (ℕ × ℕ)
  curBytes : ℕ
  target : ℕ
  batches : List Batch

/-- The walk before the first block. -/
def Walk.new : Walk := ⟨0, 0, 0, [], 0, 64 * 1024, []⟩

/-- Emit `cur` as a batch. -/
def Walk.flush (walkErr : Option Error) (w : Walk) : Walk :=
  { w with
    id := w.id + 1
    firstMember := (w.firstMember + w.cur.length) % 2 ^ 32
    cur := []
    curBytes := 0
    batches := w.batches ++ [⟨w.id, w.firstMember, w.cur, (w.pos, walkErr)⟩] }

/-- Add the block of this length to `cur`. -/
def Walk.push (size : ℕ) (w : Walk) : Walk :=
  { w with
    cur := w.cur ++ [(w.pos, w.pos + size)]
    curBytes := w.curBytes + size
    pos := w.pos + size }

/-- One round of the walk: a block, or the end with the error of a block that is cut off. -/
def walkRound (file : List UInt8) (chunkTarget : ℕ) (w : Walk) : Walk ⊕ (Walk × Option Error) :=
  if w.pos < file.length then
    match Gzip.parseBgzfBlockSize (file.drop w.pos) with
    | none => .inr (w, none)
    | some size =>
      if file.length < w.pos + size then .inr (w, some (.gzip .truncated))
      else
        let w := w.push size
        if w.target ≤ w.curBytes then
          .inl { w.flush none with target := min (w.target * 2) chunkTarget }
        else .inl w
  else .inr (w, none)

/-- The rounds of the walk. Each block has a byte, which bounds them. -/
def walkFrom (file : List UInt8) (chunkTarget : ℕ) : ℕ → Walk → Walk × Option Error
  | 0, w => (w, none)
  | rounds + 1, w =>
    match walkRound file chunkTarget w with
    | .inl w => walkFrom file chunkTarget rounds w
    | .inr r => r

/-- The whole walk: the batches that dispatch emits, where the walk ends and its error. -/
def walk (file : List UInt8) (chunkSizeBytes : ℕ) : Walk × Option Error :=
  let (w, walkErr) := walkFrom file (max chunkSizeBytes (64 * 1024)) (file.length + 1) .new
  (if w.cur ≠ [] then w.flush walkErr else w, walkErr)

/-- The ranges of the blocks from a position on, where the walk ends and its error. -/
inductive Ranges (file : List UInt8) : ℕ → List (ℕ × ℕ) → ℕ → Option Error → Prop
  | done {pos : ℕ} (hnone : Gzip.parseBgzfBlockSize (file.drop pos) = none) :
      Ranges file pos [] pos none
  | truncated {pos size : ℕ} (hsize : Gzip.parseBgzfBlockSize (file.drop pos) = some size)
      (hover : file.length < pos + size) : Ranges file pos [] pos (some (.gzip .truncated))
  | block {pos size stop : ℕ} {ranges : List (ℕ × ℕ)} {walkErr : Option Error}
      (hsize : Gzip.parseBgzfBlockSize (file.drop pos) = some size)
      (hfits : pos + size ≤ file.length) (hrest : Ranges file (pos + size) ranges stop walkErr) :
      Ranges file pos ((pos, pos + size) :: ranges) stop walkErr

section Walk

variable {file : List UInt8} {chunkTarget : ℕ} {w : Walk} {pos stop : ℕ}
  {ranges : List (ℕ × ℕ)} {walkErr : Option Error}

/-- A file has one walk. -/
theorem Ranges.unique {stop' : ℕ} {ranges' : List (ℕ × ℕ)} {walkErr' : Option Error}
    (h : Ranges file pos ranges stop walkErr) (h' : Ranges file pos ranges' stop' walkErr') :
    ranges = ranges' ∧ stop = stop' ∧ walkErr = walkErr' := by
  induction h generalizing ranges' with
  | done hnone =>
    cases h' with
    | done _ => exact ⟨rfl, rfl, rfl⟩
    | truncated hsize _ => simp [hnone] at hsize
    | block hsize _ _ => simp [hnone] at hsize
  | truncated hsize hover =>
    cases h' with
    | done hnone => simp [hsize] at hnone
    | truncated _ _ => exact ⟨rfl, rfl, rfl⟩
    | block hsize' hfits _ =>
      rw [hsize] at hsize'
      cases hsize'
      omega
  | block hsize hfits _ ih =>
    cases h' with
    | done hnone => simp [hsize] at hnone
    | truncated hsize' hover =>
      rw [hsize] at hsize'
      cases hsize'
      omega
    | block hsize' _ hrest' =>
      rw [hsize] at hsize'
      cases hsize'
      obtain ⟨rfl, rfl, rfl⟩ := ih hrest'
      exact ⟨rfl, rfl, rfl⟩

/-- No range is longer than a block can say. -/
theorem Ranges.le_of_mem {range : ℕ × ℕ} (h : Ranges file pos ranges stop walkErr)
    (hrange : range ∈ ranges) : range.2 ≤ range.1 + 2 ^ 16 := by
  induction h with
  | done _ => simp at hrange
  | truncated _ _ => simp at hrange
  | @block pos _ _ _ _ hsize _ _ ih =>
    rcases List.mem_cons.mp hrange with rfl | hrange
    · exact Nat.add_le_add_left (Gzip.parseBgzfBlockSize_bounds hsize).2 pos
    · exact ih hrange

/-- All ranges that the walk has found so far. -/
def Walk.found (w : Walk) : List (ℕ × ℕ) := w.batches.flatMap Batch.ranges ++ w.cur

/-- A flush keeps the blocks that were found. -/
@[simp] theorem Walk.found_flush : (w.flush walkErr).found = w.found := by
  simp [Walk.found, Walk.flush]

/-- A push finds one more block. -/
@[simp] theorem Walk.found_push {size : ℕ} :
    (w.push size).found = w.found ++ [(w.pos, w.pos + size)] := by
  simp [Walk.found, Walk.push]

/-- The batches are numbered in order. -/
structure Walk.Numbered (w : Walk) : Prop where
  id_eq : w.id = w.batches.length
  batches : ∀ (i : ℕ) (b : Batch), w.batches[i]? = some b → b.id = i

/-- A flush keeps the numbers of the members in order. -/
theorem Walk.Numbered.flush (h : w.Numbered) : (w.flush walkErr).Numbered := by
  refine ⟨?_, fun i b hb => ?_⟩
  · simp only [Walk.flush, List.length_append, List.length_singleton, h.id_eq]
  · simp only [Walk.flush, List.getElem?_append, List.getElem?_singleton] at hb
    split at hb
    · exact h.batches i b hb
    · split at hb
      · cases hb
        have := h.id_eq
        simp only
        omega
      · cases hb

/-- What a round does: it adds a block, or ends the walk. -/
theorem walkRound_cases (file : List UInt8) (chunkTarget : ℕ) (hw : w.Numbered) :
    (∃ size w', Gzip.parseBgzfBlockSize (file.drop w.pos) = some size ∧
      w.pos + size ≤ file.length ∧ walkRound file chunkTarget w = .inl w' ∧ w'.Numbered ∧
      w'.pos = w.pos + size ∧ w'.found = w.found ++ [(w.pos, w.pos + size)]) ∨
    ∃ walkErr, Ranges file w.pos [] w.pos walkErr ∧
      walkRound file chunkTarget w = .inr (w, walkErr) := by
  unfold walkRound
  by_cases hpos : w.pos < file.length
  swap
  · rw [if_neg hpos]
    refine Or.inr ⟨none, .done ?_, rfl⟩
    rw [List.drop_of_length_le (Nat.le_of_not_lt hpos), Gzip.parseBgzfBlockSize_nil]
  rw [if_pos hpos]
  cases hsize : Gzip.parseBgzfBlockSize (file.drop w.pos) with
  | none => exact Or.inr ⟨none, .done hsize, rfl⟩
  | some size =>
    by_cases hover : file.length < w.pos + size
    · simp only [if_pos hover]
      exact Or.inr ⟨_, .truncated hsize hover, rfl⟩
    have hpush : (w.push size).Numbered := ⟨hw.id_eq, hw.batches⟩
    simp only [if_neg hover]
    by_cases hfull : (w.push size).target ≤ (w.push size).curBytes
    · have hflush : ((w.push size).flush none).Numbered := hpush.flush
      have hfound : ((w.push size).flush none).found = w.found ++ [(w.pos, w.pos + size)] := by
        rw [Walk.found_flush, Walk.found_push]
      rw [if_pos hfull]
      exact Or.inl ⟨size, _, rfl, Nat.le_of_not_lt hover, rfl, ⟨hflush.id_eq, hflush.batches⟩, rfl,
        hfound⟩
    · rw [if_neg hfull]
      exact Or.inl ⟨size, _, rfl, Nat.le_of_not_lt hover, rfl, hpush, rfl, Walk.found_push⟩

/-- The walk finds the ranges of the blocks. -/
theorem walkFrom_ranges (chunkTarget : ℕ) {rounds : ℕ} (hw : w.Numbered)
    (hrounds : file.length < w.pos + rounds) (hpos : w.pos ≤ file.length) :
    (walkFrom file chunkTarget rounds w).1.Numbered ∧
      ∃ ranges, Ranges file w.pos ranges (walkFrom file chunkTarget rounds w).1.pos
          (walkFrom file chunkTarget rounds w).2 ∧
        (walkFrom file chunkTarget rounds w).1.found = w.found ++ ranges := by
  induction rounds generalizing w with
  | zero => omega
  | succ rounds ih =>
    rcases walkRound_cases file chunkTarget hw with
      ⟨size, w', hsize, hfits, hround, hw', hpos', hfound⟩ | ⟨walkErr, hranges, hround⟩
    · have hlt := (Gzip.parseBgzfBlockSize_bounds hsize).1
      obtain ⟨hnumbered, ranges, hranges, hrest⟩ := ih hw' (by omega) (by omega)
      simp only [walkFrom, hround]
      rw [hpos'] at hranges
      exact ⟨hnumbered, _, .block hsize hfits hranges, by
        rw [hrest, hfound, List.append_assoc, List.singleton_append]⟩
    · simp only [walkFrom, hround]
      exact ⟨hw, [], hranges, (List.append_nil _).symm⟩

/-- The batches are numbered, and hold the ranges of the blocks in order. -/
theorem walk_ranges (file : List UInt8) (chunkSizeBytes : ℕ) :
    (walk file chunkSizeBytes).1.Numbered ∧
      Ranges file 0 ((walk file chunkSizeBytes).1.batches.flatMap Batch.ranges)
        (walk file chunkSizeBytes).1.pos (walk file chunkSizeBytes).2 := by
  have hnew : Walk.new.Numbered := ⟨rfl, by simp [Walk.new]⟩
  have hrounds : file.length < Walk.new.pos + (file.length + 1) := by
    simp only [Walk.new]
    omega
  obtain ⟨hnumbered, ranges, hranges, hfound⟩ :=
    walkFrom_ranges (max chunkSizeBytes (64 * 1024)) hnew hrounds (Nat.zero_le _)
  have hnone : Walk.new.found = [] := rfl
  rw [hnone, List.nil_append] at hfound
  unfold walk
  generalize walkFrom file (max chunkSizeBytes (64 * 1024)) (file.length + 1) .new = r at *
  obtain ⟨w, walkErr⟩ := r
  simp only at hnumbered hranges hfound ⊢
  subst hfound
  by_cases hcur : w.cur ≠ []
  · have hflush : (w.flush walkErr).found = w.found := Walk.found_flush
    rw [Walk.found, Walk.flush, List.append_nil] at hflush
    rw [if_pos hcur]
    refine ⟨hnumbered.flush, ?_⟩
    simp only [Walk.flush] at hflush ⊢
    rw [hflush]
    exact hranges
  · rw [if_neg hcur]
    rw [Walk.found, not_not.mp hcur, List.append_nil] at hranges
    exact ⟨hnumbered, hranges⟩

end Walk

end Bgzf

end Pipeline

end RustyRapidgzip
