import RustyRapidgzip.Pipeline.Flow
import RustyRapidgzip.Pipeline.Members

/-!
# Pieces of members

A chunk is cut at its boundaries. The resolve pool computes the checksum of each piece, and
the output stage puts the pieces together again, across chunks: it finds the checksums and
the lengths of the members' bytes.
-/

namespace RustyRapidgzip

open LsbBits Reference Lz Crc

namespace Pipeline

/-- The boundaries of a chunk stand in order inside its bytes. -/
def Offsets (length : ℕ) : ℕ → List MemberBoundary → Prop
  | cursor, [] => cursor ≤ length
  | cursor, mb :: boundaries =>
    cursor ≤ mb.byteOffsetInChunk ∧ Offsets length mb.byteOffsetInChunk boundaries

/-- The member in progress after these bytes of it. -/
def OpenMember.at (crc : Checksum) (own : List UInt8) (memberIdx : ℕ) : OpenMember :=
  ⟨crc.hash own, own.length, memberIdx⟩

section Pieces

variable {crc : Checksum} {bytes own : List UInt8} {cursor length : ℕ}
  {boundaries : List MemberBoundary} {m : OpenMember}

/-- Offsets lie within the length. -/
theorem Offsets.le (h : Offsets length cursor boundaries) : cursor ≤ length := by
  induction boundaries generalizing cursor with
  | nil => exact h
  | cons mb boundaries ih => exact h.1.trans (ih h.2)

/-- Cutting a chunk loses no byte. -/
theorem cut_flatten (own : List UInt8) (h : Offsets bytes.length cursor boundaries) :
    ((cut own bytes cursor boundaries).1.map Prod.fst).flatten ++
      (cut own bytes cursor boundaries).2
      = own ++ bytes.drop cursor := by
  induction boundaries generalizing own cursor with
  | nil => simp [cut]
  | cons mb boundaries ih =>
    have hrest := ih [] h.2
    have hsplit := List.take_append_drop (mb.byteOffsetInChunk - cursor) (bytes.drop cursor)
    rw [List.drop_drop, Nat.add_sub_cancel' h.1] at hsplit
    simp only [cut, List.map_cons, List.flatten_cons]
    rw [List.append_assoc, List.append_assoc, hrest, List.nil_append, hsplit]

/-- Checking the pieces is checking the members that are cut. -/
theorem stitchPieces_eq {k : ℕ} (own : List UInt8) (h : Offsets bytes.length cursor boundaries) :
    (stitchPieces crc ((pieceCrcs crc bytes cursor boundaries).1.zip boundaries)
        (.at crc own k) >>= fun m => .ok
          { m with
            curCrc := crc.combine m.curCrc (pieceCrcs crc bytes cursor boundaries).2.1
              (pieceCrcs crc bytes cursor boundaries).2.2
            curUncompressed := m.curUncompressed +
              (pieceCrcs crc bytes cursor boundaries).2.2 }) =
      checkMembers crc 0 k (cut own bytes cursor boundaries).1 >>= fun _ =>
        .ok (.at crc (cut own bytes cursor boundaries).2 (k + boundaries.length)) := by
  induction boundaries generalizing own cursor k with
  | nil =>
    have hcombine := crc.combine_hash own (bytes.drop cursor)
    rw [List.length_drop] at hcombine
    simp [pieceCrcs, stitchPieces, cut, checkMembers, OpenMember.at, bind, Except.bind, hcombine]
  | cons mb boundaries ih =>
    obtain ⟨hcursor, hrest⟩ := h
    obtain ⟨piece, hpiece⟩ : ∃ piece, piece =
      (bytes.drop cursor).take (mb.byteOffsetInChunk - cursor) := ⟨_, rfl⟩
    have hlength : piece.length = mb.byteOffsetInChunk - cursor := by
      have := hrest.le
      rw [hpiece, List.length_take, List.length_drop]
      omega
    have hcombine := crc.combine_hash own piece
    rw [hlength] at hcombine
    have huncompressed : own.length + (mb.byteOffsetInChunk - cursor) = (own ++ piece).length := by
      rw [List.length_append, hlength]
    have hnew : (⟨crc.hash [], 0, k + 1⟩ : OpenMember) = .at crc [] (k + 1) := rfl
    simp only [pieceCrcs, List.zip_cons_cons, stitchPieces, cut, checkMembers, OpenMember.at,
      ← hpiece, hcombine, huncompressed, List.length_cons, Nat.zero_add]
    rw [hnew]
    cases hvalid : validateMember mb.crcExpected mb.isizeExpected (crc.hash (own ++ piece))
        (own ++ piece).length k mb.trailerInputByte with
    | error e => rfl
    | ok u =>
      have hih := @ih mb.byteOffsetInChunk (k + 1) [] hrest
      simp only [OpenMember.at] at hih
      rw [show k + (boundaries.length + 1) = k + 1 + boundaries.length by omega]
      exact hih

end Pieces

namespace Mmap

/-- The boundaries of a resolved chunk stand in order inside its bytes. -/
def Cuttable (d : ResolveDone) : Prop := Offsets d.chunk.bytes.length 0 d.memberBoundaries

/-- The members that end in a sequence of chunks, and the bytes of the one that goes on. -/
def cutAll (ds : List ResolveDone) : List (List UInt8 × Trailer) × List UInt8 :=
  ds.foldl (fun s d =>
    let r := cut s.2 d.chunk.bytes 0 d.memberBoundaries
    (s.1 ++ r.1, r.2)) ([], [])

section Chunks

variable {crc : Checksum} {own : List UInt8} {d : ResolveDone} {ds : List ResolveDone}
  {m : OpenMember}

/-- The last chunk is cut behind the others. -/
theorem cutAll_snoc : cutAll (ds ++ [d]) =
    ((cutAll ds).1 ++ (cut (cutAll ds).2 d.chunk.bytes 0 d.memberBoundaries).1,
      (cut (cutAll ds).2 d.chunk.bytes 0 d.memberBoundaries).2) := by
  rw [cutAll, List.foldl_append]
  rfl

/-- There is a piece for each boundary. -/
theorem cut_length (own bytes : List UInt8) (cursor : ℕ) (boundaries : List MemberBoundary) :
    (cut own bytes cursor boundaries).1.length = boundaries.length := by
  induction boundaries generalizing own cursor with
  | nil => rfl
  | cons mb boundaries ih => simp [cut, ih]

/-- Cutting a sequence of chunks loses no byte. -/
theorem cutAll_flatten (h : ∀ d ∈ ds, Cuttable d) :
    ((cutAll ds).1.map Prod.fst).flatten ++ (cutAll ds).2 = (sentBytes ds).flatten := by
  induction ds using List.reverseRecOn with
  | nil => rfl
  | append_singleton ds d ih =>
    have hds := ih fun d hd => h d (List.mem_append_left _ hd)
    have hcut := cut_flatten (cutAll ds).2 (h d (by simp))
    rw [cutAll_snoc, List.map_append, List.flatten_append, List.append_assoc, hcut,
      ← List.append_assoc, hds, List.drop_zero, sentBytes, sentBytes, List.map_append,
      List.flatten_append]
    simp

/-- Checking a chunk is checking the members that it completes. -/
theorem stitch_eq (own : List UInt8) {job : ResolveJob} (hjob : resolveJob crc job = .ok d)
    (h : Cuttable d) (k : ℕ) : stitch crc d (.at crc own k) =
      checkMembers crc 0 k (cut own d.chunk.bytes 0 d.memberBoundaries).1 >>= fun _ =>
        .ok (.at crc (cut own d.chunk.bytes 0 d.memberBoundaries).2
          (k + d.memberBoundaries.length)) := by
  unfold resolveJob at hjob
  split at hjob
  · cases hjob
  · cases hjob
    exact stitchPieces_eq own h

/-- Checking the chunks is checking the members that they complete. -/
theorem stitchAll_eq {c : Config} {rs : List WorkResult} (hresolves : Resolves c rs ds)
    (h : ∀ d ∈ ds, Cuttable d) : stitchAll c.crc ds =
      checkMembers c.crc 0 0 (cutAll ds).1 >>= fun _ =>
        .ok (.at c.crc (cutAll ds).2 (cutAll ds).1.length) := by
  induction hresolves with
  | nil => rfl
  | @snoc rs ds r d hresolves hjob ih =>
    have hds : ∀ d ∈ ds, Cuttable d := fun d hd => h d (List.mem_append_left _ hd)
    have hstitch := stitch_eq (cutAll ds).2 hjob (h d (by simp)) (cutAll ds).1.length
    rw [stitchAll_snoc, cutAll_snoc, checkMembers_append, List.length_append, cut_length, ih hds]
    simp only [bind_assoc]
    cases hcheck : checkMembers c.crc 0 0 (cutAll ds).1 with
    | error e => rfl
    | ok u =>
      rw [Nat.zero_add]
      exact hstitch

/-- The chunks pass the checks exactly if the members that they complete do. -/
theorem stitchAll_iff {c : Config} {rs : List WorkResult} (hresolves : Resolves c rs ds)
    (h : ∀ d ∈ ds, Cuttable d) : stitchAll c.crc ds = .ok m ↔
      (∀ seg ∈ (cutAll ds).1, Passes c.crc seg) ∧
        m = .at c.crc (cutAll ds).2 (cutAll ds).1.length := by
  rw [stitchAll_eq hresolves h, ← @checkMembers_ok_iff c.crc 0 0]
  cases checkMembers c.crc 0 0 (cutAll ds).1 with
  | error e => simp [bind, Except.bind]
  | ok u => simp [bind, Except.bind, eq_comm]

/-- The chunks fail the checks with the error of the members that they complete. -/
theorem stitchAll_error {c : Config} {rs : List WorkResult} {e : Error}
    (hresolves : Resolves c rs ds) (h : ∀ d ∈ ds, Cuttable d)
    (hstitch : stitchAll c.crc ds = .error e) :
    checkMembers c.crc 0 0 (cutAll ds).1 = .error e := by
  rw [stitchAll_eq hresolves h] at hstitch
  cases hcheck : checkMembers c.crc 0 0 (cutAll ds).1 with
  | error e' =>
    rw [hcheck] at hstitch
    cases hstitch
    rfl
  | ok u =>
    rw [hcheck] at hstitch
    cases hstitch

end Chunks

end Mmap

/-! ## The boundaries of a decoded chunk -/

section Runs

variable {body : List UInt8} {room endBitHint pos : ℕ} {first : Bool} {cells : List ℕ}
  {r : ChunkEnd}

/-- Adding appends. -/
theorem Adds.length_le {ts : List Token} {cells' : List ℕ} (h : Adds first cells ts cells') :
    cells.length ≤ cells'.length := by
  cases first with
  | true =>
    obtain ⟨rfl, -⟩ := h
    exact Nat.zero_le _
  | false =>
    obtain ⟨more, -, rfl⟩ := h
    rw [List.length_append]
    exact Nat.le_add_right _ _

/-- The boundaries of a decoded chunk lie in order within its cells. -/
theorem ChunkRun.offsets (h : ChunkRun room body endBitHint first pos cells r) :
    Offsets r.cells.length cells.length (r.members.map Prod.snd) := by
  induction h with
  | full _ => exact le_rfl
  | part _ _ hadds => exact hadds.length_le
  | last _ _ hadds _ _ => exact ⟨hadds.length_le, le_rfl⟩
  | next _ _ hadds _ _ _ ih => exact ⟨hadds.length_le, ih⟩

/-- At the end of the body stands the trailer of the last member. -/
theorem ChunkRun.getLast? (h : ChunkRun room body endBitHint first pos cells r)
    (hfinal : r.finalBlock = true) : ∃ mb, (r.members.map Prod.snd).getLast? = some mb ∧
      mb.trailerInputByte + 8 = body.length := by
  induction h with
  | full _ => cases hfinal
  | part _ _ _ => cases hfinal
  | last _ _ _ htrailer hnext =>
    obtain ⟨hbyte, hroom⟩ := trailerAt_ok htrailer
    have hend := nextMember_none hnext
    exact ⟨⟨_, _⟩, rfl, by simp only; omega⟩
  | @next _ _ _ _ _ _ _ _ _ _ _ _ _ _ _ ih =>
    obtain ⟨mb, hlast, hbyte⟩ := ih hfinal
    refine ⟨mb, ?_, hbyte⟩
    rw [List.map_cons, List.getLast?_cons, hlast]
    rfl

/-- A chunk without a bound ends the body. -/
theorem ChunkRun.final (h : ChunkRun room body endBitHint first pos cells r)
    (hhint : 8 * body.length < endBitHint) (hpos : pos ≤ 8 * body.length) :
    r.finalBlock = true := by
  induction h with
  | full hfull => omega
  | part _ hblocks _ =>
    have hstop := stop_of_blocks hblocks rfl
    rw [stopAt, decide_eq_true_eq] at hstop
    omega
  | last _ _ _ _ _ => rfl
  | next _ _ _ _ hnext _ ih => exact ih (nextMember_some hnext).2

/-- A chunk is no longer than the rest of the members. -/
theorem Advances.length_le {tail own more own' : List UInt8}
    {outs outs' : List (List UInt8 × Trailer)} {r : ChunkEnd}
    (h : Advances body tail own [] outs r more own' outs')
    (hoffsets : Offsets more.length 0 (r.members.map Prod.snd)) :
    more.length ≤ ((completed own outs).map Prod.fst).flatten.length := by
  obtain ⟨segments, hcut, hcompleted⟩ := h.completes
  rw [List.nil_append, List.length_nil] at hcut
  have hflatten := congrArg List.length (cut_flatten own hoffsets)
  have hown : own'.length ≤ ((completed own' outs').map Prod.fst).flatten.length := by
    cases hfinal : r.finalBlock with
    | true =>
      obtain ⟨-, rfl⟩ := h.ends hfinal
      exact Nat.zero_le _
    | false =>
      obtain ⟨members', hparse, hexpands⟩ := h.goes_on hfinal
      cases hexpands with
      | nil => exact absurd rfl hparse.ne_nil
      | cons _ _ => simp [completed]
  simp only [hcut, List.drop_zero, List.length_append] at hflatten
  rw [hcompleted, List.map_append, List.flatten_append, List.length_append]
  omega

end Runs

end Pipeline

end RustyRapidgzip
