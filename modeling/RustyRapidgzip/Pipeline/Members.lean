import RustyRapidgzip.Pipeline.Body
import RustyRapidgzip.Pipeline.Serial

/-!
# Two views of a body

The serial decoder follows the bytes of a body from member to member. A chunk is decoded at a
position of the whole body. Both views name the same members, and the same checks.
-/

namespace RustyRapidgzip

open LsbBits Reference Lz Crc

namespace Pipeline

/-- The member passes the checks of its trailer. -/
def Passes (crc : Checksum) (m : List UInt8 × Trailer) : Prop :=
  crc.hash m.1 = m.2.crcExpected ∧ m.1.length % 2 ^ 32 = m.2.isizeExpected

/-- Check members in order. The first one has number `k`, and the body starts at `bodyOffset`. -/
def checkMembers (crc : Checksum) (bodyOffset : ℕ) :
    ℕ → List (List UInt8 × Trailer) → Except Error Unit
  | _, [] => .ok ()
  | k, (out, trailer) :: outs => do
    validateMember trailer.crcExpected trailer.isizeExpected (crc.hash out) out.length k
      (bodyOffset + trailer.trailerInputByte)
    checkMembers crc bodyOffset (k + 1) outs

/-- The error of a member `m` with number `k` that does not pass its checks. -/
def mismatchOf (crc : Checksum) (bodyOffset k : ℕ) (m : List UInt8 × Trailer) : Gzip.GzipError :=
  if crc.hash m.1 ≠ m.2.crcExpected then
    .crcMismatch m.2.crcExpected (crc.hash m.1) k m.1.length (bodyOffset + m.2.trailerInputByte)
  else .isizeMismatch m.2.isizeExpected m.1.length k (bodyOffset + m.2.trailerInputByte)

/-- The members of a body at a position, which pass their checks and decode to `os`. -/
def MembersAt (crc : Checksum) (body : List UInt8) (pos : ℕ) (os : List UInt8) : Prop :=
  ∃ members outs, BodyParse body pos members ∧ Expands [] members outs ∧
    (∀ m ∈ outs, Passes crc m) ∧ os = (outs.map Prod.fst).flatten

variable {crc : Checksum} {body o os : List UInt8} {rest : List Bool} {trailer : Trailer}
  {k pos : ℕ}

/-- A member passes where both fields of its trailer match. -/
theorem validateMember_ok_iff {crcExpected isizeExpected crcGot uncompressed member pos : ℕ} :
    validateMember crcExpected isizeExpected crcGot uncompressed member pos = .ok () ↔
      crcGot = crcExpected ∧ uncompressed % 2 ^ 32 = isizeExpected := by
  unfold validateMember
  by_cases hcrc : crcGot = crcExpected
  · by_cases hsize : uncompressed % 2 ^ 32 = isizeExpected
    · simp only [hcrc, hsize, ne_eq, not_true_eq_false, if_false, and_self]
    · simp only [hcrc, hsize, ne_eq, not_true_eq_false, not_false_eq_true, if_false, if_true,
        reduceCtorEq, and_false]
  · simp only [hcrc, ne_eq, not_false_eq_true, if_true, reduceCtorEq, false_and]

/-- The checks succeed where all members pass. -/
theorem checkMembers_ok_iff {bodyOffset k : ℕ} {outs : List (List UInt8 × Trailer)} :
    checkMembers crc bodyOffset k outs = .ok () ↔ ∀ m ∈ outs, Passes crc m := by
  induction outs generalizing k with
  | nil => simp [checkMembers]
  | cons m outs ih =>
    obtain ⟨out, trailer⟩ := m
    rw [checkMembers, List.forall_mem_cons]
    cases hvalid : validateMember trailer.crcExpected trailer.isizeExpected (crc.hash out)
        out.length k (bodyOffset + trailer.trailerInputByte) with
    | error e =>
      refine iff_of_false (by simp [bind, Except.bind]) fun h => ?_
      rw [validateMember_ok_iff.mpr h.1] at hvalid
      cases hvalid
    | ok u =>
      have hpasses : Passes crc (out, trailer) := validateMember_ok_iff.mp hvalid
      rw [and_iff_right hpasses]
      exact ih

/-- The reported place tells the places of the body apart. -/
theorem mismatchOf_inj {m : List UInt8 × Trailer} {a b : ℕ} :
    mismatchOf crc a k m = mismatchOf crc b k m ↔ a = b := by
  constructor
  · intro h
    unfold mismatchOf at h
    split at h
    · injection h with _ _ _ _ hplace
      exact Nat.add_right_cancel hplace
    · injection h with _ _ _ hplace
      exact Nat.add_right_cancel hplace
  · rintro rfl
    rfl

/-- The check of a member that does not pass. -/
theorem validateMember_error {m : List UInt8 × Trailer} (bodyOffset : ℕ) (h : ¬Passes crc m) :
    validateMember m.2.crcExpected m.2.isizeExpected (crc.hash m.1) m.1.length k
      (bodyOffset + m.2.trailerInputByte) = .error (.gzip (mismatchOf crc bodyOffset k m)) := by
  unfold validateMember mismatchOf
  by_cases hcrc : crc.hash m.1 = m.2.crcExpected
  · have hsize : m.1.length % 2 ^ 32 ≠ m.2.isizeExpected := fun hsize => h ⟨hcrc, hsize⟩
    simp only [hcrc, ne_eq, not_true_eq_false, if_false]
    rw [if_pos hsize]
  · rw [if_pos hcrc, if_pos hcrc]

/-- The checks of a part come first. -/
theorem checkMembers_append (crc : Checksum) (bodyOffset k : ℕ)
    (outs outs' : List (List UInt8 × Trailer)) :
    checkMembers crc bodyOffset k (outs ++ outs') = (do
      checkMembers crc bodyOffset k outs
      checkMembers crc bodyOffset (k + outs.length) outs') := by
  induction outs generalizing k with
  | nil => rfl
  | cons m outs ih =>
    rw [List.cons_append, checkMembers, checkMembers, ih, List.length_cons, bind_assoc,
      show k + 1 + outs.length = k + (outs.length + 1) by omega]

/-- The checks fail at the first member that does not pass. -/
theorem checkMembers_error (bodyOffset : ℕ) {before after : List (List UInt8 × Trailer)}
    {m : List UInt8 × Trailer} (hbefore : ∀ m ∈ before, Passes crc m) (hm : ¬Passes crc m) :
    checkMembers crc bodyOffset k (before ++ m :: after) =
      .error (.gzip (mismatchOf crc bodyOffset (k + before.length) m)) := by
  rw [checkMembers_append, checkMembers_ok_iff.mpr hbefore, checkMembers,
    validateMember_error bodyOffset hm]
  rfl

/-- Where a member fails there is a first one. -/
theorem exists_first_failing {outs : List (List UInt8 × Trailer)}
    (h : ∃ m ∈ outs, ¬Passes crc m) : ∃ before m after, outs = before ++ m :: after ∧
      (∀ m ∈ before, Passes crc m) ∧ ¬Passes crc m := by
  induction outs with
  | nil => simp at h
  | cons m outs ih =>
    by_cases hm : Passes crc m
    · obtain ⟨m', hm', hfails⟩ := h
      rcases List.mem_cons.mp hm' with rfl | hm'
      · exact absurd hm hfails
      · obtain ⟨before, m'', after, rfl, hbefore, hfails'⟩ := ih ⟨m', hm', hfails⟩
        exact ⟨m :: before, m'', after, rfl, List.forall_mem_cons.mpr ⟨hm, hbefore⟩, hfails'⟩
    · exact ⟨[], m, outs, rfl, by simp, hm⟩

/-- The trailer that follows a stream. -/
theorem trailerAt_iff (hrest : rest.length ≤ 8 * body.length) :
    TrailerMatches crc (fromBoundary body rest) o ↔
      ∃ trailer, trailerAt body (8 * body.length - rest.length) = .ok trailer ∧
        Passes crc (o, trailer) := by
  have hbyte : (8 * body.length - rest.length + 7) / 8 = body.length - rest.length / 8 := by omega
  unfold trailerAt TrailerMatches fromBoundary
  simp only [hbyte]
  generalize hb : body.length - rest.length / 8 = b
  have hle : b ≤ body.length := by omega
  by_cases hroom : body.length < b + 8
  · rw [if_pos hroom, List.length_drop]
    simp
    omega
  · rw [if_neg hroom, List.length_drop, List.drop_drop]
    simp only [Except.ok.injEq, exists_eq_left', Passes]
    exact and_iff_right (by omega)

/-- What the body holds after a trailer. -/
theorem trailerAt_drop (hrest : rest.length ≤ 8 * body.length)
    (htrailer : trailerAt body (8 * body.length - rest.length) = .ok trailer) :
    (fromBoundary body rest).drop 8 = body.drop (trailer.trailerInputByte + 8) := by
  rw [(trailerAt_ok htrailer).1, fromBoundary, List.drop_drop]
  congr 1
  omega

/-- The next member's body starts behind its header. -/
theorem nextMember_iff {start : ℕ} : nextMember body trailer = .ok (some start) ↔
    body.drop (trailer.trailerInputByte + 8) ≠ [] ∧
      ∃ headerLen, Gzip.parseHeader (body.drop (trailer.trailerInputByte + 8)) = .ok headerLen ∧
        start = 8 * (trailer.trailerInputByte + 8 + headerLen) := by
  rw [Ne, List.drop_eq_nil_iff]
  unfold nextMember
  simp only
  by_cases hend : body.length ≤ trailer.trailerInputByte + 8
  · simp [hend]
  · rw [if_neg hend]
    cases hparse : Gzip.parseHeader (body.drop (trailer.trailerInputByte + 8)) with
    | error e => simp [bind, Except.bind]
    | ok headerLen =>
      constructor
      · rintro ⟨⟩
        exact ⟨hend, headerLen, rfl, Nat.mul_comm _ _⟩
      · rintro ⟨-, _, ⟨⟩, rfl⟩
        rw [Nat.mul_comm]
        rfl

/-- With nothing behind the trailer there is no next member. -/
theorem nextMember_eq_none (h : body.drop (trailer.trailerInputByte + 8) = []) :
    nextMember body trailer = .ok none := by
  unfold nextMember
  simp only [if_pos (List.drop_eq_nil_iff.mp h)]

/-- A body is parsed from a position inside it. -/
theorem pos_le_of_bodyParse {members : List (List Token × Trailer)}
    (h : BodyParse body pos members) : pos ≤ 8 * body.length := by
  have hlt {ts : List Token} {rest : List Bool}
      (hstream : Stream 0 ((bits body).drop pos) ts rest) :
      pos ≤ 8 * body.length := by
    have := hstream.length_lt
    rw [List.length_drop, bits_length] at this
    omega
  cases h with
  | last hstream _ _ => exact hlt hstream
  | next hstream _ _ _ => exact hlt hstream

/-- The members that follow the bytes of a body are those at their position. -/
theorem membersAt_of_bodyMembers (h : BodyMembers crc (body.drop k) os) :
    MembersAt crc body (8 * k) os := by
  generalize hpart : body.drop k = part at h
  have hends {part o tail : List UInt8} {k : ℕ} (hpart : body.drop k = part)
      (h : Ends crc part (bits part) [] o tail) : ∃ ts rest trailer,
      Stream 0 ((bits body).drop (8 * k)) ts rest ∧ expand id [] ts = some ([] ++ o) ∧
        trailerAt body (8 * body.length - rest.length) = .ok trailer ∧ Passes crc (o, trailer) ∧
        tail = body.drop (trailer.trailerInputByte + 8) := by
    subst hpart
    obtain ⟨rest, hblocks, hmatches, rfl⟩ := (ends_of_suffix (List.drop_suffix k body)
      List.suffix_rfl).mp h
    obtain ⟨ts, hstream, hexpand⟩ := hblocks
    rw [bits_drop] at hstream
    have hrest := blocks_length_le hstream
    obtain ⟨trailer, htrailer, hpasses⟩ := (trailerAt_iff hrest).mp hmatches
    exact ⟨ts, rest, trailer, hstream, hexpand, htrailer, hpasses, trailerAt_drop hrest htrailer⟩
  induction h generalizing k with
  | last hlast =>
    obtain ⟨ts, rest, trailer, hstream, hexpand, htrailer, hpasses, htail⟩ := hends hpart hlast
    exact ⟨[(ts, trailer)], [(_, trailer)], .last hstream htrailer (nextMember_eq_none htail.symm),
      .cons hexpand .nil, by simpa using hpasses, by simp⟩
  | next hfirst hmore hheader _ ih =>
    obtain ⟨ts, rest, trailer, hstream, hexpand, htrailer, hpasses, rfl⟩ := hends hpart hfirst
    rw [List.drop_drop] at ih
    obtain ⟨members, outs, hparse, hexpands, hpass, rfl⟩ := ih rfl
    exact ⟨(ts, trailer) :: members, (_, trailer) :: outs,
      .next hstream htrailer (nextMember_iff.mpr ⟨hmore, _, hheader, rfl⟩) hparse,
      .cons hexpand hexpands, List.forall_mem_cons.mpr ⟨hpasses, hpass⟩, by simp⟩

/-- The members at a position of a body are those of the bytes there. -/
theorem bodyMembers_of_membersAt (h : MembersAt crc body (8 * k) os) :
    BodyMembers crc (body.drop k) os := by
  obtain ⟨members, outs, hparse, hexpands, hpass, rfl⟩ := h
  have hends {k : ℕ} {ts : List Token} {rest : List Bool} {trailer : Trailer} {o : List UInt8}
      (hstream : Stream 0 ((bits body).drop (8 * k)) ts rest) (hexpand : expand id [] ts = some o)
      (htrailer : trailerAt body (8 * body.length - rest.length) = .ok trailer)
      (hpasses : Passes crc (o, trailer)) :
      Ends crc (body.drop k) (bits (body.drop k)) [] o
        (body.drop (trailer.trailerInputByte + 8)) := by
    have hrest := blocks_length_le hstream
    refine (ends_of_suffix (List.drop_suffix k body) List.suffix_rfl).mpr ⟨rest, ?_, ?_, ?_⟩
    · rw [bits_drop]
      exact ⟨ts, hstream, hexpand⟩
    · exact (trailerAt_iff hrest).mpr ⟨trailer, htrailer, hpasses⟩
    · exact (trailerAt_drop hrest htrailer).symm
  generalize hpos : 8 * k = pos at hparse
  induction hparse generalizing k outs with
  | last hstream htrailer hnext =>
    subst hpos
    cases hexpands with
    | cons hexpand hrest =>
      cases hrest
      have hlast := hends hstream hexpand htrailer (hpass _ List.mem_cons_self)
      rw [List.drop_eq_nil_of_le (nextMember_none hnext)] at hlast
      simpa using BodyMembers.last hlast
  | next hstream htrailer hnext _ ih =>
    subst hpos
    cases hexpands with
    | cons hexpand hrest =>
      rw [List.forall_mem_cons] at hpass
      obtain ⟨hmore, headerLen, hheader, rfl⟩ := nextMember_iff.mp hnext
      have hfirst := hends hstream hexpand htrailer hpass.1
      have htail := ih _ hrest hpass.2 rfl
      rw [← List.drop_drop] at htail
      rw [List.map_cons, List.flatten_cons]
      exact .next hfirst hmore hheader htail

/-- The members of a body are those from its start on. -/
theorem bodyMembers_iff_membersAt : BodyMembers crc body os ↔ MembersAt crc body 0 os := by
  constructor
  · intro h
    exact membersAt_of_bodyMembers (k := 0) (by rwa [List.drop_zero])
  · intro h
    have h' := bodyMembers_of_membersAt (k := 0) h
    rwa [List.drop_zero] at h'

end Pipeline

end RustyRapidgzip
