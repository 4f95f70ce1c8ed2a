import RustyRapidgzip.Pipeline.NoLoss

/-!
# All members of a file

`decode_all` decodes the members of a file one after the other, each behind the output of all
those before it. The serial decoder of the pipeline starts each member anew. They accept the same
files, with the same output, but for members that copy from those before them.
-/

namespace RustyRapidgzip

open LsbBits Reference Lz Crc

namespace Pipeline

variable {crc : Checksum} {input body history o os : List UInt8} {headerLen k n : ℕ}
  {members : List (List Token × Trailer)} {outs outs' : List (List UInt8 × Trailer)}

/-- The stream and the trailer of a member at a place of a body. -/
theorem exists_stream_of_member (hmember : Gzip.Member crc input history n o)
    (hheader : Gzip.parseHeader input = .ok headerLen)
    (hbody : input.drop headerLen = body.drop k) :
    ∃ ts rest trailer, Stream 0 ((bits body).drop (8 * k)) ts rest ∧
      expand id history ts = some (history ++ o) ∧
      trailerAt body (8 * body.length - rest.length) = .ok trailer ∧ Passes crc (o, trailer) ∧
      input.drop n = body.drop (trailer.trailerInputByte + 8) := by
  obtain ⟨ts, trailerStart, ⟨headerLen', rest, hheader', hstream, hstart⟩, hexpand, htrailer⟩ :=
    Gzip.member_iff.mp hmember
  rw [hheader, Except.ok.injEq] at hheader'
  subst hheader'
  have hplace := drop_of_stream hbody hstream
  rw [← hstart] at hplace
  rw [hbody, bits_drop] at hstream
  have hrest : rest.length ≤ 8 * body.length := blocks_length_le hstream
  obtain ⟨hroom, hcrc, hsize, rfl⟩ := Gzip.checkTrailer_ok_iff.mp htrailer
  have hmatches : TrailerMatches crc (fromBoundary body rest) o := by
    have hzero := hplace 0
    rw [Nat.add_zero, List.drop_zero] at hzero
    refine ⟨?_, ?_, ?_⟩
    · rw [← hzero, List.length_drop]
      omega
    · rw [← hzero]
      exact hcrc
    · rw [← hplace]
      exact hsize
  obtain ⟨trailer, hat, hpasses⟩ := (trailerAt_iff hrest).mp hmatches
  refine ⟨ts, rest, trailer, hstream, hexpand, hat, hpasses, ?_⟩
  rw [hplace, trailerAt_drop hrest hat]

/-- Members are none, or begin with a header. -/
theorem nil_or_header (h : Gzip.Members crc input history os) : (input = [] ∧ os = []) ∨
    (input ≠ [] ∧ ∃ headerLen, Gzip.parseHeader input = .ok headerLen) := by
  cases h with
  | nil => exact Or.inl ⟨rfl, rfl⟩
  | cons hmember _ =>
    obtain ⟨headerLen, _, hheader, -⟩ := hmember
    refine Or.inr ⟨?_, headerLen, hheader⟩
    rintro rfl
    cases hheader

/-- Members behind each other's output are those of a parse of the body. -/
theorem exists_bodyParse_of_members (h : Gzip.Members crc input history os)
    (hheader : Gzip.parseHeader input = .ok headerLen)
    (hbody : input.drop headerLen = body.drop k) :
    ∃ members outs, BodyParse body (8 * k) members ∧ ExpandsBehind history members outs ∧
      (∀ m ∈ outs, Passes crc m) ∧ os = (outs.map Prod.fst).flatten := by
  induction h generalizing headerLen k with
  | nil => cases hheader
  | @cons input history o os n hmember hrest ih =>
    obtain ⟨ts, rest, trailer, hstream, hexpand, htrailer, hpasses, htail⟩ :=
      exists_stream_of_member hmember hheader hbody
    rcases nil_or_header hrest with ⟨hend, rfl⟩ | ⟨hmore, headerLen', hheader'⟩
    · rw [htail] at hend
      exact ⟨[(ts, trailer)], [(o, trailer)], .last hstream htrailer (nextMember_eq_none hend),
        .cons hexpand .nil, by simpa using hpasses, by simp⟩
    · obtain ⟨members, outs, hparse, hexpands, hpass, rfl⟩ :=
        ih hheader' (by rw [htail, List.drop_drop])
      rw [htail] at hmore hheader'
      exact ⟨(ts, trailer) :: members, (o, trailer) :: outs,
        .next hstream htrailer (nextMember_iff.mpr ⟨hmore, _, hheader', rfl⟩) hparse,
        .cons hexpand hexpands, List.forall_mem_cons.mpr ⟨hpasses, hpass⟩, by simp⟩

/-- Members that do not copy from each other are members of a body. -/
theorem bodyMembers_of_members (h : Gzip.Members crc input [] os)
    (hheader : Gzip.parseHeader input = .ok headerLen)
    (hisolated : Isolated (input.drop headerLen)) :
    BodyMembers crc (input.drop headerLen) os := by
  obtain ⟨members, outs, hparse, hbehind, hpass, rfl⟩ :=
    exists_bodyParse_of_members h hheader (List.drop_zero).symm
  obtain ⟨outs', hexpands⟩ := hisolated members hparse
  obtain rfl := hexpands.eq_behind hbehind
  exact bodyMembers_iff_membersAt.mpr ⟨members, _, hparse, hexpands, hpass, rfl⟩

/-- For a chunk size whose buffer can be reserved the threshold of emission is exact. The serial
decoder then accepts the files that `decode_all` accepts and whose members do not copy from those
before them, and decodes them to the same bytes. -/
theorem serialDecodeMember_iff_decodeAll {chunkSizeBytes : ℕ}
    (hsize : chunkTarget chunkSizeBytes + SERIAL_WINDOW + 64 * 1024 < 2 ^ 63) :
    ThresholdExact chunkSizeBytes ∧
    ((∃ headerLen total consumed chunks sent, Gzip.parseHeader input = .ok headerLen ∧
      serialDecodeMember crc input headerLen chunkSizeBytes =
        .ok ((total, consumed, chunks), sent) ∧ sent.flatten = os) ↔
    ∃ headerLen, Gzip.parseHeader input = .ok headerLen ∧
      Gzip.decodeAll crc input [] = .ok (os.length, os) ∧ Isolated (input.drop headerLen)) := by
  refine ⟨thresholdExact_iff.mpr (by omega), ?_, ?_⟩
  · rintro ⟨headerLen, total, consumed, chunks, sent, hheader, hserial, rfl⟩
    have houtcome := serialOutcome_serialDecodeMember crc input headerLen chunkSizeBytes
    rw [hserial] at houtcome
    have hmembers := houtcome.1
    exact ⟨headerLen, hheader,
      Gzip.decodeAll_iff.mpr ⟨_, hmembers.members hheader, (List.nil_append _).symm, rfl⟩,
      hmembers.isolated⟩
  · rintro ⟨headerLen, hheader, hall, hisolated⟩
    obtain ⟨o, hmembers, heq, -⟩ := Gzip.decodeAll_iff.mp hall
    rw [List.nil_append] at heq
    subst heq
    have hbody := bodyMembers_of_members hmembers hheader hisolated
    have houtcome := serialOutcome_serialDecodeMember crc input headerLen chunkSizeBytes
    cases hserial : serialDecodeMember crc input headerLen chunkSizeBytes with
    | error e =>
      rw [hserial] at houtcome
      exact absurd hbody (houtcome.2 os)
    | ok res =>
      obtain ⟨⟨total, consumed, chunks⟩, sent⟩ := res
      rw [hserial] at houtcome
      exact ⟨headerLen, total, consumed, chunks, sent, hheader, hserial, houtcome.1.unique hbody⟩

/-- A stored byte, with the default chunk size. -/
theorem serialDecodeMember_iff_decodeAll_storedMember : ThresholdExact 0 ∧
    ∃ headerLen, Gzip.parseHeader Gzip.storedMember = .ok headerLen ∧
      Gzip.decodeAll crc32 Gzip.storedMember [] = .ok (1, [65]) ∧
      Isolated (Gzip.storedMember.drop headerLen) := by
  obtain ⟨hexact, hiff⟩ := @serialDecodeMember_iff_decodeAll crc32
    Gzip.storedMember [65] 0 (by decide)
  exact ⟨hexact, hiff.mp ⟨10, 1, 14, 1, [[65]], by decide +kernel, by decide +kernel, rfl⟩⟩

end Pipeline

end RustyRapidgzip
