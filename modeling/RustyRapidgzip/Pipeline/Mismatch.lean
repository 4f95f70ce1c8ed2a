import RustyRapidgzip.Pipeline.Parallel

/-!
# The error of a failing trailer

On a body whose members can all be decoded, a trailer that does not match its member is
reported by both decoders, and for the same member. The serial decoder counts the trailer's
place from the start of the file, the parallel one from the start of the body.
-/

namespace RustyRapidgzip

open LsbBits Reference Lz Crc Threads Transition

namespace Pipeline

/-- What follows a member's trailer: nothing, or further members. -/
def FollowedBy (body : List UInt8) (trailer : Trailer) (outs : List (List UInt8 × Trailer)) :
    Prop :=
  (outs = [] ∧ nextMember body trailer = .ok none) ∨
    ∃ start members, nextMember body trailer = .ok (some start) ∧ BodyParse body start members ∧
      Expands [] members outs

/-- The members of a body from the middle of one on, before the bits `bs` of it, whether or not
they pass their checks. -/
def Framed (body : List UInt8) (bs : List Bool) (history : List UInt8)
    (outs : List (List UInt8 × Trailer)) : Prop :=
  ∃ rest out trailer later, BlocksDecode 0 (fun _ => false) id bs history true rest out ∧
    rest.length ≤ 8 * body.length ∧
    trailerAt body (8 * body.length - rest.length) = .ok trailer ∧
    FollowedBy body trailer later ∧ outs = (out, trailer) :: later

section Serial

variable {crc : Checksum} {body history : List UInt8} {bs mid rest : List Bool}
  {outs later : List (List UInt8 × Trailer)} {trailer : Trailer} {bodyOffset : ℕ}

/-- The members of a body are framed in it. -/
theorem framed_of_bodyParse {pos : ℕ} {members : List (List Token × Trailer)}
    (hbody : BodyParse body pos members) (hexpands : Expands [] members outs) :
    Framed body ((bits body).drop pos) [] outs := by
  cases hbody with
  | last hstream htrailer hnext =>
    cases hexpands with
    | cons hexpand hrest =>
      cases hrest
      exact ⟨_, _, _, [], ⟨_, hstream, hexpand⟩, blocks_length_le hstream, htrailer,
        Or.inl ⟨rfl, hnext⟩, rfl⟩
  | next hstream htrailer hnext hmembers =>
    cases hexpands with
    | cons hexpand hrest =>
      exact ⟨_, _, _, _, ⟨_, hstream, hexpand⟩, blocks_length_le hstream, htrailer,
        Or.inr ⟨_, _, hnext, hmembers, hrest⟩, rfl⟩

/-- Before a trailer there is room for every decoder. -/
theorem Framed.exists_block (h : Framed body bs history outs) :
    ∃ f mid history', BlockDecodes 48 id bs history f mid history' := by
  obtain ⟨rest, out, trailer, later, ⟨ts, hstream, hexpand⟩, hle, htrailer, -, -⟩ := h
  have hroom := room_of_trailerAt hle htrailer
  have hblocks : BlocksDecode 48 (fun _ => false) id bs history true rest out :=
    ⟨ts, hstream.of_rest (by omega), hexpand⟩
  obtain ⟨f, mid, history', hfirst, -⟩ := hblocks.cases
  exact ⟨f, mid, history', hfirst⟩

/-- After a block that is not the final one the member goes on. -/
theorem Framed.after_block {history' : List UInt8} (h : Framed body bs history outs)
    (hblock : BlockDecodes 0 id bs history false mid history') : Framed body mid history' outs := by
  obtain ⟨rest, out, trailer, later, hblocks, hmore⟩ := h
  exact ⟨rest, out, trailer, later, hblock.tail rfl hblocks, hmore⟩

/-- A final block leads to the trailer. -/
theorem Framed.after_final {history' : List UInt8} (h : Framed body bs history outs)
    (hblock : BlockDecodes 0 id bs history true mid history') :
    mid.length ≤ 8 * body.length ∧ ∃ trailer later,
      trailerAt body (8 * body.length - mid.length) = .ok trailer ∧
      FollowedBy body trailer later ∧ outs = (history', trailer) :: later := by
  obtain ⟨rest, out, trailer, later, hblocks, hle, htrailer, hfollowed, rfl⟩ := h
  obtain ⟨-, rfl, rfl⟩ := hblocks.unique hblock.final
  exact ⟨hle, trailer, later, htrailer, hfollowed, rfl⟩

/-- The end of a member is the check of its trailer, and then the next member or the end. -/
theorem endSerialMember_eq (crc : Checksum) (bodyOffset : ℕ) {s : SerialState} {next : Option ℕ}
    (hat : s.br.At body rest)
    (htrailer : trailerAt body (8 * body.length - rest.length) = .ok trailer)
    (hnext : nextMember body trailer = .ok next) :
    ∃ s', endSerialMember crc body bodyOffset s = (do
        validateMember trailer.crcExpected trailer.isizeExpected (crc.hash s.hashed)
          s.memberUncompressed s.memberIdx (bodyOffset + trailer.trailerInputByte)
        match next with
        | none => .ok (.inr (trailer.trailerInputByte + 8, s'))
        | some _ => .ok (.inl s')) ∧
      ∀ start, next = some start → ∃ br, br.At body ((bits body).drop start) ∧
        s' = { s with
          br := br
          hashed := []
          memberIdx := s.memberIdx + 1
          memberUncompressed := 0 } := by
  have halign := hat.byteAlign.input_eq
  have htell := hat.byteAlign.tellBit
  have hle := hat.length_le
  rw [alignBits, List.length_drop] at htell
  obtain ⟨hbyte, hroom⟩ := trailerAt_ok htrailer
  have hplace : s.br.byteAlign.tellBit / 8 = trailer.trailerInputByte := by omega
  unfold trailerAt at htrailer
  simp only [if_neg (Nat.not_lt.mpr hroom), Except.ok.injEq] at htrailer
  unfold endSerialMember
  simp only [hplace]
  rw [if_neg (by omega)]
  have hcrc : trailer.crcExpected = leNat ((body.drop trailer.trailerInputByte).take 4) := by
    rw [← htrailer]
  have hsize : trailer.isizeExpected =
      leNat ((body.drop (trailer.trailerInputByte + 4)).take 4) := by
    rw [← htrailer]
  rw [← hcrc, ← hsize]
  unfold nextMember at hnext
  simp only at hnext
  by_cases hend : body.length ≤ trailer.trailerInputByte + 8
  · rw [if_pos hend] at hnext
    cases hnext
    exact ⟨_, by rw [if_pos hend], by simp⟩
  · rw [if_neg hend] at hnext ⊢
    cases hheader : Gzip.parseHeader (body.drop (trailer.trailerInputByte + 8)) with
    | error e =>
      rw [hheader] at hnext
      cases hnext
    | ok headerLen =>
      rw [hheader] at hnext
      cases hnext
      have hbound := (Gzip.parseHeader_bounds hheader).2
      rw [List.length_drop] at hbound
      obtain ⟨br, hseek, hr, hbits⟩ := BitReader.seekToBit_ok s.br.byteAlign
        (show (trailer.trailerInputByte + 8 + headerLen) * 8 ≤ 8 * s.br.byteAlign.input.length by
          rw [halign]
          omega)
      rw [halign] at hr
      refine ⟨{ s with
        br := br
        hashed := []
        memberIdx := s.memberIdx + 1
        memberUncompressed := 0 }, ?_, ?_⟩
      · simp only [bind, Except.bind, liftGzip_ok, hseek, liftDeflate_ok]
      · rintro _ ⟨⟩
        exact ⟨br, ⟨⟨_, hr, rfl⟩, hbits⟩, rfl⟩

/-- The loop fails with the error of the first member that does not pass its checks. -/
theorem serialLoop_mismatch (chunkTarget : ℕ) {fuel : ℕ} {s : SerialState} {base : List UInt8}
    {e : Error} (hin : InMember body bs base history s) (hframed : Framed body bs history outs)
    (hfails : checkMembers crc bodyOffset s.memberIdx outs = .error e) (hfuel : bs.length < fuel) :
    Loop.iterate (.deflate .outOfFuel) (serialRound crc body bodyOffset chunkTarget) fuel s =
      .error e := by
  induction fuel generalizing s bs base history outs with
  | zero => omega
  | succ fuel ih =>
    rcases serialRound_cases crc bodyOffset chunkTarget hin with
      ⟨_, -, -, hnone⟩ | ⟨s', mid, history', hround, hblock, hin', hidx⟩ |
      ⟨s', mid, history', hround, hblock, hat', hsends', hempty, hhashed, hidx⟩
    · obtain ⟨f, mid, history', hfirst⟩ := hframed.exists_block
      exact absurd hfirst (hnone f mid history')
    · have hshort := hblock.length_lt
      rw [Loop.iterate_continue hround]
      exact ih hin' (hframed.after_block hblock) (by rwa [hidx]) (by omega)
    · have hshort := hblock.length_lt
      obtain ⟨hle, trailer, later, htrailer, hfollowed, rfl⟩ := hframed.after_final hblock
      obtain ⟨next, hnext⟩ : ∃ next, nextMember body trailer = .ok next := by
        rcases hfollowed with ⟨-, hnone⟩ | ⟨_, _, hsome, -⟩
        · exact ⟨_, hnone⟩
        · exact ⟨_, hsome⟩
      obtain ⟨s'', hend, hstart⟩ := endSerialMember_eq crc bodyOffset hat' htrailer hnext
      rw [hend, hsends'.uncompressed_eq, hhashed, hidx] at hround
      rw [checkMembers] at hfails
      cases hvalid : validateMember trailer.crcExpected trailer.isizeExpected (crc.hash history')
          history'.length s.memberIdx (bodyOffset + trailer.trailerInputByte) with
      | error e' =>
        rw [hvalid] at hround hfails
        cases hfails
        exact Loop.iterate_fail hround
      | ok u =>
        rw [hvalid] at hround hfails
        have hlater : checkMembers crc bodyOffset (s.memberIdx + 1) later = .error e := hfails
        rcases hfollowed with ⟨rfl, -⟩ | ⟨start, members, hsome, hmembers, hexpands⟩
        · cases hlater
        · rw [hnext] at hsome
          cases hsome
          obtain ⟨br, hbr, rfl⟩ := hstart start rfl
          have hround' : serialRound crc body bodyOffset chunkTarget s = .ok (.inl
              { s' with
                br := br
                hashed := []
                memberIdx := s'.memberIdx + 1
                memberUncompressed := 0 }) := hround
          rw [Loop.iterate_continue hround']
          refine ih ⟨hbr, hsends'.nextMember hempty hhashed br, Or.inl rfl⟩
            (framed_of_bodyParse hmembers hexpands) (by rwa [hidx]) ?_
          have hbound := nextMember_some hnext
          have hplace := (trailerAt_ok htrailer).1
          rw [List.length_drop, bits_length]
          omega

/-- The serial decoder fails with the error of the first member that does not pass. -/
theorem serialDecodeMember_mismatch {input : List UInt8} {chunkSizeBytes : ℕ}
    {members : List (List Token × Trailer)} {e : Error}
    (hbody : BodyParse (input.drop bodyOffset) 0 members) (hexpands : Expands [] members outs)
    (hfails : checkMembers crc bodyOffset 0 outs = .error e) :
    serialDecodeMember crc input bodyOffset chunkSizeBytes = .error e := by
  have hloop := serialLoop_mismatch (max chunkSizeBytes (64 * 1024))
    (inMember_start (input.drop bodyOffset)) (framed_of_bodyParse hbody hexpands) hfails
    (show _ < 8 * (input.drop bodyOffset).length + 1 by rw [bits_length]; omega)
  unfold serialDecodeMember
  simp only [hloop]
  rfl

end Serial

namespace Mmap

section Mismatch

variable {build : Build} {crc : Checksum} {input : List UInt8} {bodyOffset : ℕ}
  {boundaries : List ℕ}
  {t : ThreadConfig} {members : List (List Token × Trailer)}
  {outs before after : List (List UInt8 × Trailer)} {m : List UInt8 × Trailer}

/-- Where a member fails, every cause to fail is that member. -/
theorem Fails.eq_mismatch {body : List UInt8} {e : Error}
    (hfails : Fails (Unbounded.memberConfig crc body boundaries t) e)
    (hbody : BodyParse body 0 members)
    (hexpands : Expands [] members (before ++ m :: after)) (hbefore : ∀ m ∈ before, Passes crc m)
    (hm : ¬Passes crc m) (hboundaries : boundaries ≠ [])
    (hnear : ∀ rs, Chain (Unbounded.memberConfig crc body boundaries t) rs → NearChunks body rs) :
    e = .gzip (mismatchOf crc 0 before.length m) := by
  obtain ⟨rs, ds, halong, hstitch⟩ := hfails.exists_stitch hbody hexpands hboundaries hnear
  obtain ⟨outs', houts, -⟩ := halong.left
  have hcheck : checkMembers crc 0 0 (cutAll ds).1 = .error e :=
    stitchAll_error halong.resolves halong.cuttable hstitch
  -- the members that the chunks complete come first, so the first failing one is among them
  have hfirst := @checkMembers_error crc 0 0 before after m hbefore hm
  rw [houts, checkMembers_append, hcheck, Nat.zero_add before.length] at hfirst
  exact Except.error.inj hfirst

/-- Where a member fails, the call does not succeed. -/
theorem not_succeeds {body : List UInt8} {rs : List WorkResult} {r : WorkResult}
    {ds : List ResolveDone} {bc : ℕ}
    (h : Succeeds (Unbounded.memberConfig crc body boundaries t) rs r ds bc)
    (hbody : BodyParse body 0 members)
    (hexpands : Expands [] members (before ++ m :: after)) (hm : ¬Passes crc m)
    (hnear : ∀ rs, Chain (Unbounded.memberConfig crc body boundaries t) rs →
      NearChunks body rs) : False := by
  obtain ⟨ds', halong⟩ := h.chain.along hbody hexpands (hnear _ h.chain)
  obtain rfl := h.resolves.unique halong.resolves
  obtain ⟨houts, -⟩ := halong.whole h.final
  obtain ⟨m', hstitch⟩ := h.checks
  have hpass := ((stitchAll_iff halong.resolves halong.cuttable).mp hstitch).1
  exact hm (hpass m (by rw [houts]; simp))

/-- The call returns the error of the first member that does not pass. -/
theorem returned_mismatch {body : List UInt8} {s : State (memberConfig build crc body boundaries t)}
    {res : Except Error (ℕ × ℕ × ℕ × ℕ)} (hreach : Reaches (Step _) (init _) s)
    (hreturned : s.Returned res) (hbody : BodyParse body 0 members)
    (hexpands : Expands [] members (before ++ m :: after)) (hbefore : ∀ m ∈ before, Passes crc m)
    (hm : ¬Passes crc m) (hboundaries : boundaries ≠ [])
    (hnear : ∀ rs, Chain (Unbounded.memberConfig crc body boundaries t) rs → NearChunks body rs)
    (hfits : ItemsFit build body (Unbounded.memberConfig crc body boundaries t)) :
    res = .error (.gzip (mismatchOf crc 0 before.length m)) := by
  rcases returned_of_itemsFit hfits hreach hreturned with
    ⟨rs, r, ds, bc, failures, -, hsucceeds, -, -⟩ | ⟨e, rfl, hfails⟩
  · exact (not_succeeds hsucceeds hbody hexpands hm hnear).elim
  · rw [hfails.eq_mismatch hbody hexpands hbefore hm hboundaries hnear]

/-- Every run of the threads fails with the error of the first member that does not pass. -/
theorem inevitable_mismatch {body : List UInt8} (hbody : BodyParse body 0 members)
    (hexpands : Expands [] members (before ++ m :: after)) (hbefore : ∀ m ∈ before, Passes crc m)
    (hm : ¬Passes crc m) (hboundaries : boundaries ≠ [])
    (hnear : ∀ rs, Chain (Unbounded.memberConfig crc body boundaries t) rs → NearChunks body rs)
    (hfits : ItemsFit build body (Unbounded.memberConfig crc body boundaries t)) :
    Inevitable (Step (memberConfig build crc body boundaries t))
      (fun s => s.Returned (.error (.gzip (mismatchOf crc 0 before.length m)))) (init _) := by
  refine (inevitable_returned _).mono fun s ⟨hreach, res, hreturned⟩ => ?_
  rwa [returned_mismatch hreach hreturned hbody hexpands hbefore hm hboundaries hnear hfits]
    at hreturned

/-- Where a trailer does not match, the serial decoder and every run of the threads report the
first such member with the same numbers, but for the trailer's place: they agree exactly if the
body starts at the start of the file. -/
theorem inevitable_mismatch_iff {chunkSizeBytes : ℕ}
    (hbody : BodyParse (input.drop bodyOffset) 0 members) (hexpands : Expands [] members outs)
    (hfails : ∃ m ∈ outs, ¬Passes crc m) (hboundaries : boundaries ≠ [])
    (hnear : ∀ rs, Chain (Unbounded.memberConfig crc (input.drop bodyOffset) boundaries t) rs →
      NearChunks (input.drop bodyOffset) rs)
    (hfits : CallFits build chunkSizeBytes (input.drop bodyOffset)
      (Unbounded.memberConfig crc (input.drop bodyOffset) boundaries t)) :
    ∃ before m after, outs = before ++ m :: after ∧ (∀ m ∈ before, Passes crc m) ∧
      ¬Passes crc m ∧
      serialDecodeMember crc input bodyOffset chunkSizeBytes =
        .error (.gzip (mismatchOf crc bodyOffset before.length m)) ∧
      Inevitable (Step (memberConfig build crc (input.drop bodyOffset) boundaries t))
        (fun s => s.Returned (.error (.gzip (mismatchOf crc 0 before.length m)))) (init _) ∧
      (Inevitable (Step (memberConfig build crc (input.drop bodyOffset) boundaries t))
        (fun s => s.Returned (.error (.gzip (mismatchOf crc bodyOffset before.length m))))
        (init _) ↔ bodyOffset = 0) := by
  obtain ⟨before, m, after, rfl, hbefore, hm⟩ := exists_first_failing hfails
  have hcheck := @checkMembers_error crc 0 bodyOffset before after m hbefore hm
  rw [Nat.zero_add] at hcheck
  have hserial := @serialDecodeMember_mismatch crc _ bodyOffset input chunkSizeBytes members _
    hbody hexpands hcheck
  have hparallel := inevitable_mismatch hbody hexpands hbefore hm hboundaries hnear hfits.items
  refine ⟨before, m, after, rfl, hbefore, hm, hserial, hparallel, ?_, ?_⟩
  · intro hsame
    obtain ⟨s, hreach, hreturned⟩ := hsame.exists_reaches
    have herror := returned_mismatch hreach hreturned hbody hexpands hbefore hm hboundaries hnear
      hfits.items
    simp only [Except.error.injEq, Error.gzip.injEq] at herror
    exact mismatchOf_inj.mp herror
  · rintro rfl
    exact hparallel

/-- A member of one stored byte, whose trailer has the checksum 0. -/
def wrongMember : List UInt8 :=
  [0x1f, 0x8b, 8, 0, 0, 0, 0, 0, 0, 3, 1, 1, 0, 0xfe, 0xff, 65, 0, 0, 0, 0, 1, 0, 0, 0]

/-- The body has one member of a stored byte. -/
theorem bodyParse_wrongMember :
    BodyParse (wrongMember.drop 10) 0 [([Token.lit 65], ⟨0, 1, 6⟩)] := by
  have hblock : Block 0 (bits (wrongMember.drop 10)) true [Token.lit 65]
      (bits [0, 0, 0, 0, 1, 0, 0, 0]) :=
    @Block.stored 0 _ _ _ _ 1 [65] rfl rfl rfl
  exact .last (.final hblock) (by decide) (by decide)

/-- The member expands to its byte. -/
theorem expands_wrongMember :
    Expands [] [([Token.lit 65], ⟨0, 1, 6⟩)] [([65], ⟨0, 1, 6⟩)] := .cons rfl .nil

/-- All of its chunks are short. -/
theorem nearChunks_wrongMember (boundaries : List ℕ) (t : ThreadConfig) (rs : List WorkResult)
    (hchain : Chain (Unbounded.memberConfig crc32 (wrongMember.drop 10) boundaries t) rs) :
    NearChunks (wrongMember.drop 10) rs :=
  nearChunks_of_length
    (shortChunks_of_expands bodyParse_wrongMember expands_wrongMember (by simp) rs hchain)

/-- A short body makes no worker run off its vector. -/
theorem itemsFit_wrongMember (c : Config) : ItemsFit narrow16 (wrongMember.drop 10) c :=
  itemsFit_of_plainMembers narrow16 (by decide) (by decide +kernel) c

/-- The checksum is wrong. -/
theorem not_passes_wrongMember : ¬Passes crc32 ([65], ⟨0, 1, 6⟩) := by
  have hcrc : crc32.hash [65] = 3554254475 := by decide +kernel
  rintro ⟨h, -⟩
  rw [hcrc] at h
  cases h

/-- The mismatch that is reported. -/
theorem mismatchOf_wrongMember (bodyOffset : ℕ) :
    mismatchOf crc32 bodyOffset 0 ([65], ⟨0, 1, 6⟩) =
      .crcMismatch 0 3554254475 0 1 (bodyOffset + 6) := by
  have hcrc : crc32.hash [65] = 3554254475 := by decide +kernel
  unfold mismatchOf
  rw [if_pos (by rw [hcrc]; decide), hcrc]
  rfl

/-- The theorem at this member, with a boundary in the middle of its block. -/
theorem inevitable_mismatch_iff_wrongMember :
    ∃ before m after, [([65], ⟨0, 1, 6⟩)] = before ++ m :: after ∧
      (∀ m ∈ before, Passes crc32 m) ∧ ¬Passes crc32 m ∧
      serialDecodeMember crc32 wrongMember 10 0 =
        .error (.gzip (mismatchOf crc32 10 before.length m)) ∧
      Inevitable (Step (memberConfig narrow16 crc32 (wrongMember.drop 10) [0, 5] twoThreads))
        (fun s => s.Returned (.error (.gzip (mismatchOf crc32 0 before.length m)))) (init _) ∧
      (Inevitable (Step (memberConfig narrow16 crc32 (wrongMember.drop 10) [0, 5] twoThreads))
        (fun s => s.Returned (.error (.gzip (mismatchOf crc32 10 before.length m))))
        (init _) ↔ 10 = 0) :=
  inevitable_mismatch_iff bodyParse_wrongMember expands_wrongMember
    ⟨_, List.mem_cons_self, not_passes_wrongMember⟩ (by simp)
    (nearChunks_wrongMember [0, 5] twoThreads)
    ⟨chunkSizeFits_of_le (by decide) (by decide), itemsFit_wrongMember _⟩

/-- The serial decoder reports it with the place in the file. -/
theorem serialDecodeMember_wrongMember : serialDecodeMember crc32 wrongMember 10 0 =
    .error (.gzip (.crcMismatch 0 3554254475 0 1 16)) := by
  decide +kernel

/-- The trailer of the member stands at byte 16 of the file, and at byte 6 of the body. -/
theorem wrongMember_trailer_differs :
    serialDecodeMember crc32 wrongMember 10 0 =
      .error (.gzip (.crcMismatch 0 3554254475 0 1 16)) ∧
    Inevitable (Step (memberConfig narrow16 crc32 (wrongMember.drop 10) [0, 5] twoThreads))
      (fun s => s.Returned (.error (.gzip (.crcMismatch 0 3554254475 0 1 6)))) (init _) ∧
    ¬Inevitable (Step (memberConfig narrow16 crc32 (wrongMember.drop 10) [0, 5] twoThreads))
      (fun s => s.Returned (.error (.gzip (.crcMismatch 0 3554254475 0 1 16)))) (init _) := by
  have hbefore : ∀ m ∈ ([] : List (List UInt8 × Trailer)), Passes crc32 m := by simp
  have hboundaries : [0, 5] ≠ [] := by simp
  have hparallel := inevitable_mismatch bodyParse_wrongMember expands_wrongMember hbefore
    not_passes_wrongMember hboundaries (nearChunks_wrongMember [0, 5] twoThreads)
    (itemsFit_wrongMember _)
  rw [show ([] : List (List UInt8 × Trailer)).length = 0 from rfl, mismatchOf_wrongMember]
    at hparallel
  refine ⟨serialDecodeMember_wrongMember, hparallel, fun hsame => ?_⟩
  obtain ⟨s, hreach, hreturned⟩ := hsame.exists_reaches
  have herror := returned_mismatch hreach hreturned bodyParse_wrongMember expands_wrongMember
    hbefore not_passes_wrongMember hboundaries (nearChunks_wrongMember [0, 5] twoThreads)
    (itemsFit_wrongMember _)
  rw [show ([] : List (List UInt8 × Trailer)).length = 0 from rfl, mismatchOf_wrongMember]
    at herror
  cases herror

end Mismatch

end Mmap

end Pipeline

end RustyRapidgzip
