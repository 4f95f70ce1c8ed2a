import RustyRapidgzip.Pipeline.Overrun

/-!
# The integrity of a result

Whatever the body holds, a call that returns a result has sent the resolved chunks of a whole
chain. The boundaries of the chain cut the bytes that were sent into members, and each member
matches the trailer that the body holds for it.
-/

namespace RustyRapidgzip

open LsbBits Reference Lz Crc Threads Transition

namespace Pipeline

/-- The body holds this trailer. -/
def TrailerIn (body : List UInt8) (trailer : Trailer) : Prop :=
  trailer.trailerInputByte + 8 ≤ body.length ∧
    trailer.crcExpected = leNat ((body.drop trailer.trailerInputByte).take 4) ∧
    trailer.isizeExpected = leNat ((body.drop (trailer.trailerInputByte + 4)).take 4)

/-- The boundaries of a chunk that follows `base` bytes. -/
def shiftBoundaries (base : ℕ) (boundaries : List MemberBoundary) : List MemberBoundary :=
  boundaries.map fun mb => { mb with byteOffsetInChunk := base + mb.byteOffsetInChunk }

/-- The boundaries of chunks that follow `base` bytes. -/
def boundariesFrom (base : ℕ) : List WorkResult → List MemberBoundary
  | [] => []
  | r :: rs => shiftBoundaries base r.memberBoundaries ++
      boundariesFrom (base + r.chunk.bytes.length) rs

section Boundaries

variable {body a b own : List UInt8} {n m cursor base : ℕ}
  {boundaries boundaries' : List MemberBoundary} {rs : List WorkResult} {r : WorkResult}

/-- The boundaries of the last chunk lie behind the bytes of the others. -/
theorem boundariesFrom_snoc : boundariesFrom base (rs ++ [r]) = boundariesFrom base rs ++
    shiftBoundaries (base + (rs.map fun r => r.chunk.bytes.length).sum) r.memberBoundaries := by
  induction rs generalizing base with
  | nil => simp [boundariesFrom]
  | cons r' rs ih =>
    rw [List.cons_append, boundariesFrom, ih, boundariesFrom, List.append_assoc, List.map_cons,
      List.sum_cons, Nat.add_assoc]

/-- Offsets may be counted from an earlier place. -/
theorem Offsets.shift (h : Offsets m cursor boundaries) :
    Offsets (n + m) (n + cursor) (shiftBoundaries n boundaries) := by
  induction boundaries generalizing cursor with
  | nil => exact Nat.add_le_add_left h n
  | cons mb boundaries ih => exact ⟨Nat.add_le_add_left h.1 n, ih h.2⟩

/-- The boundaries of two chunks, one behind the other. -/
theorem Offsets.append (h : Offsets n cursor boundaries) (h' : Offsets m 0 boundaries') :
    Offsets (n + m) cursor (boundaries ++ shiftBoundaries n boundaries') := by
  induction boundaries generalizing cursor with
  | nil =>
    have hshift := h'.shift (n := n)
    have hcursor : cursor ≤ n := h
    cases boundaries' with
    | nil =>
      have : cursor ≤ n + m := by omega
      exact this
    | cons mb boundaries' => exact ⟨by have := hshift.1; omega, hshift.2⟩
  | cons mb boundaries ih => exact ⟨h.1, ih h.2⟩

/-- Cutting may start at an earlier place. -/
theorem cut_shift : cut own (a ++ b) (a.length + cursor) (shiftBoundaries a.length boundaries) =
    cut own b cursor boundaries := by
  induction boundaries generalizing own cursor with
  | nil => simp [shiftBoundaries, cut]
  | cons mb boundaries ih =>
    have hih := @ih [] mb.byteOffsetInChunk
    simp only [shiftBoundaries, List.map_cons, cut] at hih ⊢
    rw [hih, List.drop_length_add_append, Nat.add_sub_add_left]

/-- Cutting two chunks, one behind the other. -/
theorem cut_append (h : Offsets a.length cursor boundaries) :
    cut own (a ++ b) cursor (boundaries ++ shiftBoundaries a.length boundaries') =
      ((cut own a cursor boundaries).1 ++ (cut (cut own a cursor boundaries).2 b 0 boundaries').1,
        (cut (cut own a cursor boundaries).2 b 0 boundaries').2) := by
  induction boundaries generalizing own cursor with
  | nil =>
    have hdrop : (a ++ b).drop cursor = a.drop cursor ++ b := List.drop_append_of_le_length h
    cases boundaries' with
    | nil => simp [shiftBoundaries, cut, hdrop]
    | cons mb boundaries' =>
      have htake : ((a ++ b).drop cursor).take (a.length + mb.byteOffsetInChunk - cursor) =
          a.drop cursor ++ b.take mb.byteOffsetInChunk := by
        have hcursor : cursor ≤ a.length := h
        rw [hdrop, List.take_append, List.take_of_length_le (by rw [List.length_drop]; omega),
          List.length_drop]
        congr 2
        omega
      have hshift := @cut_shift a b [] mb.byteOffsetInChunk boundaries'
      simp only [shiftBoundaries, List.nil_append, List.map_cons, cut] at hshift ⊢
      rw [htake, hshift, List.drop_zero, Nat.sub_zero, List.append_assoc]
  | cons mb boundaries ih =>
    have hih := @ih [] mb.byteOffsetInChunk h.2
    have hle : mb.byteOffsetInChunk ≤ a.length := h.2.le
    have htake : ((a ++ b).drop cursor).take (mb.byteOffsetInChunk - cursor) =
        (a.drop cursor).take (mb.byteOffsetInChunk - cursor) := by
      rw [List.drop_append_of_le_length (h.1.trans hle),
        List.take_append_of_le_length (by rw [List.length_drop]; omega)]
    simp only [List.cons_append, cut]
    rw [htake, hih]

/-- The pieces have the trailers of their boundaries. -/
theorem cut_trailers : (cut own a cursor boundaries).1.map Prod.snd =
    boundaries.map MemberBoundary.toTrailer := by
  induction boundaries generalizing own cursor with
  | nil => rfl
  | cons mb boundaries ih => simp [cut, ih]

/-- A trailer that is read stands in the body. -/
theorem trailerIn_of_trailerAt {trailer : Trailer} {endBit : ℕ}
    (h : trailerAt body endBit = .ok trailer) : TrailerIn body trailer := by
  obtain ⟨hbyte, hroom⟩ := trailerAt_ok h
  unfold trailerAt at h
  simp only [if_neg (Nat.not_lt.mpr hroom)] at h
  cases h
  exact ⟨hroom, rfl, rfl⟩

/-- The boundaries of a chunk are trailers that the body holds. -/
theorem ChunkRun.trailerIn {room endBitHint pos : ℕ} {first : Bool} {cells : List ℕ} {r : ChunkEnd}
    (h : ChunkRun room body endBitHint first pos cells r) :
    ∀ mb ∈ r.members.map Prod.snd, TrailerIn body mb.toTrailer := by
  induction h with
  | full _ => simp
  | part _ _ _ => simp
  | last _ _ _ htrailer _ =>
    intro mb hmb
    rw [List.mem_singleton.mp hmb]
    exact trailerIn_of_trailerAt htrailer
  | next _ _ _ htrailer _ _ ih =>
    rw [List.map_cons, List.forall_mem_cons]
    exact ⟨trailerIn_of_trailerAt htrailer, ih⟩

/-- The last chunk ends where the body ends. -/
theorem ChunkRun.endBit_eq {room endBitHint pos : ℕ} {first : Bool} {cells : List ℕ} {r : ChunkEnd}
    (h : ChunkRun room body endBitHint first pos cells r) (hfinal : r.finalBlock = true) :
    r.endBit = 8 * body.length := by
  induction h with
  | full _ => cases hfinal
  | part _ _ _ => cases hfinal
  | last _ _ _ _ _ => rfl
  | next _ _ _ _ _ _ ih => exact ih hfinal

end Boundaries

namespace Mmap

section Sent

variable {crc : Checksum} {body : List UInt8} {boundaries : List ℕ} {t : ThreadConfig}
  {c : Config} {rs : List WorkResult} {r : WorkResult} {ds : List ResolveDone}

/-- A resolved chunk has a byte for each byte of its job. -/
theorem length_resolveJob {job : ResolveJob} {d : ResolveDone}
    (h : resolveJob crc job = .ok d) : d.chunk.bytes.length = job.chunk.bytes.length := by
  unfold resolveJob resolveMarkers at h
  cases hfill : fillMarkers job.prevTail job.chunk.markers job.chunk.bytes with
  | error e =>
    rw [hfill] at h
    cases h
  | ok bytes =>
    rw [hfill] at h
    cases h
    rw [(fillMarkers_eq_ok_iff.mp hfill).2]
    exact applyMarkers_length _ _ _

/-- As many bytes are sent as the chunks have. -/
theorem length_sentBytes (h : Resolves c rs ds) :
    (sentBytes ds).flatten.length = (rs.map fun r => r.chunk.bytes.length).sum := by
  induction h with
  | nil => rfl
  | snoc _ hjob ih =>
    rw [sentBytes_snoc, List.length_append, ih, length_resolveJob hjob, jobAt, List.map_append,
      List.sum_append]
    simp

/-- The chunks of a chain are cut where its boundaries are. -/
theorem cutAll_eq_cut (hresolves : Resolves c rs ds) (h : ∀ d ∈ ds, Cuttable d) :
    Offsets (sentBytes ds).flatten.length 0 (boundariesFrom 0 rs) ∧
      cutAll ds = cut [] (sentBytes ds).flatten 0 (boundariesFrom 0 rs) := by
  induction hresolves with
  | nil => exact ⟨le_rfl, rfl⟩
  | @snoc rs ds r d hresolves hjob ih =>
    obtain ⟨hoffsets, hcut⟩ := ih fun d hd => h d (List.mem_append_left _ hd)
    have hd : Cuttable d := h d (by simp)
    have hboundaries : d.memberBoundaries = r.memberBoundaries := (resolveJob_ok hjob).2.2
    rw [Cuttable, hboundaries] at hd
    rw [boundariesFrom_snoc, Nat.zero_add, ← length_sentBytes hresolves, sentBytes_snoc,
      List.length_append]
    refine ⟨hoffsets.append hd, ?_⟩
    rw [cutAll_snoc, cut_append hoffsets, ← hcut, hboundaries]

/-- The chunks of a chain are results of the decoder. -/
theorem Chain.exists_chunkRun (h : Chain (Unbounded.memberConfig crc body boundaries t) rs)
    (hr : r ∈ rs) :
    ∃ hint pos r', ChunkRun 0 body hint true pos [] r' ∧ ∃ id, r = r'.result id := by
  induction h with
  | nil => cases hr
  | snoc _ _ _ hdecode ih =>
    rcases List.mem_append.mp hr with hr | hr
    · exact ih hr
    · rw [List.mem_singleton.mp hr]
      obtain ⟨-, r', hrun, rfl⟩ := Unbounded.Decodes.chunkRun hdecode
      exact ⟨_, _, r', hrun, _, rfl⟩

/-- The resolved chunks of a chain can be cut. -/
theorem Chain.cuttable (h : Chain (Unbounded.memberConfig crc body boundaries t) rs)
    (hresolves : Resolves c rs ds) : ∀ d ∈ ds, Cuttable d := by
  induction hresolves with
  | nil => simp
  | @snoc rs ds r d hresolves hjob ih =>
    rw [List.forall_mem_append]
    refine ⟨ih (h.of_prefix (List.prefix_append _ _)), fun d' hd' => ?_⟩
    obtain ⟨_, _, r', hrun, _, rfl⟩ :=
      h.exists_chunkRun (List.mem_append_right rs List.mem_cons_self)
    have hlength := length_resolveJob hjob
    rw [List.mem_singleton.mp hd', Cuttable, (resolveJob_ok hjob).2.2, hlength]
    simp only [jobAt, ChunkEnd.result, chunkOf, List.length_map]
    exact hrun.offsets

/-- The trailers of a chain stand in the body. -/
theorem Chain.trailerIn (h : Chain (Unbounded.memberConfig crc body boundaries t) rs) :
    ∀ mb ∈ boundariesFrom 0 rs, TrailerIn body mb.toTrailer := by
  induction h with
  | nil => simp [boundariesFrom]
  | snoc _ _ _ hdecode ih =>
    rw [boundariesFrom_snoc, List.forall_mem_append]
    refine ⟨ih, fun mb hmb => ?_⟩
    obtain ⟨-, r', hrun, rfl⟩ := Unbounded.Decodes.chunkRun hdecode
    obtain ⟨mb', hmb', rfl⟩ := List.mem_map.mp hmb
    exact hrun.trailerIn mb' hmb'

end Sent

/-- The members of the bytes that were sent, where the boundaries of a chain end them. -/
def sentMembers (rs : List WorkResult) (bytes : List UInt8) : List (List UInt8 × Trailer) :=
  (cut [] bytes 0 (boundariesFrom 0 rs)).1

/-- The chunks end the body: the last one ends there, after the trailer of a member. -/
def EndsBody (body : List UInt8) (rs : List WorkResult) : Prop :=
  ∃ before r mb, rs = before ++ [r] ∧ r.finalBlock = true ∧ r.actualEndBit = 8 * body.length ∧
    r.memberBoundaries.getLast? = some mb ∧ mb.trailerInputByte + 8 = body.length

/-- What a call whose items fit returns on any body: a whole chain has been accepted, the bytes
that its chunks resolve to have been sent, and its members match their trailers. -/
theorem integrity_of_returned {build : Build} {crc : Checksum} {body : List UInt8}
    {boundaries : List ℕ} {t : ThreadConfig} {s : State (memberConfig build crc body boundaries t)}
    {total bc sent failures : ℕ}
    (hfits : ItemsFit build body (Unbounded.memberConfig crc body boundaries t))
    (hreach : Reaches (Step _) (init _) s)
    (hreturned : s.Returned (.ok (total, bc, sent, failures))) :
    Chain (memberConfig build crc body boundaries t) s.stageA.accepted ∧
      EndsBody body s.stageA.accepted ∧
      (∃ ds, Resolves (memberConfig build crc body boundaries t) s.stageA.accepted ds ∧
        s.sink.received = sentBytes ds) ∧
      (∀ m ∈ sentMembers s.stageA.accepted s.sink.received.flatten,
        Passes crc m ∧ TrailerIn body m.2) ∧
      total = s.sink.received.flatten.length ∧ bc = body.length ∧
      sent = s.sink.received.length := by
  have hinv := inv_of_reaches_step hreach
  have hsim := simulates_of_itemsFit hfits
  rcases hinv.returned (sinkClosed_of_reaches hreach).2 hreturned with
    ⟨rs, r, ds, bc', failures', haccepted, hactual, hreceived, hres⟩ | ⟨e, hres, -⟩
  swap
  · cases hres
  cases hres
  have hsucceeds := hsim.succeeds hactual
  rw [haccepted, hreceived]
  obtain ⟨mb, hlast, rfl⟩ := hsucceeds.consumed
  obtain ⟨_, r', hrun, rfl⟩ := hsucceeds.chain.chunkRun
  obtain ⟨mb', hlast', hend⟩ := hrun.getLast? hsucceeds.final
  have hmb : (r'.members.map Prod.snd).getLast? = some mb := hlast
  rw [hlast'] at hmb
  cases hmb
  have hcuttable := hsucceeds.chain.cuttable hsucceeds.resolves
  obtain ⟨m, hstitched⟩ := hsucceeds.checks
  have hpass := ((stitchAll_iff hsucceeds.resolves hcuttable).mp hstitched).1
  rw [(cutAll_eq_cut hsucceeds.resolves hcuttable).2] at hpass
  refine ⟨hactual.chain, ⟨rs, _, mb, rfl, hsucceeds.final, hrun.endBit_eq hsucceeds.final, hlast,
    hend⟩, ⟨ds, hactual.resolves, rfl⟩, fun m hm => ⟨hpass m hm, ?_⟩, rfl, hend,
    (List.length_map _).symm⟩
  have htrailer := List.mem_map_of_mem (f := Prod.snd) hm
  rw [sentMembers, cut_trailers] at htrailer
  obtain ⟨mb', hmb', hsame⟩ := List.mem_map.mp htrailer
  rw [← hsame]
  exact hsucceeds.chain.trailerIn mb' hmb'

/-- A chunk that claims to end the body, with the trailer of an empty member. -/
def forgedChunk : WorkResult := ⟨0, ⟨[], []⟩, true, [⟨⟨0, 0, 0⟩, 0⟩], 0⟩

/-- Once the worker of a valid file has run off its vector, the call may accept a chunk that does
not end the body. -/
theorem overrunFile_accepted :
    (∃ total consumed chunks sent,
      serialDecodeMember crc32 overrunFile 10 0 = .ok ((total, consumed, chunks), sent)) ∧
    decodeOneChunk narrow16 8 (overrunFile.drop 10) [] ⟨0, 0, noHint (overrunFile.drop 10)⟩ =
      .error .fault ∧
    ∃ s, Reaches (Step (memberConfig narrow16 crc32 (overrunFile.drop 10) [0] twoThreads))
        (init _) s ∧
      (∃ res, s.Returned (.ok res)) ∧ ¬EndsBody (overrunFile.drop 10) s.stageA.accepted := by
  obtain ⟨d, hjob, hstitch⟩ : ∃ d, resolveJob crc32 (jobAt [] forgedChunk) = .ok d ∧
      stitchAll crc32 [d] = .ok (OpenMember.mk 0 0 1) :=
    ⟨_, rfl, rfl⟩
  obtain ⟨s, hreach, haccepted, hreturned⟩ := exists_returned_ok twoThreads
    ⟨8, [], decodeOneChunk_overrunBody⟩ rfl rfl hjob hstitch rfl
  refine ⟨exists_serialDecodeMember_overrunBody rfl 0, decodeOneChunk_overrunBody, s, hreach,
    hreturned, ?_⟩
  rintro ⟨before, r, mb, haccepted', -, hend, -⟩
  rw [haccepted] at haccepted'
  obtain ⟨rfl, hr⟩ := List.append_inj' (haccepted'.symm.trans (List.nil_append _).symm) rfl
  rw [List.singleton_inj.mp hr] at hend
  exact absurd hend (by decide +kernel)

/-- A run on a stored byte returns, and its chunks end the body. -/
theorem integrity_of_returned_storedMember :
    ∃ s : State (memberConfig narrow16 crc32 (Gzip.storedMember.drop 10) [0, 5] twoThreads),
      s.sink.received.flatten = [65] ∧
        EndsBody (Gzip.storedMember.drop 10) s.stageA.accepted := by
  have hserial : serialDecodeMember crc32 Gzip.storedMember 10 0 = .ok ((1, 14, 1), [[65]]) := by
    decide +kernel
  have hbody := serialOutcome_serialDecodeMember crc32 Gzip.storedMember 10 0
  rw [hserial] at hbody
  have hfits := @itemsFit_of_plainMembers narrow16 (Gzip.storedMember.drop 10) (by decide)
    (by decide +kernel) (Unbounded.memberConfig crc32 (Gzip.storedMember.drop 10) [0, 5] twoThreads)
  obtain ⟨s, -, hreach, _, hret⟩ := (inevitable_returned
    (memberConfig narrow16 crc32 (Gzip.storedMember.drop 10) [0, 5] twoThreads)).exists_reaches
  obtain ⟨hreceived, failures, hreturned⟩ := delivers_of_returned hbody.1 (by simp)
    (shortChunks_of_length hbody.1 (by simp)) hfits hreach hret
  exact ⟨s, hreceived, (integrity_of_returned hfits hreach hreturned).2.1⟩

end Mmap

end Pipeline

end RustyRapidgzip
