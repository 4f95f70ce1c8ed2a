import RustyRapidgzip.Deflate.Tokens
import RustyRapidgzip.Pipeline.Behind
import RustyRapidgzip.Pipeline.Mismatch

/-!
# Members in isolation

The serial decoder starts every member with an empty window, and the threads decode each one
behind those before it. That makes a difference where the members match their trailers behind each
other and some copy still reaches before the first byte of its own member. Everywhere else every
run of the threads rejects what the serial decoder rejects.
-/

namespace RustyRapidgzip

open LsbBits Reference Lz Crc Threads Transition

namespace Pipeline

/-- No copy of a body reaches before the first byte of its own member. -/
def Isolated (body : List UInt8) : Prop :=
  ∀ members, BodyParse body 0 members → ∃ outs, Expands [] members outs

/-- Members that pass their checks behind each other decode each one on its own. -/
def Apart (crc : Checksum) (body : List UInt8) : Prop :=
  ∀ members outs, BodyParse body 0 members → ExpandsBehind [] members outs →
    (∀ m ∈ outs, Passes crc m) → ∃ outs', Expands [] members outs'

section Cells

variable {cells : List ℕ} {bytes : List UInt8} {cell : ℕ} {b : UInt8}

/-- Without a history only bytes stand for something. -/
theorem resolveCell_nil (h : resolveCell [] cell = some b) :
    cell &&& MARKER16 = 0 ∧ narrow cell = b := by
  by_cases hbyte : cell &&& MARKER16 = 0
  · rw [resolveCell_byte [] hbyte, Option.some.injEq] at h
    exact ⟨hbyte, h⟩
  · simp [resolveCell, hbyte] at h

/-- Cells that resolve without a tail are their bytes. -/
theorem map_narrow_of_resolve (h : cells.map (resolveCell []) = bytes.map some) :
    cells.map narrow = bytes := by
  induction cells generalizing bytes with
  | nil =>
    cases bytes with
    | nil => rfl
    | cons b bytes => cases h
  | cons cell cells ih =>
    cases bytes with
    | nil => cases h
    | cons b bytes =>
      rw [List.map_cons, List.map_cons, List.cons.injEq] at h
      rw [List.map_cons, ih h.2, (resolveCell_nil h.1).2]

/-- Cells that resolve without a tail have no markers. -/
theorem nearMarkers_of_resolve (h : cells.map (resolveCell []) = bytes.map some) :
    NearMarkers 0 cells := by
  intro i cell hcell hmarker
  have hget : (bytes.map some)[i]? = some (resolveCell [] cell) := by
    rw [← h, List.getElem?_map, hcell]
    rfl
  rw [List.getElem?_map] at hget
  obtain ⟨b, -, hb⟩ := Option.map_eq_some_iff.mp hget
  exact absurd (resolveCell_nil hb.symm).1 hmarker

end Cells

section OneChunk

variable {body history : List UInt8} {pos endBitHint : ℕ} {first : Bool} {cells : List ℕ}
  {members : List (List Token × Trailer)} {outs : List (List UInt8 × Trailer)}

/-- A member is added to a chunk that holds all bytes before it. -/
theorem adds_behind (hcells : cells.map (resolveCell []) = history.map some)
    (hfirst : first = true → history = []) {ts : List Token} (hts : ∀ t ∈ ts, CopyBounds t)
    {out : List UInt8} (hexpand : expand id history ts = some (history ++ out)) :
    ∃ cells', Adds first cells ts cells' ∧
      cells'.map (resolveCell []) = (history ++ out).map some := by
  cases first with
  | true =>
    obtain rfl := hfirst rfl
    obtain rfl : cells = [] := by simpa using hcells
    have hctx : Context true [] [] [] [] :=
      ⟨rfl, fun _ => ⟨rfl, [], List.suffix_rfl, Mmap.lastWindow_nil.symm⟩, by simp⟩
    exact adds_of_expand hctx hts hexpand
  | false =>
    rw [← map_narrow_of_resolve hcells] at hexpand
    refine ⟨_, ⟨out, hexpand, rfl⟩, ?_⟩
    rw [List.map_append, hcells, List.map_append, List.map_map]
    congr 1
    exact List.map_congr_left fun b _ => resolveCell_toNat [] b

/-- One chunk for the whole body holds all members, each decoded behind the others. -/
theorem exists_chunkRun_behind (hhint : 8 * body.length < endBitHint)
    (hbody : BodyParse body pos members) (hexpands : ExpandsBehind history members outs)
    (hcells : cells.map (resolveCell []) = history.map some)
    (hfirst : first = true → history = []) :
    ∃ r, ChunkRun 48 body endBitHint first pos cells r ∧ r.finalBlock = true ∧
      r.cells.map (resolveCell []) = (history ++ (outs.map Prod.fst).flatten).map some ∧
      cut [] (history ++ (outs.map Prod.fst).flatten) history.length (r.members.map Prod.snd) =
        (outs, []) := by
  induction members generalizing pos first cells history outs with
  | nil => exact absurd rfl hbody.ne_nil
  | cons member members ih =>
    obtain ⟨ts, trailer⟩ := member
    have hpos := pos_le_of_bodyParse hbody
    cases hexpands with
    | @cons _ out _ _ _ outs hexpand hrest =>
    rcases hbody.split endBitHint with
      ⟨rest, hblocks, htrailer, hfollows⟩ | ⟨ts₁, ts₂, mid, rfl, hblocks, hbody'⟩
    swap
    · -- no position of the body reaches the bound
      have hstop := stop_of_blocks hblocks rfl
      rw [stopAt, decide_eq_true_eq] at hstop
      omega
    obtain ⟨cells', hadds, hcells'⟩ := adds_behind hcells hfirst hblocks.bounds hexpand
    have hlength : cells'.length = history.length + out.length := by
      simpa using congrArg List.length hcells'
    have htake (more : List UInt8) :
        ((history ++ (out ++ more)).drop history.length).take
          (cells'.length - history.length) = out := by
      rw [List.drop_left, hlength, Nat.add_sub_cancel_left, List.take_left]
    rcases hfollows with ⟨rfl, hnext⟩ | ⟨start, hnext, hbody'⟩
    · cases hrest
      refine ⟨_, .last (by omega) hblocks hadds htrailer hnext, rfl, ?_, ?_⟩
      · simpa using hcells'
      · have h := htake []
        simp only [List.map_cons, List.map_nil, cut, List.flatten_cons, List.flatten_nil, h,
          List.nil_append]
        rw [List.append_nil, List.drop_of_length_le (by rw [List.length_append]; omega)]
    · obtain ⟨r, hrun, hfinal, hrcells, hcut⟩ := @ih _ start false cells' outs hbody' hrest hcells'
        (by simp)
      rw [List.append_assoc] at hrcells hcut
      refine ⟨_, .next (by omega) hblocks hadds htrailer hnext hrun, hfinal, ?_, ?_⟩
      · simpa using hrcells
      · rw [List.length_append, ← hlength] at hcut
        simp only [List.map_cons, cut, List.flatten_cons, htake, hcut, List.nil_append]

end OneChunk

namespace Mmap

section Chains

variable {crc : Checksum} {body : List UInt8} {boundaries : List ℕ} {t : ThreadConfig}
  {rs : List WorkResult}

/-- What a call accepts whose members stand apart is what the serial decoder accepts, and what has
been sent is what they decode to. -/
theorem Succeeds.bodyMembers {r : WorkResult} {ds : List ResolveDone} {bc : ℕ}
    (h : Succeeds (Unbounded.memberConfig crc body boundaries t) rs r ds bc)
    (hapart : Apart crc body) (hnear : NearChunks body (rs ++ [r]))
    (hknown : KnownChunks body (rs ++ [r])) : BodyMembers crc body (sentBytes ds).flatten := by
  obtain ⟨members, outs, hparse, hbehind, hpass, hbytes⟩ := h.exists_behind hnear hknown
  obtain ⟨outs', hexpands⟩ := hapart members outs hparse hbehind hpass
  obtain rfl := hexpands.eq_behind hbehind
  exact bodyMembers_iff_membersAt.mpr ⟨members, _, hparse, hexpands, hpass, hbytes⟩

end Chains

/-! ## One chunk for the whole body -/

/-- One chunk holds the whole body, and its members pass their checks. -/
structure Whole (crc : Checksum) (body : List UInt8) (r : ChunkEnd) (bytes : List UInt8) :
    Prop where
  run : ChunkRun 48 body (noHint body) true 0 [] r
  final : r.finalBlock = true
  cells : r.cells.map (resolveCell []) = bytes.map some
  passes : ∀ m ∈ (cut [] bytes 0 (r.members.map Prod.snd)).1, Passes crc m

section OneChunk

variable {crc : Checksum} {body bytes : List UInt8} {t : ThreadConfig} {r : ChunkEnd}
  {rs : List WorkResult} {members : List (List Token × Trailer)}
  {outs : List (List UInt8 × Trailer)}

/-- Members that pass their checks behind each other fill a chunk. -/
theorem exists_whole (hbody : BodyParse body 0 members) (hexpands : ExpandsBehind [] members outs)
    (hpass : ∀ m ∈ outs, Passes crc m) :
    ∃ r, Whole crc body r (outs.map Prod.fst).flatten := by
  have hhint : 8 * body.length < noHint body := by
    unfold noHint
    omega
  obtain ⟨r, hrun, hfinal, hcells, hcut⟩ :=
    @exists_chunkRun_behind body [] 0 (noHint body) true [] members outs hhint hbody hexpands rfl
      (fun _ => rfl)
  rw [List.nil_append] at hcells hcut
  refine ⟨r, hrun, hfinal, hcells, ?_⟩
  rw [List.length_nil] at hcut
  rwa [hcut]

/-- Every worker decodes the chunk, whatever its buffer holds. -/
theorem Whole.decodes (h : Whole crc body r bytes) {res : Except Error WorkResult}
    (hdecode : Unbounded.Decodes body ⟨0, 0, noHint body⟩ res) : res = .ok (r.result 0) := by
  obtain ⟨scratch, rfl⟩ := hdecode
  have hspec := chunkSpec_decodeOneChunk body scratch ⟨0, 0, noHint body⟩
  cases hres : Unbounded.decodeOneChunk body scratch ⟨0, 0, noHint body⟩ with
  | error e =>
    rw [hres] at hspec
    exact absurd h.run (hspec.2 (Nat.zero_le _) r)
  | ok res =>
    rw [hres] at hspec
    obtain ⟨-, r', hrun, rfl⟩ := hspec
    rw [h.run.unique hrun]

/-- The chunk resolves without a history. -/
theorem Whole.resolves (h : Whole crc body r bytes) :
    ∃ d, resolveJob crc (jobAt [] (r.result 0)) = .ok d ∧ d.chunk.bytes = bytes ∧
      d.memberBoundaries = r.members.map Prod.snd := by
  have hresolve : resolveMarkers (jobAt [] (r.result 0)).chunk (jobAt [] (r.result 0)).prevTail =
      .ok ⟨bytes, []⟩ := by
    rcases resolveMarkers_chunkOf [] (nearMarkers_of_resolve h.cells) with
      ⟨bytes', hsome, hok⟩ | ⟨hnone, -⟩
    · rw [h.cells] at hsome
      rwa [List.map_injective_iff.mpr (Option.some_injective _) hsome]
    · rw [h.cells] at hnone
      simp at hnone
  obtain ⟨d, hjob, hchunk, hboundaries⟩ := resolveJob_of_resolveMarkers crc hresolve
  exact ⟨d, hjob, by rw [hchunk], hboundaries⟩

/-- The members of the chunk pass their checks. -/
theorem Whole.checks (h : Whole crc body r bytes) {d : ResolveDone}
    (hjob : resolveJob crc (jobAt [] (r.result 0)) = .ok d) (hbytes : d.chunk.bytes = bytes)
    (hboundaries : d.memberBoundaries = r.members.map Prod.snd) :
    ∃ m, stitchAll crc [d] = .ok m := by
  have hresolves : Resolves (Unbounded.memberConfig crc body [0] twoThreads) [r.result 0] [d] :=
    @Resolves.snoc _ [] [] _ _ .nil hjob
  have hcuttable : ∀ d' ∈ [d], Cuttable d' := by
    intro d' hd'
    have hlength : r.cells.length = bytes.length := by
      simpa using congrArg List.length h.cells
    rw [List.mem_singleton.mp hd', Cuttable, hbytes, hboundaries, ← hlength]
    exact h.run.offsets
  have hcut : (cutAll [d]).1 = (cut [] bytes 0 (r.members.map Prod.snd)).1 := by
    simp [cutAll, hbytes, hboundaries]
  refine ⟨_, (stitchAll_iff hresolves hcuttable).mpr ⟨?_, rfl⟩⟩
  rw [hcut]
  exact h.passes

/-- A body that fills a chunk is a call with one result, if it finds no boundary. -/
theorem Whole.lone (h : Whole crc body r bytes) {build : Build} (t : ThreadConfig)
    (hfits : ItemFits build body ⟨0, 0, noHint body⟩) :
    ∃ d, Lone (memberConfig build crc body [0] t) (r.result 0) d ∧ d.chunk.bytes = bytes := by
  obtain ⟨d, hjob, hbytes, hboundaries⟩ := h.resolves
  obtain ⟨mb, hlast, -⟩ := h.run.getLast? h.final
  exact ⟨d,
    { items := length_workItems
      decodes := by
        intro item res hitem hdecode
        obtain ⟨-, hhint⟩ := @single_item _ _ [] hitem
        rw [hhint] at hdecode
        exact h.decodes (hfits.decodes hdecode)
      final := h.final
      job := hjob
      checks := h.checks hjob hbytes hboundaries
      consumed := ⟨mb, hlast⟩ }, hbytes⟩

/-- A call accepts a body that fills a chunk, if it finds no boundary. -/
theorem Whole.inevitable (h : Whole crc body r bytes) {build : Build}
    (hfits : ItemFits build body ⟨0, 0, noHint body⟩) :
    Inevitable (Step (memberConfig build crc body [0] t))
      (fun s => s.sink.received.flatten = bytes ∧ ∃ res, s.Returned (.ok res)) (init _) := by
  obtain ⟨d, hlone, rfl⟩ := h.lone t hfits
  refine (inevitable_returned _).mono fun s ⟨hreach, res, hreturned⟩ => ?_
  obtain ⟨-, hreceived, hok⟩ := hlone.returned hreach hreturned
  rw [hreceived]
  exact ⟨by simp, hok⟩

end OneChunk

/-- On a body whose members stand apart, every run of a call whose items fit rejects what the
serial decoder rejects, wherever the boundaries are. If they do not, the serial decoder rejects the
body, and a call that finds no boundary in it accepts it. -/
theorem rejects_of_apart (build : Build) (crc : Checksum) (input : List UInt8)
    (bodyOffset chunkSizeBytes : ℕ) :
    (Apart crc (input.drop bodyOffset) → ∀ (boundaries : List ℕ) (t : ThreadConfig),
      CallFits build chunkSizeBytes (input.drop bodyOffset)
        (Unbounded.memberConfig crc (input.drop bodyOffset) boundaries t) →
      (∀ rs, Chain (Unbounded.memberConfig crc (input.drop bodyOffset) boundaries t) rs →
        NearChunks (input.drop bodyOffset) rs ∧ KnownChunks (input.drop bodyOffset) rs) →
      ∀ e, serialDecodeMember crc input bodyOffset chunkSizeBytes = .error e →
        (∃ rounds targets,
          searchTargets chunkSizeBytes (input.drop bodyOffset) rounds = .ok targets) ∧
        Inevitable (Step (memberConfig build crc (input.drop bodyOffset) boundaries t))
          (fun s => ∃ e', s.Returned (.error e')) (init _)) ∧
    (¬Apart crc (input.drop bodyOffset) →
      (∃ e, serialDecodeMember crc input bodyOffset chunkSizeBytes = .error e) ∧
      (ItemFits build (input.drop bodyOffset) ⟨0, 0, noHint (input.drop bodyOffset)⟩ → ∀ t,
        Inevitable (Step (memberConfig build crc (input.drop bodyOffset) [0] t))
          (fun s => ∃ res, s.Returned (.ok res)) (init _))) := by
  have houtcome := serialOutcome_serialDecodeMember crc input bodyOffset chunkSizeBytes
  constructor
  · intro hapart boundaries t hfits hchunks e hserial
    rw [hserial] at houtcome
    refine ⟨hfits.chunkSize.exists_searchTargets,
      (inevitable_returned _).mono fun s ⟨hreach, res, hreturned⟩ => ?_⟩
    rcases returned_of_itemsFit hfits.items hreach hreturned with
      ⟨rs, r, ds, bc, failures, -, hsucceeds, -, -⟩ | ⟨e', rfl, -⟩
    · obtain ⟨hnear, hknown⟩ := hchunks _ hsucceeds.chain
      exact absurd (hsucceeds.bodyMembers hapart hnear hknown) (houtcome.2 _)
    · exact ⟨e', hreturned⟩
  · intro hreaching
    unfold Apart at hreaching
    push Not at hreaching
    obtain ⟨members, outs, hbody, hbehind, hpass, hown⟩ := hreaching
    constructor
    · cases hserial : serialDecodeMember crc input bodyOffset chunkSizeBytes with
      | error e => exact ⟨e, rfl⟩
      | ok r =>
        obtain ⟨⟨total, consumed, chunks⟩, sent⟩ := r
        rw [hserial] at houtcome
        obtain ⟨members', outs', hbody', hexpands', -, -⟩ :=
          bodyMembers_iff_membersAt.mp houtcome.1
        rw [hbody'.unique hbody] at hexpands'
        exact absurd hexpands' (hown outs')
    · intro hfits t
      obtain ⟨r, hwhole⟩ := exists_whole hbody hbehind hpass
      exact (hwhole.inevitable hfits).mono fun s hs => hs.2

/-- Two members: a stored byte, and a copy of three bytes at distance 1. -/
def reachingBack : List UInt8 :=
  [0x1f, 0x8b, 8, 0, 0, 0, 0, 0, 0, 3, 1, 1, 0, 0xfe, 0xff, 65, 139, 158, 217, 211, 1, 0, 0, 0,
    0x1f, 0x8b, 8, 0, 0, 0, 0, 0, 0, 3, 3, 2, 0, 167, 49, 160, 102, 3, 0, 0, 0]

/-- The members of this body. -/
def reachingBackMembers : List (List Token × Trailer) :=
  [([Token.lit 65], ⟨3554254475, 1, 6⟩), ([Token.copy 3 1], ⟨1721774503, 3, 27⟩)]

/-- The body has two members, and the second one copies from the first. -/
theorem bodyParse_reachingBack : BodyParse (reachingBack.drop 10) 0 reachingBackMembers := by
  have hfirst : readStream 280 ((bits (reachingBack.drop 10)).drop 0) =
      some ([Token.lit 65], (bits (reachingBack.drop 10)).drop 48) := by
    decide +kernel
  have hsecond : readStream 280 ((bits (reachingBack.drop 10)).drop 192) =
      some ([Token.copy 3 1], (bits (reachingBack.drop 10)).drop 214) := by
    decide +kernel
  have hlength (n : ℕ) : ((bits (reachingBack.drop 10)).drop n).length ≤ 280 := by
    rw [List.length_drop, bits_length]
    exact Nat.sub_le _ _
  exact .next ((readStream_iff (hlength 0)).mp hfirst) (by decide +kernel) (by decide +kernel)
    (.last ((readStream_iff (hlength 192)).mp hsecond) (by decide +kernel) (by decide +kernel))

/-- Behind the first member the second one expands. -/
theorem expandsBehind_reachingBack : ExpandsBehind [] reachingBackMembers
    [([65], ⟨3554254475, 1, 6⟩), ([65, 65, 65], ⟨1721774503, 3, 27⟩)] :=
  .cons rfl (.cons rfl .nil)

/-- Both outputs match their trailers. -/
theorem passes_reachingBack : ∀ m ∈ [([65], (⟨3554254475, 1, 6⟩ : Trailer)),
    ([65, 65, 65], ⟨1721774503, 3, 27⟩)], Passes crc32 m := by
  have hfirst : Passes crc32 ([65], ⟨3554254475, 1, 6⟩) := ⟨by decide +kernel, rfl⟩
  have hsecond : Passes crc32 ([65, 65, 65], ⟨1721774503, 3, 27⟩) := ⟨by decide +kernel, rfl⟩
  simp [hfirst, hsecond]

/-- The second member copies from the first one. -/
theorem not_expands_reachingBack : ¬∃ outs, Expands [] reachingBackMembers outs := by
  rintro ⟨outs, hexpands⟩
  cases hexpands with
  | cons _ hrest =>
    cases hrest with
    | cons hexpand _ => cases hexpand

/-- The members match their trailers behind each other, and do not decode each on its own. -/
theorem not_apart_reachingBack : ¬Apart crc32 (reachingBack.drop 10) := fun h =>
  not_expands_reachingBack (h _ _ bodyParse_reachingBack expandsBehind_reachingBack
    passes_reachingBack)

/-- The second member is one fixed block. -/
theorem itemFits_reachingBack (item : WorkItem) :
    ItemFits narrow16 (reachingBack.drop 10) item :=
  itemFits_of_plainMembers narrow16 (by decide) (by decide +kernel) item

/-- The serial decoder rejects the copy, and a call with two workers accepts it. -/
theorem reachingBack_accepted :
    serialDecodeMember crc32 reachingBack 10 0 =
      .error (.deflate (.invalid "back-reference distance out of bounds")) ∧
    Inevitable (Step (memberConfig narrow16 crc32 (reachingBack.drop 10) [0] twoThreads))
      (fun s => s.sink.received.flatten = [65, 65, 65, 65] ∧ ∃ res, s.Returned (.ok res))
      (init _) := by
  obtain ⟨r, hwhole⟩ := exists_whole bodyParse_reachingBack expandsBehind_reachingBack
    passes_reachingBack
  exact ⟨by decide +kernel, hwhole.inevitable (itemFits_reachingBack _)⟩

/-- The only member of the body decodes on its own. -/
theorem apart_wrongMember : Apart crc32 (wrongMember.drop 10) := by
  intro members _ hmembers _ _
  rw [hmembers.unique bodyParse_wrongMember]
  exact ⟨_, expands_wrongMember⟩

/-- Both parts at fixed bodies: a member with a wrong checksum, which is rejected, and two members
of which one copies from the other. -/
theorem rejects_of_apart_members :
    Inevitable (Step (memberConfig narrow16 crc32 (wrongMember.drop 10) [0, 5] twoThreads))
      (fun s => ∃ e, s.Returned (.error e)) (init _) ∧
    Inevitable (Step (memberConfig narrow16 crc32 (reachingBack.drop 10) [0] twoThreads))
      (fun s => ∃ res, s.Returned (.ok res)) (init _) := by
  have hnear := nearChunks_wrongMember [0, 5] twoThreads
  exact ⟨((rejects_of_apart narrow16 crc32 wrongMember 10 0).1 apart_wrongMember [0, 5] twoThreads
      ⟨chunkSizeFits_of_le (by decide) (by decide), itemsFit_wrongMember _⟩
      (fun rs hchain => ⟨hnear rs hchain,
        hchain.knownChunks bodyParse_wrongMember expands_wrongMember (hnear rs hchain)⟩)
      _ serialDecodeMember_wrongMember).2,
    ((rejects_of_apart narrow16 crc32 reachingBack 10 0).2 not_apart_reachingBack).2
      (itemFits_reachingBack _) twoThreads⟩

end Mmap

end Pipeline

end RustyRapidgzip
