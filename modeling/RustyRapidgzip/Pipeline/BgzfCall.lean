import RustyRapidgzip.Pipeline.Overrun
import RustyRapidgzip.Pipeline.Teardown

/-!
# The result of the BGZF decoder

The bytes of a file whose blocks all decode are sent in the order of the file, each once: the
bytes of its blocks, and then the bytes of the members that follow the blocks, as long as no
worker of the member decoder runs off the vector of its chunk.
-/

namespace RustyRapidgzip

open Crc Threads Transition

namespace Pipeline

namespace Bgzf

/-- A range decodes to these bytes, with an empty buffer. -/
def DecodesTo (crc : Checksum) (file : List UInt8) (range : ℕ × ℕ) (o : List UInt8) : Prop :=
  ∃ member consumed, Gzip.decodeOneIndexedFast crc (slice file range) [] member = .ok (consumed, o)

/-- What follows the blocks decodes to these bytes with the serial decoder, if there is anything,
and has no chunk of 4 GiB. -/
def Config.RestDecodesTo (c : Config) (stop : ℕ) (rest : List UInt8) : Prop :=
  (c.file.length ≤ stop ∧ rest = []) ∨
    (stop < c.file.length ∧ ∃ headerLen, Gzip.parseHeader (c.file.drop stop) = .ok headerLen ∧
      (∃ total consumed chunks sent, serialDecodeMember c.crc c.file (stop + headerLen)
        c.chunkSizeBytes = .ok ((total, consumed, chunks), sent) ∧ rest = sent.flatten) ∧
      ∀ hthreads : 2 ≤ c.numThreads,
        Mmap.ShortChunks (c.unboundedMember hthreads (stop + headerLen)))

/-- What the decoders of the rest need: a chunk size that does not overflow, and items that fit if
there are several threads. -/
def Config.RestFits (c : Config) (stop : ℕ) : Prop :=
  stop < c.file.length → ∀ headerLen, Gzip.parseHeader (c.file.drop stop) = .ok headerLen →
    ChunkSizeFits c.chunkSizeBytes (c.file.drop (stop + headerLen)) ∧
      ∀ hthreads : 2 ≤ c.numThreads, ItemsFit c.build (c.file.drop (stop + headerLen))
        (c.unboundedMember hthreads (stop + headerLen))

section Batches

variable {crc : Checksum} {file out o : List UInt8} {range : ℕ × ℕ} {ranges : List (ℕ × ℕ)}
  {outs : List (List UInt8)} {member : ℕ}

/-- A buffer that is not empty does not matter to a block that decodes. -/
theorem DecodesTo.append (h : DecodesTo crc file range o) (member : ℕ) (out : List UInt8) :
    ∃ consumed, Gzip.decodeOneIndexedFast crc (slice file range) out member =
      .ok (consumed, out ++ o) := by
  obtain ⟨member', consumed, hdecode⟩ := h
  obtain ⟨o', hmember, rfl⟩ := ((Gzip.decodesMember_decodeOneIndexedFast crc (slice file range) []
    member').1 consumed o).mp hdecode
  have hmember' := hmember.append_history out
  rw [List.append_nil] at hmember'
  exact ⟨consumed, ((Gzip.decodesMember_decodeOneIndexedFast crc (slice file range) out
    member).1 consumed _).mpr ⟨_, hmember', rfl⟩⟩

/-- Blocks that decode are decoded behind each other. -/
theorem decodeRanges_eq (h : List.Forall₂ (DecodesTo crc file) ranges outs) :
    decodeRanges crc file member ranges out = .ok (out ++ outs.flatten) := by
  induction h generalizing member out with
  | nil => simp [decodeRanges]
  | cons hrange _ ih =>
    obtain ⟨consumed, hdecode⟩ := hrange.append member out
    simp only [decodeRanges, hdecode]
    rw [ih, List.flatten_cons, List.append_assoc]

/-- Batches of blocks that decode. -/
theorem exists_decodeBatch {batches : List Batch}
    (h : List.Forall₂ (DecodesTo crc file) (batches.flatMap Batch.ranges) outs) :
    ∃ os, List.Forall₂ (fun b o => decodeBatch crc file b = .ok (b.id, o)) batches os ∧
      os.flatten = outs.flatten := by
  induction batches generalizing outs with
  | nil =>
    cases h
    exact ⟨[], .nil, rfl⟩
  | cons b batches ih =>
    rw [List.flatMap_cons] at h
    have hfirst := (List.forall₂_take_append _ _ _ h.flip).flip
    have hrest := (List.forall₂_drop_append _ _ _ h.flip).flip
    obtain ⟨os, hos, hflatten⟩ := ih hrest
    have hbatch : decodeBatch crc file b =
        .ok (b.id, (outs.take b.ranges.length).flatten) := by
      simp only [decodeBatch, decodeRanges_eq hfirst, List.nil_append]
    refine ⟨_ :: os, .cons hbatch hos, ?_⟩
    rw [List.flatten_cons, hflatten, ← List.flatten_append, List.take_append_drop]

end Batches

section Calls

variable {c : Config} {s : State c} {t : Call c} {ranges : List (ℕ × ℕ)} {stop : ℕ}
  {outs : List (List UInt8)} {rest : List UInt8}

/-- After the threads have been joined there is no step of theirs. -/
theorem Step.not_of_finished {s' : State c} (hfinished : s.front.Finished)
    (hphase : s.serializer.phase = .joined) : ¬Step c s s' := by
  intro h
  cases h with
  | front hfront => exact hfinished.not_step hfront
  | recvBatch hphase' _ _ => simp [hphase] at hphase'
  | recvErr hphase' _ _ => simp [hphase] at hphase'
  | recvEnd hphase' _ _ _ => simp [hphase] at hphase'
  | take hphase' _ => simp [hphase] at hphase'
  | deliver hphase' _ => simp [hphase] at hphase'
  | sinkClosed hphase' _ => simp [hphase] at hphase'
  | shutdown hphase' => simp [hphase] at hphase'
  | join hphase' _ => simp [hphase] at hphase'

/-- A call that has joined its threads makes no step. -/
theorem Step.not_joined {s' : State c} (hdone : s.Done) (hphase : s.serializer.phase = .joined) :
    ¬Step c s s' :=
  Step.not_of_finished hdone.finished hphase

/-- What dispatch and the serializer return when all batches have been sent. -/
theorem State.Done.results (hdone : s.Done) :
    s.failure = (walk c.file c.chunkSizeBytes).2 ∧
      s.dispatched.1 = (walk c.file c.chunkSizeBytes).1.pos := by
  simp only [State.failure, State.dispatched, hdone.feeder, hdone.sent.lastErr_eq, Option.none_or,
    and_self]

/-- The members behind the blocks have one output. -/
theorem decoded_unique : Relator.RightUnique (Decoded c) := by
  intro b o o' h h'
  rw [Decoded, h, Except.ok.injEq, Prod.mk.injEq] at h'
  exact h'.2

/-- What has been sent when all batches have been sent. -/
theorem State.Done.received (hdone : s.Done) :
    List.Forall₂ (Decoded c) c.batches s.sink.received := by
  have hdecoded := hdone.sent.decoded
  rwa [hdone.all, List.take_length] at hdecoded

/-- What the call returns when all bytes have been sent. -/
def Call.Delivers (os : List UInt8) (t : Call c) : Prop :=
  ∃ received, t = .returned received (.ok (received.flatten.length, received.length)) ∧
    received.flatten = os

/-- A call that has returned delivers what it has sent, first the blocks and then the members. -/
theorem Call.delivers_returned {received sent : List (List UInt8)} {total chunks uc ch : ℕ}
    {os o : List UInt8} (hreceived : received.flatten = os) (hsent : sent.flatten = o)
    (htotal : total = received.flatten.length) (hchunks : chunks = received.length)
    (huc : uc = sent.flatten.length) (hch : ch = sent.length) :
    Call.Delivers (c := c) (os ++ o)
      (.returned (received ++ sent) (.ok (total + uc, chunks + ch))) := by
  refine ⟨received ++ sent, ?_, by rw [List.flatten_append, hreceived, hsent]⟩
  rw [List.flatten_append, List.length_append, List.length_append, htotal, hchunks, huc, hch]

/-- Blocks with nothing behind them deliver what they have sent. -/
theorem State.Done.delivers (hdone : s.Done) :
    Call.Delivers (c := c) (s.sink.received.flatten ++ []) (.returned s.sink.received
      (.ok (s.serializer.totalUncompressed, s.serializer.chunksSent))) := by
  refine ⟨_, ?_, (List.append_nil _).symm⟩
  rw [hdone.sent.total_eq, hdone.sent.chunks_eq, Nat.add_zero]

/-- The member decoder returns in every run, and the call with it. -/
theorem inevitable_call_of_member {hthreads : 2 ≤ c.numThreads} {bodyOffset : ℕ}
    {Goal : Call c → Prop}
    (h : ∀ m r, Reaches (Mmap.Step _) (Mmap.init _) m → m.Returned r →
      Inevitable (Call.Step c) Goal (.member s hthreads bodyOffset m)) :
    Inevitable (Call.Step c) Goal (.member s hthreads bodyOffset (Mmap.init _)) := by
  refine Inevitable.phase (f := Call.member s hthreads bodyOffset)
    (Reaches (Mmap.Step _) (Mmap.init _)) ((Mmap.inevitable_returned _).mono fun _ h => h.2)
    (fun _ _ hreach hstep => hreach.tail hstep)
    (fun m m' hrunning hstep => .member (not_exists.mp hrunning) hstep) ?_ ?_ .refl
  · intro m t _ ht
    cases ht with
    | member _ hstep => exact Or.inr ⟨_, hstep, rfl⟩
    | returnErr hreturned => exact Or.inl ⟨_, hreturned⟩
    | returnOk hreturned => exact Or.inl ⟨_, hreturned⟩
  · rintro m hreach ⟨r, hr⟩
    exact h m r hreach hr

/-- Where the threads are joined in every run, the call goes on from there. -/
theorem inevitable_call_of_joined {Goal : Call c → Prop}
    (hjoined : Inevitable (Step c) (fun s => s.serializer.phase = .joined) (init c))
    (h : ∀ s, Reaches (Step c) (init c) s → s.serializer.phase = .joined →
      Inevitable (Call.Step c) Goal (.blocks s)) :
    Inevitable (Call.Step c) Goal (.blocks (init c)) := by
  refine Inevitable.phase (f := Call.blocks) (Reaches (Step c) (init c)) hjoined
    (fun _ _ hreach hstep => hreach.tail hstep) (fun s s' _ hstep => .blocks hstep) ?_ h .refl
  intro s t _ ht
  cases ht with
  | blocks hstep => exact Or.inr ⟨_, hstep, rfl⟩
  | fail hphase _ => exact Or.inl hphase
  | done hphase _ _ => exact Or.inl hphase
  | badHeader hphase _ _ _ => exact Or.inl hphase
  | serial hphase _ _ _ _ _ => exact Or.inl hphase
  | serialErr hphase _ _ _ _ _ => exact Or.inl hphase
  | start hphase _ _ _ _ => exact Or.inl hphase

/-- The members that follow the blocks are decoded to the end. -/
theorem inevitable_member {hthreads : 2 ≤ c.numThreads} {bodyOffset : ℕ} {os : List UInt8}
    (hdone : s.Done) (hbody : BodyMembers c.crc (c.file.drop bodyOffset) os)
    (hshort : Mmap.ShortChunks (c.unboundedMember hthreads bodyOffset))
    (hfits : ItemsFit c.build (c.file.drop bodyOffset) (c.unboundedMember hthreads bodyOffset)) :
    Inevitable (Call.Step c) (Call.Delivers (s.sink.received.flatten ++ os))
      (.member s hthreads bodyOffset (Mmap.init _)) := by
  refine inevitable_call_of_member fun m r hreach hr => ?_
  obtain ⟨hreceived, failures, hreturned⟩ := Mmap.delivers_of_returned hbody
    (c.scan_ne_nil _) hshort hfits hreach hr
  refine .ahead ⟨_, .returnOk hreturned⟩ fun t ht => ?_
  cases ht with
  | member hrunning _ => exact absurd hreturned (hrunning _)
  | returnErr hreturned' =>
    rw [Mmap.State.Returned, hreturned] at hreturned'
    cases hreturned'
  | returnOk hreturned' =>
    rw [Mmap.State.Returned, hreturned] at hreturned'
    cases hreturned'
    exact .here (Call.delivers_returned rfl hreceived (by rw [hdone.sent.total_eq, Nat.add_zero])
      hdone.sent.chunks_eq (by rw [hreceived]) rfl)

/-- A file whose batches decode, and whose other members decode with the serial decoder, is sent in
the order of the file, and the call returns. -/
theorem inevitable_delivers {os : List (List UInt8)} (hos : List.Forall₂ (Decoded c) c.batches os)
    (hwalk : (walk c.file c.chunkSizeBytes).2 = none)
    (hrest : c.RestDecodesTo (walk c.file c.chunkSizeBytes).1.pos rest)
    (hfits : c.RestFits (walk c.file c.chunkSizeBytes).1.pos) :
    Inevitable (Call.Step c) (Call.Delivers (os.flatten ++ rest)) (.blocks (init c)) := by
  have hok : ∀ b ∈ c.batches, ∃ bytes, Decoded c b bytes := by
    intro b hb
    obtain ⟨i, hi, rfl⟩ := List.getElem_of_mem hb
    exact ⟨_, hos.get hi (hos.length_eq ▸ hi)⟩
  refine inevitable_call_of_joined (inevitable_joined hok) fun s hreach hphase => ?_
  have hdone := done_of_reaches hok hreach (Or.inr (Or.inr hphase))
  obtain ⟨hfailure, hstop⟩ := hdone.results
  rw [hwalk] at hfailure
  rw [← hstop] at hrest hfits
  have hnone {e : Error} : s.failure ≠ some e := by simp [hfailure]
  rw [decoded_unique.forall₂ hos hdone.received]
  rcases hrest with ⟨hend, rfl⟩ | ⟨hmore, headerLen, hheader,
    ⟨total, consumed, chunks, sent, hserial, rfl⟩, hshort⟩
  · refine .ahead ⟨_, .done hphase hfailure hend⟩ fun t ht => ?_
    cases ht with
    | blocks hstep => exact absurd hstep (Step.not_joined hdone hphase)
    | fail _ hfail => exact absurd hfail hnone
    | done _ _ _ => exact .here (hdone.delivers)
    | badHeader _ _ hmore _ => omega
    | serial _ _ hmore _ _ _ => omega
    | serialErr _ _ hmore _ _ _ => omega
    | start _ _ hmore _ _ => omega
  have houtcome := serialOutcome_serialDecodeMember c.crc c.file (s.dispatched.1 + headerLen)
    c.chunkSizeBytes
  rw [hserial] at houtcome
  obtain ⟨hbody, rfl, -, rfl⟩ := houtcome
  by_cases hthreads : c.numThreads = 1
  · refine .ahead ⟨_, .serial hphase hfailure hmore hheader hthreads hserial⟩ fun t ht => ?_
    cases ht with
    | blocks hstep => exact absurd hstep (Step.not_joined hdone hphase)
    | fail _ hfail => exact absurd hfail hnone
    | done _ _ hend => omega
    | badHeader _ _ _ hheader' => simp [hheader] at hheader'
    | serial _ _ _ hheader' _ hserial' =>
      rw [hheader, Except.ok.injEq] at hheader'
      subst hheader'
      rw [hserial, Except.ok.injEq] at hserial'
      cases hserial'
      exact .here (Call.delivers_returned rfl rfl (by rw [hdone.sent.total_eq, Nat.add_zero])
        hdone.sent.chunks_eq rfl rfl)
    | serialErr _ _ _ hheader' _ hserial' =>
      rw [hheader, Except.ok.injEq] at hheader'
      subst hheader'
      simp [hserial] at hserial'
    | start _ _ _ _ hthreads' => omega
  · have hthreads' : 2 ≤ c.numThreads := by
      have := c.numThreads_pos
      omega
    refine .ahead ⟨_, .start hphase hfailure hmore hheader hthreads'⟩ fun t ht => ?_
    cases ht with
    | blocks hstep => exact absurd hstep (Step.not_joined hdone hphase)
    | fail _ hfail => exact absurd hfail hnone
    | done _ _ hend => omega
    | badHeader _ _ _ hheader' => simp [hheader] at hheader'
    | serial _ _ _ _ hone _ => exact absurd hone hthreads
    | serialErr _ _ _ _ hone _ => exact absurd hone hthreads
    | start _ _ _ hheader' _ =>
      rw [hheader, Except.ok.injEq] at hheader'
      subst hheader'
      exact inevitable_member hdone hbody (hshort _) ((hfits hmore headerLen hheader).2 _)

/-- Blocks that decode are batches that decode. -/
theorem exists_decoded (hwalk : Ranges c.file 0 ranges stop none)
    (hdecode : List.Forall₂ (DecodesTo c.crc c.file) ranges outs) :
    (walk c.file c.chunkSizeBytes).1.pos = stop ∧ (walk c.file c.chunkSizeBytes).2 = none ∧
      ∃ os, List.Forall₂ (Decoded c) c.batches os ∧ os.flatten = outs.flatten := by
  obtain ⟨rfl, rfl, hnone⟩ := (walk_ranges c.file c.chunkSizeBytes).2.unique hwalk
  exact ⟨rfl, hnone, exists_decodeBatch hdecode⟩

/-- A file whose blocks decode, and whose other members decode with the serial decoder, is sent in
the order of the file, and the call returns, if what follows the blocks fits. The search for
boundaries in it ends. -/
theorem inevitable_concatenation (hwalk : Ranges c.file 0 ranges stop none)
    (hdecode : List.Forall₂ (DecodesTo c.crc c.file) ranges outs)
    (hrest : c.RestDecodesTo stop rest) (hfits : c.RestFits stop) :
    (stop < c.file.length → ∀ headerLen, Gzip.parseHeader (c.file.drop stop) = .ok headerLen →
      ∃ rounds targets, searchTargets c.chunkSizeBytes (c.file.drop (stop + headerLen)) rounds =
        .ok targets) ∧
      Inevitable (Call.Step c) (Call.Delivers (outs.flatten ++ rest)) (.blocks (init c)) := by
  obtain ⟨rfl, hnone, os, hos, hflatten⟩ := exists_decoded hwalk hdecode
  rw [← hflatten]
  exact ⟨fun hmore headerLen hheader => (hfits hmore headerLen hheader).1.exists_searchTargets,
    inevitable_delivers hos hnone hrest hfits⟩

/-! ## Runs of a call -/

/-- A run of the threads that decode the blocks is one of the call. -/
theorem Call.reaches_blocks (h : Reaches (Bgzf.Step c) (init c) s) :
    Reaches (Call.Step c) (.blocks (init c)) (.blocks s) := by
  induction h with
  | refl => exact .refl
  | tail _ hstep ih => exact ih.tail (.blocks hstep)

/-- What a run of the member decoder returns, it also returns as a part of the call. -/
theorem Call.exists_reaches_member {hthreads : 2 ≤ c.numThreads} {bodyOffset : ℕ}
    {m : Mmap.State (c.member hthreads bodyOffset)} {r : Except Error (ℕ × ℕ × ℕ × ℕ)}
    (hreach : Reaches (Mmap.Step _) (Mmap.init _) m) (hreturned : m.Returned r) :
    ∃ m', Reaches (Call.Step c) (.member s hthreads bodyOffset (Mmap.init _))
      (.member s hthreads bodyOffset m') ∧ m'.Returned r := by
  have hrun : Reaches (Call.Step c) (.member s hthreads bodyOffset (Mmap.init _))
      (.member s hthreads bodyOffset m) ∨
      ∃ m' r', Reaches (Call.Step c) (.member s hthreads bodyOffset (Mmap.init _))
        (.member s hthreads bodyOffset m') ∧ m'.Returned r' ∧ Reaches (Mmap.Step _) m' m := by
    clear hreturned
    induction hreach with
    | refl => exact Or.inl .refl
    | @tail m₁ m₂ _ hstep ih =>
      rcases ih with hcall | ⟨m', r', hcall, hreturned, hrest⟩
      · by_cases hrunning : ∃ r', m₁.Returned r'
        · obtain ⟨r', hr'⟩ := hrunning
          exact Or.inr ⟨m₁, r', hcall, hr', .single hstep⟩
        · exact Or.inl (hcall.tail (.member (not_exists.mp hrunning) hstep))
      · exact Or.inr ⟨m', r', hcall, hreturned, hrest.tail hstep⟩
  rcases hrun with hcall | ⟨m', r', hcall, hreturned', hrest⟩
  · exact ⟨m, hcall, hreturned⟩
  · have hlast := hreturned'.of_reaches hrest
    rw [Mmap.State.Returned, hreturned] at hlast
    cases hlast
    exact ⟨m', hcall, hreturned'⟩

/-- After the call has returned there is no step. -/
theorem Call.Step.not_of_returned {received : List (List UInt8)} {r : Except Error (ℕ × ℕ)} :
    ¬Call.Step c (.returned received r) t :=
  nofun

/-- A call that has returned an error need not deliver. -/
theorem Call.not_inevitable_delivers {received : List (List UInt8)} {e : Error}
    (h : Reaches (Call.Step c) (.blocks (init c)) (.returned received (.error e)))
    (os : List UInt8) : ¬Inevitable (Call.Step c) (Call.Delivers os) (.blocks (init c)) := by
  intro hall
  obtain ⟨t, ⟨received', rfl, -⟩, hbefore | hbehind⟩ := hall.exists_beside h
  · rcases hbefore.cases_head with hsame | ⟨t, hstep, -⟩
    · cases hsame
    · exact Call.Step.not_of_returned hstep
  · rcases hbehind.cases_head with hsame | ⟨t, hstep, -⟩
    · cases hsame
    · exact Call.Step.not_of_returned hstep

/-- Blocks that decode are sent, and the members behind them are decoded next. -/
theorem exists_reaches_member_init (hwalk : Ranges c.file 0 ranges stop none)
    (hdecode : List.Forall₂ (DecodesTo c.crc c.file) ranges outs) (hmore : stop < c.file.length)
    {headerLen : ℕ} (hheader : Gzip.parseHeader (c.file.drop stop) = .ok headerLen)
    (hthreads : 2 ≤ c.numThreads) :
    ∃ s, Reaches (Call.Step c) (.blocks (init c))
      (.member s hthreads (stop + headerLen) (Mmap.init _)) := by
  obtain ⟨rfl, hnone, os, hos, -⟩ := exists_decoded hwalk hdecode
  have hok : ∀ b ∈ c.batches, ∃ bytes, Decoded c b bytes := by
    intro b hb
    obtain ⟨i, hi, rfl⟩ := List.getElem_of_mem hb
    exact ⟨_, hos.get hi (hos.length_eq ▸ hi)⟩
  obtain ⟨s, hreach, hphase⟩ := (inevitable_joined hok).exists_reaches
  obtain ⟨hfailure, hstop⟩ := (done_of_reaches hok hreach (Or.inr (Or.inr hphase))).results
  rw [hnone] at hfailure
  rw [← hstop] at hmore hheader ⊢
  exact ⟨s, (Call.reaches_blocks hreach).tail (.start hphase hfailure hmore hheader hthreads)⟩

end Calls

/-- A BGZF block that holds one byte. -/
def storedBlock : List UInt8 :=
  [0x1f, 0x8b, 0x08, 0x04, 0, 0, 0, 0, 0, 0xff, 6, 0, 0x42, 0x43, 2, 0, 31, 0,
    0x01, 0x01, 0x00, 0xfe, 0xff, 0x41, 0x8b, 0x9e, 0xd9, 0xd3, 1, 0, 0, 0]

/-- A call for two blocks and a member behind them. -/
def threeMembers : Config where
  crc := crc32
  build := narrow16
  file := storedBlock ++ storedBlock ++ Gzip.storedMember
  chunkSizeBytes := 0
  numThreads := 2
  numThreads_pos := Nat.two_pos
  resolveThreads := 1
  resolveThreads_pos := Nat.one_pos
  maxInFlight := some 1
  scan _ := [0]
  scan_ne_nil _ := by simp

/-- The walk finds two blocks of 32 bytes. -/
theorem ranges_threeMembers : Ranges threeMembers.file 0 [(0, 32), (32, 64)] 64 none := by
  have hsize : Gzip.parseBgzfBlockSize (threeMembers.file.drop 0) = some 32 := by decide +kernel
  have hsize' : Gzip.parseBgzfBlockSize (threeMembers.file.drop 32) = some 32 := by decide +kernel
  apply Ranges.block hsize (by decide +kernel)
  apply Ranges.block hsize' (by decide +kernel)
  exact .done (by decide +kernel)

/-- Each of the blocks decodes to a byte. -/
theorem decodesTo_threeMembers : List.Forall₂ (DecodesTo threeMembers.crc threeMembers.file)
    [(0, 32), (32, 64)] [[65], [65]] := by
  have hblock : DecodesTo threeMembers.crc threeMembers.file (0, 32) [65] :=
    ⟨0, 32, by decide +kernel⟩
  have hblock' : DecodesTo threeMembers.crc threeMembers.file (32, 64) [65] :=
    ⟨1, 32, by decide +kernel⟩
  exact .cons hblock (.cons hblock' .nil)

/-- The serial decoder accepts the third member. -/
theorem serialDecodeMember_threeMembers : serialDecodeMember threeMembers.crc threeMembers.file
    (64 + 10) threeMembers.chunkSizeBytes = .ok ((1, 14, 1), [[65]]) := by
  decide +kernel

/-- The third member decodes to a byte. -/
theorem bodyMembers_threeMembers :
    BodyMembers threeMembers.crc (threeMembers.file.drop (64 + 10)) [65] := by
  have hbody := serialOutcome_serialDecodeMember threeMembers.crc threeMembers.file (64 + 10)
    threeMembers.chunkSizeBytes
  rw [serialDecodeMember_threeMembers] at hbody
  exact hbody.1

/-- What is behind the blocks decodes to a byte. -/
theorem restDecodesTo_threeMembers : threeMembers.RestDecodesTo 64 [65] :=
  Or.inr ⟨by decide +kernel, 10, by decide +kernel,
    ⟨_, _, _, _, serialDecodeMember_threeMembers, rfl⟩,
    fun _ => Mmap.shortChunks_of_length bodyMembers_threeMembers (by simp)⟩

/-- The body of the last member is a stored block. -/
theorem restFits_threeMembers : threeMembers.RestFits 64 := by
  have hheader : Gzip.parseHeader (threeMembers.file.drop 64) = .ok 10 := by decide +kernel
  intro _ headerLen hheader'
  rw [hheader, Except.ok.injEq] at hheader'
  subst hheader'
  exact ⟨chunkSizeFits_of_le (by decide) (by decide +kernel),
    fun _ => itemsFit_of_plainMembers narrow16 (by decide +kernel) (by decide +kernel) _⟩

/-- A call for a block with two members behind it, of which the second one overruns. -/
def overrunBlocks : Config := { threeMembers with file := storedBlock ++ Mmap.overrunFile }

/-- The walk finds one block of 32 bytes. -/
theorem ranges_overrunBlocks : Ranges overrunBlocks.file 0 [(0, 32)] 32 none := by
  have hsize : Gzip.parseBgzfBlockSize (overrunBlocks.file.drop 0) = some 32 := by decide +kernel
  exact Ranges.block hsize (by decide +kernel) (.done (by decide +kernel))

/-- The block decodes, and the members behind it with the serial decoder. With two workers the
second member is stored past the vector of its chunk, and the call need not deliver. -/
theorem overrunBlocks_fails :
    Ranges overrunBlocks.file 0 [(0, 32)] 32 none ∧
    List.Forall₂ (DecodesTo overrunBlocks.crc overrunBlocks.file) [(0, 32)] [[65]] ∧
    decodeOneChunk narrow16 8 (overrunBlocks.file.drop 42) []
      ⟨0, 0, noHint (overrunBlocks.file.drop 42)⟩ = .error .fault ∧
    ∃ rest, overrunBlocks.RestDecodesTo 32 rest ∧
      ¬Inevitable (Call.Step overrunBlocks) (Call.Delivers ([65] ++ rest))
        (.blocks (init overrunBlocks)) := by
  have hblock : List.Forall₂ (DecodesTo overrunBlocks.crc overrunBlocks.file) [(0, 32)] [[65]] :=
    .cons ⟨0, 32, by decide +kernel⟩ .nil
  have hbody : overrunBlocks.file.drop (32 + 10) = Mmap.overrunBody := by decide +kernel
  have hheader : Gzip.parseHeader (overrunBlocks.file.drop 32) = .ok 10 := by decide +kernel
  have hmore : 32 < overrunBlocks.file.length := by decide +kernel
  have hover := Mmap.decodeOneChunk_overrunBody
  rw [← hbody] at hover
  obtain ⟨total, consumed, chunks, sent, hserial⟩ :=
    Mmap.exists_serialDecodeMember_overrunBody hbody overrunBlocks.chunkSizeBytes
  refine ⟨ranges_overrunBlocks, hblock, hover, sent.flatten, Or.inr ⟨hmore, 10, hheader,
    ⟨_, _, _, _, hserial, rfl⟩, fun _ => Mmap.shortChunks_overrunBody hbody _ _⟩, ?_⟩
  obtain ⟨s, hreach⟩ := exists_reaches_member_init ranges_overrunBlocks hblock hmore hheader
    (Nat.le_refl 2)
  obtain ⟨m, hmember, hreturned⟩ := Mmap.exists_returned_error crc32 _ ⟨8, [], hover⟩ (.io "")
  obtain ⟨m', hcall, hreturned'⟩ := Call.exists_reaches_member (s := s) hmember hreturned
  exact Call.not_inevitable_delivers ((hreach.trans hcall).tail (.returnErr hreturned')) _

/-- Two blocks and a member behind them are sent. -/
theorem inevitable_concatenation_threeMembers : Inevitable (Call.Step threeMembers)
    (Call.Delivers [65, 65, 65]) (.blocks (init threeMembers)) :=
  (inevitable_concatenation ranges_threeMembers decodesTo_threeMembers restDecodesTo_threeMembers
    restFits_threeMembers).2

end Bgzf

end Pipeline

end RustyRapidgzip
