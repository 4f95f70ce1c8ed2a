import RustyRapidgzip.Pipeline.Attested

/-!
# Every call returns

Whatever a source holds, every run of a call returns, with a result or with an error. Files of
BGZF blocks are the exception: where the serializer can leave its loop at a block that does not
decode, with more results to come than their channel holds, some run never returns.
-/

namespace RustyRapidgzip

open Crc Threads Transition

namespace Pipeline

namespace Bgzf

/-- Whenever the serializer leaves its loop early, the results still to come have room. -/
def Config.Roomy (c : Config) : Prop :=
  ∀ s s', Reaches (Step c) (init c) s → Step c s s' → ¬s.LeftEarly → s'.LeftEarly →
    s'.front.toCome ≤ c.capacity

/-- The call has returned. -/
def Call.Finished {c : Config} (t : Call c) : Prop := ∃ received r, t = .returned received r

section Returns

variable {c : Config} {s s' : State c}

/-- Every run is one with room. -/
theorem Config.Roomy.reaches (h : c.Roomy) (hreach : Reaches (Step c) (init c) s) :
    Reaches (MoveWithRoom c) (init c) s := by
  induction hreach with
  | refl => exact .refl
  | tail hreach hstep ih => exact ih.tail ⟨Or.inl hstep, h _ _ hreach hstep⟩

/-- A serializer that waits for the threads and has not left early has sent everything. -/
theorem finished_of_joining (hreach : Reaches (Step c) (init c) s)
    (hphase : s.serializer.phase = .joining) (hleft : ¬s.LeftEarly) : s.front.Finished := by
  have hstands := (inv_of_reaches_step hreach).stands
  rw [State.Stands, hphase] at hstands
  rw [State.LeftEarly, not_not] at hleft
  rcases hstands with (⟨_, _, e, -, hlast⟩ | ⟨-, hlast⟩) | hdone
  · rw [hleft] at hlast
    cases hlast
  · rw [hleft] at hlast
    cases hlast
  · exact hdone.finished

/-- With room there is a step until the threads have been joined. -/
theorem Config.Roomy.steps (h : c.Roomy) (hreach : Reaches (Step c) (init c) s)
    (hphase : s.serializer.phase ≠ .joined) : ∃ s', Step c s s' := by
  have hmoves : Reaches (Move c) (init c) s := Reaches.mono hreach fun _ _ => Or.inl
  have hsteps := (inv_of_reaches hmoves).steps (drained_of_reaches hmoves)
    (shutDown_of_reaches hmoves) hphase
  by_cases hleft : s.LeftEarly
  · have htoCome := toCome_le_of_reaches (h.reaches hreach) hleft
    rcases State.goesOn_of_toCome hmoves hleft htoCome with hfinished | hstep
    · exact hsteps fun _ hrunning => absurd hfinished hrunning
    · exact hstep
  · apply hsteps
    intro hjoining hrunning
    exact absurd (finished_of_joining hreach hjoining hleft) hrunning

/-- With room the threads are joined in every run. -/
theorem Config.Roomy.inevitable_joined (h : c.Roomy) :
    Inevitable (Step c) (fun s => s.serializer.phase = .joined) (init c) := by
  refine inevitable_of_measure (Reaches (Step c) (init c)) State.weight
    (fun _ _ hreach hstep => hreach.tail hstep) (fun _ _ _ hstep => hstep.weight_lt)
    (fun s hreach => ?_) .refl
  by_cases hphase : s.serializer.phase = .joined
  · exact Or.inl hphase
  · exact Or.inr (h.steps hreach hphase)

/-- Every run of the member decoder returns, and so does the call. -/
theorem inevitable_finished_member {hthreads : 2 ≤ c.numThreads} {bodyOffset : ℕ} :
    Inevitable (Call.Step c) Call.Finished (.member s hthreads bodyOffset (Mmap.init _)) := by
  refine inevitable_call_of_member fun m r _ hr => ?_
  have hlive : ∃ t, Call.Step c (.member s hthreads bodyOffset m) t := by
    rcases r with e | ⟨uc, consumed, ch, failures⟩
    · exact ⟨_, .returnErr hr⟩
    · exact ⟨_, .returnOk hr⟩
  refine .ahead hlive fun t ht => ?_
  cases ht with
  | member hrunning _ => exact absurd hr (hrunning r)
  | returnErr _ => exact .here ⟨_, _, rfl⟩
  | returnOk _ => exact .here ⟨_, _, rfl⟩

/-- Where the threads have been joined, the call goes on. -/
theorem Call.exists_step (hphase : s.serializer.phase = .joined) :
    ∃ t, Call.Step c (.blocks s) t := by
  cases hfailure : s.failure with
  | some e => exact ⟨_, .fail hphase hfailure⟩
  | none =>
    rcases Nat.lt_or_ge s.dispatched.1 c.file.length with hmore | hend
    swap
    · exact ⟨_, .done hphase hfailure hend⟩
    cases hheader : Gzip.parseHeader (c.file.drop s.dispatched.1) with
    | error e => exact ⟨_, .badHeader hphase hfailure hmore hheader⟩
    | ok headerLen =>
      by_cases hthreads : c.numThreads = 1
      · cases hserial : serialDecodeMember c.crc c.file (s.dispatched.1 + headerLen)
            c.chunkSizeBytes with
        | error e =>
          exact ⟨.returned (s.sink.received ++ []) (.error e),
            .serialErr hphase hfailure hmore hheader hthreads hserial⟩
        | ok res =>
          obtain ⟨⟨uc, consumed, ch⟩, sent⟩ := res
          exact ⟨_, .serial hphase hfailure hmore hheader hthreads hserial⟩
      · have hpos := c.numThreads_pos
        exact ⟨_, .start hphase hfailure hmore hheader (by omega)⟩

/-- With room every run of the call returns. -/
theorem Config.Roomy.inevitable_finished (h : c.Roomy) :
    Inevitable (Call.Step c) Call.Finished (.blocks (init c)) := by
  refine inevitable_call_of_joined h.inevitable_joined fun s hreach hphase => ?_
  have hfinished := finished_of_reaches (Reaches.mono hreach fun _ _ => Or.inl) hphase
  refine .ahead (Call.exists_step hphase) fun t ht => ?_
  cases ht with
  | blocks hstep => exact absurd hstep (Step.not_of_finished hfinished hphase)
  | fail _ _ => exact .here ⟨_, _, rfl⟩
  | done _ _ _ => exact .here ⟨_, _, rfl⟩
  | badHeader _ _ _ _ => exact .here ⟨_, _, rfl⟩
  | serial _ _ _ _ _ _ => exact .here ⟨_, _, rfl⟩
  | serialErr _ _ _ _ _ _ => exact .here ⟨_, _, rfl⟩
  | start _ _ _ _ _ => exact inevitable_finished_member

/-- Without room some run comes to a stop before the threads have been joined. -/
theorem exists_stuck_of_not_roomy (h : ¬c.Roomy) :
    ∃ s, Reaches (Step c) (init c) s ∧ ∀ t, ¬Call.Step c (.blocks s) t := by
  simp only [Config.Roomy, not_forall, Nat.not_le] at h
  obtain ⟨s, s', hreach, hstep, hbefore, hleft, hmore⟩ := h
  have hreach' := hreach.tail hstep
  obtain ⟨s'', hreach'', hrunning, hend⟩ :=
    exists_deadlock (Reaches.mono hreach' fun _ _ => Or.inl) (hstep.closing hbefore hleft) hmore
  have hreaches : Reaches (Step c) (init c) s'' := hreach'.trans hreach''
  have hphase : s''.serializer.phase ≠ .joined := fun hjoined =>
    hrunning (finished_of_reaches (Reaches.mono hreaches fun _ _ => Or.inl) hjoined)
  refine ⟨s'', hreaches, fun t ht => ?_⟩
  cases ht with
  | blocks hstep => exact hend _ hstep
  | fail hjoined _ => exact hphase hjoined
  | done hjoined _ _ => exact hphase hjoined
  | badHeader hjoined _ _ _ => exact hphase hjoined
  | serial hjoined _ _ _ _ _ => exact hphase hjoined
  | serialErr hjoined _ _ _ _ _ => exact hphase hjoined
  | start hjoined _ _ _ _ => exact hphase hjoined

end Returns

end Bgzf

namespace ReadGz

section Returns

variable {c : Config} {reads : List (List UInt8)}

/-- The call has returned. -/
def State.Finished (t : State c) : Prop := ∃ received r, t = .returned received r

/-- A call that has returned makes no step. -/
theorem State.Finished.not_step {t t' : State c} (h : t.Finished) : ¬Step c t t' := by
  obtain ⟨received, r, rfl⟩ := h
  intro hstep
  cases hstep

/-- Every run of the streaming decoder returns, and so does the call. -/
theorem inevitable_finished_streaming (hfits : c.Fits) (hinput : c.input.streamed = some reads)
    (hthreads : 2 ≤ c.streamThreads) :
    Inevitable (Step c) State.Finished (.streaming reads (Streaming.init _)) := by
  apply inevitable_of_streaming (hfits.stream reads hinput hthreads).1 hinput hthreads
  intro s r _ hr
  have hlive : ∃ t, Step c (.streaming reads s) t := by
    rcases r with e | ⟨total, chunks, compressed⟩
    · exact ⟨_, .streamedErr hr⟩
    · exact ⟨_, .streamedOk hr⟩
  refine .ahead hlive fun t ht => ?_
  cases ht with
  | streaming hrunning _ => exact absurd hr (hrunning r)
  | streamedOk _ => exact .here ⟨_, _, rfl⟩
  | streamedErr _ => exact .here ⟨_, _, rfl⟩

/-- Every run of the member decoder returns, and so does the call. -/
theorem inevitable_finished_member {hthreads : 2 ≤ c.effectiveThreads} {headerLen : ℕ} :
    Inevitable (Step c) State.Finished (.member hthreads headerLen (Mmap.init _)) := by
  apply inevitable_of_member
  intro m r _ hr
  have hlive : ∃ t, Step c (.member hthreads headerLen m) t := by
    rcases r with e | ⟨uc, consumed, ch, failures⟩
    · exact ⟨_, .memberErr hr⟩
    · exact ⟨_, .memberOk hr⟩
  refine .ahead hlive fun t ht => ?_
  cases ht with
  | member hrunning _ => exact absurd hr (hrunning r)
  | memberOk _ => exact .here ⟨_, _, rfl⟩
  | memberErr _ => exact .here ⟨_, _, rfl⟩

/-- Every run of the decoder for BGZF blocks that returns is one of the call. -/
theorem inevitable_finished_blocks {t : Bgzf.Call c.blocks}
    (h : Inevitable (Bgzf.Call.Step c.blocks) Bgzf.Call.Finished t) :
    Inevitable (Step c) State.Finished (.blocks t) := by
  apply inevitable_of_blocks h
  rintro _ ⟨received, r, rfl⟩
  have hlive : ∃ t, Step c (.blocks (.returned received r)) t := by
    rcases r with e | ⟨uc, ch⟩
    · exact ⟨_, .blocksErr⟩
    · exact ⟨_, .blocksOk⟩
  refine .ahead hlive fun t ht => ?_
  cases ht with
  | blocks hstep => cases hstep
  | blocksOk => exact .here ⟨_, _, rfl⟩
  | blocksErr => exact .here ⟨_, _, rfl⟩

/-- A call whose source has been opened goes on. -/
theorem exists_step_opened : ∃ t, Step c .opened t := by
  cases hinput : c.input.streamed with
  | some reads =>
    rcases Nat.lt_or_ge c.streamThreads 2 with hone | htwo
    swap
    · exact ⟨_, .startStreaming hinput htwo⟩
    cases hserial : readGzStreaming c.crc reads with
    | error e =>
      exact ⟨.returned [] (.error e), .streamErr hinput (Nat.le_of_lt_succ hone) hserial⟩
    | ok res =>
      obtain ⟨⟨total, chunks⟩, sent⟩ := res
      exact ⟨_, .streamOk hinput (Nat.le_of_lt_succ hone) hserial⟩
  | none =>
    by_cases hbgzf : c.IsBgzf
    · exact ⟨_, .startBlocks hinput hbgzf⟩
    cases hheader : Gzip.parseHeader c.input.bytes with
    | error e => exact ⟨_, .badHeader hinput hbgzf hheader⟩
    | ok headerLen =>
      rcases Nat.lt_or_ge c.effectiveThreads 2 with hone | htwo
      swap
      · exact ⟨_, .startMember hinput hbgzf hheader htwo⟩
      have hthreads : c.effectiveThreads = 1 := by
        have hpos := c.effectiveThreads_pos
        omega
      cases hserial : serialDecodeMember c.crc c.input.bytes headerLen c.chunkSizeBytes with
      | error e =>
        exact ⟨.returned [] (.error e), .serialErr hinput hbgzf hheader hthreads hserial⟩
      | ok res =>
        obtain ⟨⟨uc, consumed, ch⟩, sent⟩ := res
        exact ⟨_, .serialOk hinput hbgzf hheader hthreads hserial⟩

/-- A run of the decoder for blocks is a run of the call. -/
theorem reaches_blocks {s : Bgzf.State c.blocks} (h : Reaches (Bgzf.Step _) (Bgzf.init _) s) :
    Reaches (Step c) (.blocks (.blocks (Bgzf.init _))) (.blocks (.blocks s)) := by
  induction h with
  | refl => exact .refl
  | tail _ hstep ih => exact ih.tail (.blocks (.blocks hstep))

/-- Every run of a call returns, whatever the source holds, if and only if the results of BGZF
blocks have room whenever their serializer leaves early. -/
theorem inevitable_finished_iff (hfits : c.Fits) :
    Inevitable (Step c) State.Finished .opened ↔
      (c.input.streamed = none → c.IsBgzf → c.blocks.Roomy) := by
  constructor
  · intro h hinput hbgzf
    by_contra hroomy
    obtain ⟨s, hreach, hstuck⟩ := Bgzf.exists_stuck_of_not_roomy hroomy
    have hreaches : Reaches (Step c) .opened (.blocks (.blocks s)) :=
      (reaches_blocks hreach).head (.startBlocks hinput hbgzf)
    obtain ⟨_, _, hfinished⟩ := h.of_stuck hreaches (fun _ _ hfinished => hfinished.not_step)
      fun t ht => by
        cases ht with
        | blocks hstep => exact hstuck _ hstep
    cases hfinished
  · intro hroomy
    refine .ahead exists_step_opened fun t ht => ?_
    cases ht with
    | streamOk _ _ _ => exact .here ⟨_, _, rfl⟩
    | streamErr _ _ _ => exact .here ⟨_, _, rfl⟩
    | startStreaming hinput hthreads => exact inevitable_finished_streaming hfits hinput hthreads
    | startBlocks hinput hbgzf =>
      exact inevitable_finished_blocks (hroomy hinput hbgzf).inevitable_finished
    | badHeader _ _ _ => exact .here ⟨_, _, rfl⟩
    | serialOk _ _ _ _ _ => exact .here ⟨_, _, rfl⟩
    | serialErr _ _ _ _ _ => exact .here ⟨_, _, rfl⟩
    | startMember _ _ _ _ => exact inevitable_finished_member

end Returns

section Calls

/-- What the scan of a body finds. -/
def scanned (chunkSizeBytes : ℕ) (body : List UInt8) : List ℕ :=
  0 :: Records.records 0 ((targetsOf chunkSizeBytes body).filterMap (searchBlock body))

/-- The scan of a part of a file ends with its boundaries. -/
theorem scans_scanned {bytes : List UInt8} (hlt : bytes.length < 2 ^ 60) (numThreads n : ℕ) :
    Scans 0 numThreads (bytes.drop n) (scanned 0 (bytes.drop n)) := by
  refine (scans_iff ?_).mpr rfl
  have htarget : chunkTarget 0 = 65536 := rfl
  rw [TargetsFit, htarget, List.length_drop]
  omega

/-- The pipe has no empty read. -/
theorem reads_noGzip {reads : List (List UInt8)}
    (h : (Input.pipe [[1, 2, 3]]).streamed = some reads) : ∀ r ∈ reads, r ≠ [] := by
  cases h
  decide

/-- The pipe is short. -/
theorem length_noGzip : (Input.pipe [[1, 2, 3]]).bytes.length < 2 ^ 60 := by decide

/-- A pipe that holds no gzip stream, read with two threads. -/
def noGzip : Config where
  crc := crc32
  build := narrow16
  input := .pipe [[1, 2, 3]]
  reads_ne_nil _ := reads_noGzip
  numThreads := 2
  chunkSizeBytes := 0
  availableParallelism := 1
  inflight := none
  resolveThreads := none
  scan := scanned 0
  scan_ne_nil _ := List.cons_ne_nil _ _
  scans := scans_scanned length_noGzip _

/-- A pipe without a header asks nothing of the decoders. -/
theorem fits_noGzip : noGzip.Fits where
  chunkSize := sizeFits_of_length (by decide) (by decide)
  stream reads hinput _ := by
    cases hinput
    have hitems : (noGzip.streaming [[1, 2, 3]]).items = [] := by decide +kernel
    refine ⟨by decide +kernel, by decide +kernel, fun item hitem => ?_⟩
    rw [hitems] at hitem
    cases hitem
  rest hinput := by cases hinput

/-- The file of four broken blocks. -/
abbrev brokenFile : List UInt8 := (Bgzf.brokenBlocks 4).file

/-- The file starts with the broken header. -/
theorem brokenFile_eq : ∃ rest, brokenFile = Bgzf.brokenHeader ++ rest :=
  ⟨_, List.append_assoc _ _ _⟩

/-- The file is no stream. -/
theorem streamed_brokenFile : (Input.file brokenFile).streamed = none := by
  obtain ⟨rest, heq⟩ := brokenFile_eq
  rw [heq]
  rfl

/-- The file has no reads. -/
theorem reads_brokenFile {reads : List (List UInt8)}
    (h : (Input.file brokenFile).streamed = some reads) : ∀ r ∈ reads, r ≠ [] := by
  rw [streamed_brokenFile] at h
  cases h

/-- The file is short. -/
theorem length_brokenFile : brokenFile.length < 2 ^ 60 := by
  rw [brokenFile, Bgzf.brokenBlocks, List.length_flatten, List.map_replicate, List.sum_replicate,
    smul_eq_mul, Bgzf.brokenBlock_length]
  decide

/-- A file of four broken blocks, read with one thread. -/
def brokenBlocks : Config where
  crc := crc32
  build := narrow16
  input := .file brokenFile
  reads_ne_nil _ := reads_brokenFile
  numThreads := 1
  chunkSizeBytes := 0
  availableParallelism := 1
  inflight := none
  resolveThreads := none
  scan := scanned 0
  scan_ne_nil _ := List.cons_ne_nil _ _
  scans := scans_scanned length_brokenFile _

/-- The results of the broken blocks do not have room. -/
theorem not_roomy_brokenBlocks : ¬brokenBlocks.blocks.Roomy := by
  intro hroomy
  obtain ⟨hlength, herr⟩ := Bgzf.brokenBlocks_batches 4
  have hfile : brokenBlocks.blocks.file = (Bgzf.brokenBlocks 4).file := by
    rw [Config.blocks, brokenBlocks, Input.bytes]
  have hchunk : brokenBlocks.blocks.chunkSizeBytes = (Bgzf.brokenBlocks 4).chunkSizeBytes := rfl
  have hbatches : brokenBlocks.blocks.batches = (Bgzf.brokenBlocks 4).batches := by
    rw [Bgzf.Config.batches, Bgzf.Config.batches, hfile, hchunk]
  cases hcons : (Bgzf.brokenBlocks 4).batches with
  | nil =>
    rw [hcons] at hlength
    cases hlength
  | cons b batches =>
    obtain ⟨f, s', hreach, hstep, hleft, htoCome⟩ :=
      Bgzf.exists_firstError (hbatches.trans hcons) (herr b (hcons ▸ List.mem_cons_self))
    have hroom := hroomy _ s' (Bgzf.reaches_front hreach) hstep (fun hleft => hleft rfl) hleft
    have hcap : brokenBlocks.blocks.maxInFlight = some 16 := rfl
    have hcapacity : brokenBlocks.blocks.capacity = 2 := rfl
    have hfree : Slots.free 4 ((some 16).map InflightCap.new) = 4 := rfl
    rw [hbatches, hlength, hcap, hfree] at htoCome
    rw [hcapacity] at hroom
    omega

/-- The file is all blocks, and has no member behind them. -/
theorem fits_brokenBlocks : brokenBlocks.Fits where
  chunkSize := sizeFits_of_length (by decide) length_brokenFile
  stream reads hinput := by
    rw [brokenBlocks, streamed_brokenFile] at hinput
    cases hinput
  rest _ hthreads := by
    have hone : brokenBlocks.effectiveThreads = 1 := rfl
    have htwo : 2 ≤ brokenBlocks.effectiveThreads := hthreads
    omega

/-- What is no gzip stream is rejected. A file of four broken blocks may never be. -/
theorem inevitable_finished_iff_calls :
    Inevitable (Step noGzip) State.Finished .opened ∧
      ¬Inevitable (Step brokenBlocks) State.Finished .opened := by
  constructor
  · exact (inevitable_finished_iff fits_noGzip).mpr fun hinput => by cases hinput
  · intro h
    have hbgzf : brokenBlocks.IsBgzf := by
      obtain ⟨rest, heq⟩ := brokenFile_eq
      rw [Config.IsBgzf, brokenBlocks, Input.bytes, heq, Bgzf.parseBgzfBlockSize_brokenHeader]
      rfl
    exact not_roomy_brokenBlocks
      ((inevitable_finished_iff fits_brokenBlocks).mp h streamed_brokenFile hbgzf)

end Calls

end ReadGz

end Pipeline

end RustyRapidgzip
