import RustyRapidgzip.Pipeline.NoLoss
import RustyRapidgzip.Pipeline.Scan
import RustyRapidgzip.Pipeline.StreamParallel

/-!
# Reading a file

`read_gz` chooses a decoder for its source. A pipe or an empty file is read as a stream; a file of
BGZF blocks goes to their decoder, and any other file, behind its first header, to the member
decoder. With one thread to work with the serial decoders are taken.
-/

namespace RustyRapidgzip

open Crc Threads Transition

namespace Pipeline

namespace ReadGz

/-- Where the bytes come from: a pipe that is read in pieces, or a regular file. -/
inductive Input where
  | pipe (reads : List (List UInt8))
  | file (bytes : List UInt8)

/-- The bytes of a source. -/
def Input.bytes : Input → List UInt8
  | .pipe reads => reads.flatten
  | .file bytes => bytes

/-- `!meta.file_type().is_file() || meta.len() == 0`: what is read as a stream, and how. -/
def Input.streamed : Input → Option (List (List UInt8))
  | .pipe reads => some reads
  | .file [] => some []
  | .file (_ :: _) => none

/-- What a call has decoded. -/
structure DecodeStats where
  compressedBytes : ℕ
  uncompressedBytes : ℕ
  chunksDecoded : ℕ
  speculationFailures : ℕ
  deriving DecidableEq, Repr

/-- The least number of chunks in flight. -/
def INFLIGHT_FLOOR : ℕ := 16

/-- The chunks in flight for each thread, where nothing else is asked for. -/
def INFLIGHT_DEFAULT_FACTOR : ℕ := 2

/-- The factor of the cap from its setting, which may be missing or no number. -/
def inflightFactor : Option (Option ℕ) → Option ℕ
  | some (some 0) => none
  | some (some (f + 1)) => some (f + 1)
  | some none => some INFLIGHT_DEFAULT_FACTOR
  | none => some INFLIGHT_DEFAULT_FACTOR

/-- The cap for a number of workers. -/
def makeInflightCap (numThreads : ℕ) (factor : Option ℕ) : Option ℕ :=
  factor.map fun f => max (numThreads * f % 2 ^ 64) INFLIGHT_FLOOR

/-- A call: the source, the configuration, what the machine and the environment say, and what the
boundary scan finds in the bodies of the source. No read gives nothing before the end. -/
structure Config where
  crc : Checksum
  build : Build
  input : Input
  reads_ne_nil : ∀ reads, input.streamed = some reads → ∀ r ∈ reads, r ≠ []
  numThreads : ℕ
  chunkSizeBytes : ℕ
  availableParallelism : ℕ
  inflight : Option (Option ℕ)
  resolveThreads : Option ℕ
  scan : List UInt8 → List ℕ
  scan_ne_nil : ∀ body, scan body ≠ []
  scans : ∀ n, Scans chunkSizeBytes
    (max (if numThreads = 0 then availableParallelism else numThreads) 1)
    (input.bytes.drop n) (scan (input.bytes.drop n))

variable (c : Config)

/-- The threads for a stream. -/
def Config.streamThreads : ℕ := if c.numThreads = 0 then c.availableParallelism else c.numThreads

/-- The threads for a file. -/
def Config.effectiveThreads : ℕ :=
  max (if c.numThreads = 0 then c.availableParallelism else c.numThreads) 1

/-- The threads of the resolve pool. -/
def Config.resolvers : ℕ := max (c.resolveThreads.getD (min c.effectiveThreads 4)) 1

/-- The cap on the chunks in flight. -/
def Config.cap : Option ℕ := makeInflightCap c.effectiveThreads (inflightFactor c.inflight)

/-- There is a thread. -/
theorem Config.effectiveThreads_pos : 0 < c.effectiveThreads := Nat.le_max_right _ 1

/-- There is a resolver. -/
theorem Config.resolvers_pos : 0 < c.resolvers := Nat.le_max_right _ 1

/-- The call of the streaming decoder for a stream. -/
def Config.streaming (reads : List (List UInt8)) : Streaming.Config where
  crc := c.crc
  build := c.build
  find := BlockFinder.findNextDynamicBlock
  chunkBytes := c.chunkSizeBytes
  reads := reads
  numThreads := c.streamThreads

/-- The call of the decoder for BGZF blocks. -/
def Config.blocks : Bgzf.Config where
  crc := c.crc
  build := c.build
  file := c.input.bytes
  chunkSizeBytes := c.chunkSizeBytes
  numThreads := c.effectiveThreads
  numThreads_pos := c.effectiveThreads_pos
  resolveThreads := c.resolvers
  resolveThreads_pos := c.resolvers_pos
  maxInFlight := c.cap
  scan := c.scan
  scan_ne_nil := c.scan_ne_nil

/-- The call of the member decoder behind the first header. -/
def Config.member (hthreads : 2 ≤ c.effectiveThreads) (headerLen : ℕ) : Mmap.Config :=
  c.blocks.member hthreads headerLen

/-- The decoder for BGZF blocks is taken. -/
def Config.IsBgzf : Prop := (Gzip.parseBgzfBlockSize c.input.bytes).isSome = true

/-- A call: its source has been opened, one of the parallel decoders runs, or it has returned, with
what has been sent. -/
inductive State where
  | opened
  | streaming (reads : List (List UInt8)) (s : Streaming.State (c.streaming reads))
  | blocks (t : Bgzf.Call c.blocks)
  | member (hthreads : 2 ≤ c.effectiveThreads) (headerLen : ℕ)
      (m : Mmap.State (c.member hthreads headerLen))
  | returned (received : List (List UInt8)) (r : Except Error DecodeStats)

/-- A step of a call whose consumer stays and whose reads do not fail. What the serial decoders
send before they fail is left open. -/
inductive Step : State c → State c → Prop
  | streamOk {reads sent : List (List UInt8)} {total chunks : ℕ}
      (hinput : c.input.streamed = some reads) (hthreads : c.streamThreads ≤ 1)
      (hserial : readGzStreaming c.crc reads = .ok ((total, chunks), sent)) :
      Step .opened (.returned sent (.ok ⟨0, total, chunks, 0⟩))
  | streamErr {reads sent : List (List UInt8)} {e : Error}
      (hinput : c.input.streamed = some reads) (hthreads : c.streamThreads ≤ 1)
      (hserial : readGzStreaming c.crc reads = .error e) :
      Step .opened (.returned sent (.error e))
  | startStreaming {reads : List (List UInt8)} (hinput : c.input.streamed = some reads)
      (hthreads : 2 ≤ c.streamThreads) : Step .opened (.streaming reads (Streaming.init _))
  | startBlocks (hinput : c.input.streamed = none) (hbgzf : c.IsBgzf) :
      Step .opened (.blocks (.blocks (Bgzf.init _)))
  | badHeader {e : Gzip.GzipError} (hinput : c.input.streamed = none) (hplain : ¬c.IsBgzf)
      (hheader : Gzip.parseHeader c.input.bytes = .error e) :
      Step .opened (.returned [] (.error (.gzip e)))
  | serialOk {headerLen uc consumed ch : ℕ} {sent : List (List UInt8)}
      (hinput : c.input.streamed = none) (hplain : ¬c.IsBgzf)
      (hheader : Gzip.parseHeader c.input.bytes = .ok headerLen)
      (hthreads : c.effectiveThreads = 1)
      (hserial : serialDecodeMember c.crc c.input.bytes headerLen c.chunkSizeBytes =
        .ok ((uc, consumed, ch), sent)) :
      Step .opened (.returned sent (.ok ⟨c.input.bytes.length, uc, ch, 0⟩))
  | serialErr {headerLen : ℕ} {e : Error} {sent : List (List UInt8)}
      (hinput : c.input.streamed = none) (hplain : ¬c.IsBgzf)
      (hheader : Gzip.parseHeader c.input.bytes = .ok headerLen)
      (hthreads : c.effectiveThreads = 1)
      (hserial : serialDecodeMember c.crc c.input.bytes headerLen c.chunkSizeBytes = .error e) :
      Step .opened (.returned sent (.error e))
  | startMember {headerLen : ℕ} (hinput : c.input.streamed = none) (hplain : ¬c.IsBgzf)
      (hheader : Gzip.parseHeader c.input.bytes = .ok headerLen)
      (hthreads : 2 ≤ c.effectiveThreads) :
      Step .opened (.member hthreads headerLen (Mmap.init _))
  | streaming {reads : List (List UInt8)} {s s' : Streaming.State (c.streaming reads)}
      (hrunning : ∀ r, ¬s.Returned r) (hstep : Streaming.Reads _ (fun _ => False) s s') :
      Step (.streaming reads s) (.streaming reads s')
  | streamedOk {reads : List (List UInt8)} {s : Streaming.State (c.streaming reads)}
      {total chunks compressed : ℕ} (hreturned : s.Returned (.ok (total, chunks, compressed))) :
      Step (.streaming reads s)
        (.returned s.sink.received (.ok ⟨compressed, total, chunks, 0⟩))
  | streamedErr {reads : List (List UInt8)} {s : Streaming.State (c.streaming reads)} {e : Error}
      (hreturned : s.Returned (.error e)) :
      Step (.streaming reads s) (.returned s.sink.received (.error e))
  | blocks {t t' : Bgzf.Call c.blocks} (hstep : Bgzf.Call.Step _ t t') :
      Step (.blocks t) (.blocks t')
  | blocksOk {received : List (List UInt8)} {uc ch : ℕ} :
      Step (.blocks (.returned received (.ok (uc, ch))))
        (.returned received (.ok ⟨c.input.bytes.length, uc, ch, 0⟩))
  | blocksErr {received : List (List UInt8)} {e : Error} :
      Step (.blocks (.returned received (.error e))) (.returned received (.error e))
  | member {hthreads : 2 ≤ c.effectiveThreads} {headerLen : ℕ}
      {m m' : Mmap.State (c.member hthreads headerLen)} (hrunning : ∀ r, ¬m.Returned r)
      (hstep : Mmap.Step _ m m') :
      Step (.member hthreads headerLen m) (.member hthreads headerLen m')
  | memberOk {hthreads : 2 ≤ c.effectiveThreads} {headerLen : ℕ}
      {m : Mmap.State (c.member hthreads headerLen)} {uc consumed ch failures : ℕ}
      (hreturned : m.Returned (.ok (uc, consumed, ch, failures))) :
      Step (.member hthreads headerLen m)
        (.returned m.sink.received (.ok ⟨c.input.bytes.length, uc, ch, failures⟩))
  | memberErr {hthreads : 2 ≤ c.effectiveThreads} {headerLen : ℕ}
      {m : Mmap.State (c.member hthreads headerLen)} {e : Error}
      (hreturned : m.Returned (.error e)) :
      Step (.member hthreads headerLen m) (.returned m.sink.received (.error e))

/-! ## The sizes of BGZF blocks -/

/-- A place that the block sizes lead to. -/
inductive Reached (file : List UInt8) : ℕ → Prop
  | start : Reached file 0
  | next {pos size : ℕ} (h : Reached file pos)
      (hsize : Gzip.parseBgzfBlockSize (file.drop pos) = some size) : Reached file (pos + size)

/-- The block sizes are the lengths of the members. -/
def TrueSizes (file : List UInt8) : Prop :=
  ∀ pos size ts trailerStart, Reached file pos →
    Gzip.parseBgzfBlockSize (file.drop pos) = some size →
    Gzip.Frame (file.drop pos) ts trailerStart → trailerStart + 8 = size

/-- What is left of a file from a place on: nothing, or members that the serial decoder accepts. -/
def Left (crc : Checksum) (file : List UInt8) (pos : ℕ) (os : List UInt8) : Prop :=
  (file.length ≤ pos ∧ os = []) ∨
    (pos < file.length ∧ ∃ headerLen, Gzip.parseHeader (file.drop pos) = .ok headerLen ∧
      BodyMembers crc (file.drop (pos + headerLen)) os)

section Blocks

variable {crc : Checksum} {file os : List UInt8} {pos size stop : ℕ} {ranges : List (ℕ × ℕ)}
  {walkErr : Option Error}

/-- What is left begins with a member, if there is anything, and more is left behind it. -/
theorem Left.uncons (h : Left crc file pos os) (hpos : pos < file.length) :
    ∃ n o os', Gzip.Member crc (file.drop pos) [] n o ∧ os = o ++ os' ∧
      Left crc file (pos + n) os' := by
  rcases h with ⟨hend, -⟩ | ⟨-, headerLen, hheader, hmembers⟩
  · omega
  rw [← List.drop_drop] at hmembers
  generalize hbody : (file.drop pos).drop headerLen = body at hmembers
  cases hmembers with
  | last hends =>
    subst hbody
    obtain ⟨n, hmember, htail⟩ := member_of_ends hheader hends
    rw [List.drop_drop] at htail
    refine ⟨n, os, [], hmember, (List.append_nil os).symm, Or.inl ⟨?_, rfl⟩⟩
    exact List.drop_eq_nil_iff.mp htail.symm
  | @next _ o tail os' headerLen' hends hmore hheader' hrest =>
    subst hbody
    obtain ⟨n, hmember, htail⟩ := member_of_ends hheader hends
    rw [List.drop_drop] at htail
    subst htail
    rw [List.drop_drop] at hrest
    refine ⟨n, o, os', hmember, rfl, Or.inr ⟨?_, headerLen', hheader', hrest⟩⟩
    exact Nat.lt_of_not_le fun hle => hmore (List.drop_eq_nil_iff.mpr hle)

/-- A member at a block whose size is true fills the block. -/
theorem TrueSizes.decodesTo {n : ℕ} {o : List UInt8} (h : TrueSizes file)
    (hreached : Reached file pos)
    (hsize : Gzip.parseBgzfBlockSize (file.drop pos) = some size)
    (hmember : Gzip.Member crc (file.drop pos) [] n o) :
    n = size ∧ pos + size ≤ file.length ∧ Bgzf.DecodesTo crc file (pos, pos + size) o := by
  obtain ⟨ts, trailerStart, hframe, -, htrailer⟩ := Gzip.member_iff.mp hmember
  obtain ⟨hroom, -, -, hn⟩ := Gzip.checkTrailer_ok_iff.mp htrailer
  obtain rfl : n = size := hn.trans (h pos size ts trailerStart hreached hsize hframe)
  rw [List.length_drop] at hroom
  have hpos := (Gzip.parseBgzfBlockSize_bounds hsize).1
  have hslice : Bgzf.slice file (pos, pos + n) = (file.drop pos).take n := by
    rw [Bgzf.slice, Nat.add_sub_cancel_left]
  have hlocal : Gzip.Member crc (Bgzf.slice file (pos, pos + n)) [] n o := by
    rw [hslice]
    exact hmember.local List.prefix_rfl
  refine ⟨rfl, by omega, 0, n, ?_⟩
  exact ((Gzip.decodesMember_decodeOneIndexedFast crc _ [] 0).1 n o).mpr ⟨o, hlocal, rfl⟩

/-- Blocks with true sizes decode one by one to what the serial decoder makes of them. -/
theorem TrueSizes.split (h : TrueSizes file) (hranges : Bgzf.Ranges file pos ranges stop walkErr)
    (hreached : Reached file pos) (hleft : Left crc file pos os) :
    walkErr = none ∧ ∃ outs rest, List.Forall₂ (Bgzf.DecodesTo crc file) ranges outs ∧
      os = outs.flatten ++ rest ∧ Left crc file stop rest := by
  have hinside {pos size : ℕ} (hsize : Gzip.parseBgzfBlockSize (file.drop pos) = some size) :
      pos < file.length := by
    by_contra hge
    rw [List.drop_of_length_le (Nat.le_of_not_lt hge), Gzip.parseBgzfBlockSize_nil] at hsize
    cases hsize
  induction hranges generalizing os with
  | done _ => exact ⟨rfl, [], os, .nil, rfl, hleft⟩
  | truncated hsize hover =>
    obtain ⟨n, o, os', hmember, -, -⟩ := hleft.uncons (hinside hsize)
    obtain ⟨-, hfits, -⟩ := h.decodesTo hreached hsize hmember
    omega
  | block hsize _ _ ih =>
    obtain ⟨n, o, os', hmember, rfl, hrest⟩ := hleft.uncons (hinside hsize)
    obtain ⟨rfl, -, hdecodes⟩ := h.decodesTo hreached hsize hmember
    obtain ⟨hnone, outs, rest, houts, rfl, hleft'⟩ := ih (hreached.next hsize) hrest
    refine ⟨hnone, o :: outs, rest, .cons hdecodes houts, ?_, hleft'⟩
    rw [List.flatten_cons, List.append_assoc]

end Blocks

/-! ## What a call delivers -/

/-- The serial decoder accepts the bytes of the source, and decodes them to `os`. -/
def Config.Accepts (os : List UInt8) : Prop :=
  ∃ headerLen total consumed chunks sent, Gzip.parseHeader c.input.bytes = .ok headerLen ∧
    serialDecodeMember c.crc c.input.bytes headerLen c.chunkSizeBytes =
      .ok ((total, consumed, chunks), sent) ∧ sent.flatten = os

/-- The chunk size is one that the decoders can work with on every part of the source. -/
def Config.SizeFits : Prop := ∀ n, ChunkSizeFits c.chunkSizeBytes (c.input.bytes.drop n)

/-- No worker of the member decoder runs off the vector of its chunk. The blocks of a file that has
none stop at its start. -/
def Config.RestFits : Prop :=
  c.input.streamed = none → ∀ hthreads headerLen,
    Gzip.parseHeader (c.input.bytes.drop c.blocks.stop) = .ok headerLen →
      ItemsFit c.build (c.input.bytes.drop (c.blocks.stop + headerLen))
        (c.blocks.unboundedMember hthreads (c.blocks.stop + headerLen))

/-- What the decoders need: a chunk size that they can work with; a stream is cut at blocks, the
sizes of BGZF blocks are true, no chunk has 4 GiB, and no worker runs off the vector of its
chunk. -/
structure Config.Admits : Prop where
  chunkSize : c.SizeFits
  stream : ∀ reads, c.input.streamed = some reads → 2 ≤ c.streamThreads →
    Streaming.AtBlocks (c.streaming reads) ∧ Streaming.ShortChunks (c.streaming reads) ∧
      (c.streaming reads).ItemsFit
  sizes : c.IsBgzf → TrueSizes c.input.bytes
  chunks : ∀ hthreads headerLen,
      Gzip.parseHeader (c.input.bytes.drop c.blocks.stop) = .ok headerLen →
    Mmap.ShortChunks (c.blocks.unboundedMember hthreads (c.blocks.stop + headerLen))
  rest : c.RestFits

/-- The compressed bytes that are counted: none by the serial decoder of a stream. -/
def Config.compressed : ℕ :=
  if c.input.streamed.isSome ∧ c.streamThreads ≤ 1 then 0 else c.input.bytes.length

variable {c}

/-- What a call returns when all bytes have been sent. -/
def Delivers (os : List UInt8) (t : State c) : Prop :=
  ∃ received failures, t = .returned received
    (.ok ⟨c.compressed, os.length, received.length, failures⟩) ∧ received.flatten = os

section Calls

variable {os : List UInt8} {reads : List (List UInt8)}

/-- What is accepted has a header and members behind it. -/
theorem Config.Accepts.exists_bodyMembers (h : c.Accepts os) : ∃ headerLen,
    Gzip.parseHeader c.input.bytes = .ok headerLen ∧
      BodyMembers c.crc (c.input.bytes.drop headerLen) os := by
  obtain ⟨headerLen, _, _, _, sent, hheader, hserial, rfl⟩ := h
  have houtcome := serialOutcome_serialDecodeMember c.crc c.input.bytes headerLen c.chunkSizeBytes
  rw [hserial] at houtcome
  exact ⟨headerLen, hheader, houtcome.1⟩

/-- The bytes of a stream are those of its reads. -/
theorem streamed_bytes (h : c.input.streamed = some reads) : c.input.bytes = reads.flatten := by
  cases hinput : c.input with
  | pipe reads' =>
    rw [hinput, Input.streamed, Option.some.injEq] at h
    rw [Input.bytes, h]
  | file bytes =>
    cases bytes with
    | nil =>
      rw [hinput, Input.streamed, Option.some.injEq] at h
      rw [← h]
      rfl
    | cons b bytes =>
      rw [hinput, Input.streamed] at h
      cases h

/-- Every run of the streaming decoder, up to what it returns, is one of the call. -/
theorem inevitable_of_streaming {Goal : State c → Prop}
    (hover : (c.streaming reads).dispatched ≠ .error .overflow)
    (hinput : c.input.streamed = some reads) (hthreads : 2 ≤ c.streamThreads)
    (hgoal : ∀ s r, Reaches (Streaming.Reads _ fun _ => False) (Streaming.init _) s →
      s.Returned r → Inevitable (Step c) Goal (.streaming reads s)) :
    Inevitable (Step c) Goal (.streaming reads (Streaming.init _)) := by
  have hn : 0 < (c.streaming reads).numThreads := Nat.lt_of_lt_of_le Nat.two_pos hthreads
  have hreads := @Streaming.inevitable_reads (c.streaming reads) (fun _ => False)
    Streaming.answers_findNextDynamicBlock (c.reads_ne_nil reads hinput) hover hn
  refine Inevitable.phase (f := State.streaming reads)
    (Reaches (Streaming.Reads _ fun _ => False) (Streaming.init _)) (hreads.mono fun _ h => h.2)
    (fun _ _ hreach hstep => hreach.tail hstep)
    (fun s s' hrunning hstep => .streaming (not_exists.mp hrunning) hstep) ?_
    (fun s hreach ⟨r, hr⟩ => hgoal s r hreach hr) .refl
  intro s t _ ht
  cases ht with
  | streaming _ hstep => exact Or.inr ⟨_, hstep, rfl⟩
  | streamedOk hreturned => exact Or.inl ⟨_, hreturned⟩
  | streamedErr hreturned => exact Or.inl ⟨_, hreturned⟩

/-- Every run of the member decoder, up to what it returns, is one of the call. -/
theorem inevitable_of_member {Goal : State c → Prop} {hthreads : 2 ≤ c.effectiveThreads}
    {headerLen : ℕ} (hgoal : ∀ m r, Reaches (Mmap.Step _) (Mmap.init _) m → m.Returned r →
      Inevitable (Step c) Goal (.member hthreads headerLen m)) :
    Inevitable (Step c) Goal (.member hthreads headerLen (Mmap.init _)) := by
  refine Inevitable.phase (f := State.member hthreads headerLen)
    (Reaches (Mmap.Step _) (Mmap.init _)) ((Mmap.inevitable_returned _).mono fun _ h => h.2)
    (fun _ _ hreach hstep => hreach.tail hstep)
    (fun m m' hrunning hstep => .member (not_exists.mp hrunning) hstep) ?_
    (fun m hreach ⟨r, hr⟩ => hgoal m r hreach hr) .refl
  intro m t _ ht
  cases ht with
  | member _ hstep => exact Or.inr ⟨_, hstep, rfl⟩
  | memberOk hreturned => exact Or.inl ⟨_, hreturned⟩
  | memberErr hreturned => exact Or.inl ⟨_, hreturned⟩

/-- Every run of the streaming decoder on a stream that is cut at blocks is one of the call. -/
theorem inevitable_streaming (hinput : c.input.streamed = some reads)
    (hthreads : 2 ≤ c.streamThreads) (hblocks : Streaming.AtBlocks (c.streaming reads))
    (hshort : Streaming.ShortChunks (c.streaming reads)) (hfits : (c.streaming reads).ItemsFit)
    (hbody : BodyMembers c.crc (c.streaming reads).body os) :
    Inevitable (Step c) (Delivers os) (.streaming reads (Streaming.init _)) := by
  have hn : 0 < (c.streaming reads).numThreads := Nat.lt_of_lt_of_le Nat.two_pos hthreads
  obtain ⟨members, outs, hparse, hexpands, hpass, rfl⟩ := bodyMembers_iff_membersAt.mp hbody
  apply inevitable_of_streaming hblocks.ne_overflow hinput hthreads
  intro s r hreach hr
  have hverdict := Streaming.verdict_of_returned hblocks hn hparse hexpands hshort hfits hreach hr
  have hcheck : checkMembers (c.streaming reads).crc 0 0 outs = .ok () :=
    checkMembers_ok_iff.mpr hpass
  rw [Streaming.Verdict, hcheck] at hverdict
  obtain ⟨hreceived, hreturned⟩ := hverdict
  refine .ahead ⟨_, .streamedOk hreturned⟩ fun t ht => ?_
  cases ht with
  | streaming hrunning _ => exact absurd hreturned (hrunning _)
  | streamedErr hreturned' =>
    rw [Streaming.State.Returned, hreturned] at hreturned'
    cases hreturned'
  | streamedOk hreturned' =>
    rw [Streaming.State.Returned, hreturned] at hreturned'
    cases hreturned'
    refine .here ⟨_, 0, ?_, hreceived⟩
    rw [Config.compressed, if_neg (by omega), streamed_bytes hinput]
    rfl

/-- Every run of the decoder for BGZF blocks is one of the call, up to where the call goes on. -/
theorem inevitable_of_blocks {Reached : Bgzf.Call c.blocks → Prop} {Goal : State c → Prop}
    {t : Bgzf.Call c.blocks} (h : Inevitable (Bgzf.Call.Step c.blocks) Reached t)
    (hgoal : ∀ t, Reached t → Inevitable (Step c) Goal (.blocks t)) :
    Inevitable (Step c) Goal (.blocks t) := by
  induction h with
  | here hreached => exact hgoal _ hreached
  | @ahead t hlive _ ih =>
    obtain ⟨t', hstep⟩ := hlive
    refine .ahead ⟨_, .blocks hstep⟩ fun u hu => ?_
    cases hu with
    | blocks hstep' => exact ih _ hstep'
    | blocksOk => cases hstep
    | blocksErr => cases hstep

/-- A call that has delivered the blocks delivers them. -/
theorem inevitable_blocks (hinput : c.input.streamed = none) {t : Bgzf.Call c.blocks}
    (h : Inevitable (Bgzf.Call.Step c.blocks) (Bgzf.Call.Delivers os) t) :
    Inevitable (Step c) (Delivers os) (.blocks t) := by
  apply inevitable_of_blocks h
  rintro _ ⟨received, rfl, hreceived⟩
  refine .ahead ⟨_, .blocksOk⟩ fun t ht => ?_
  cases ht with
  | blocks hstep => cases hstep
  | blocksOk =>
    refine .here ⟨received, 0, ?_, hreceived⟩
    rw [Config.compressed, hinput, hreceived]
    rfl

/-- Every run of the member decoder is one of the call. -/
theorem inevitable_member (hinput : c.input.streamed = none) {hthreads : 2 ≤ c.effectiveThreads}
    {headerLen : ℕ} (hbody : BodyMembers c.crc (c.input.bytes.drop headerLen) os)
    (hshort : Mmap.ShortChunks (c.blocks.unboundedMember hthreads headerLen))
    (hfits : ItemsFit c.build (c.input.bytes.drop headerLen)
      (c.blocks.unboundedMember hthreads headerLen)) :
    Inevitable (Step c) (Delivers os) (.member hthreads headerLen (Mmap.init _)) := by
  apply inevitable_of_member
  intro m r hreach hr
  obtain ⟨hreceived, failures, hreturned⟩ := Mmap.delivers_of_returned hbody
    (c.scan_ne_nil _) hshort hfits hreach hr
  refine .ahead ⟨_, .memberOk hreturned⟩ fun t ht => ?_
  cases ht with
  | member hrunning _ => exact absurd hreturned (hrunning _)
  | memberErr hreturned' =>
    rw [Mmap.State.Returned, hreturned] at hreturned'
    cases hreturned'
  | memberOk hreturned' =>
    rw [Mmap.State.Returned, hreturned] at hreturned'
    cases hreturned'
    refine .here ⟨_, failures, ?_, hreceived⟩
    rw [Config.compressed, hinput]
    rfl

/-- Without a first BGZF block the blocks stop at the start of the file. -/
theorem stop_eq_zero (hplain : ¬c.IsBgzf) : c.blocks.stop = 0 := by
  have hnone : Gzip.parseBgzfBlockSize (c.input.bytes.drop 0) = none := by
    rw [List.drop_zero]
    exact Option.not_isSome_iff_eq_none.mp hplain
  exact ((Bgzf.Config.ranges_walk c.blocks).unique (.done hnone)).2.1

/-- The workers for a file without BGZF blocks. -/
theorem Config.RestFits.member (h : c.RestFits) (hinput : c.input.streamed = none)
    (hplain : ¬c.IsBgzf) {headerLen : ℕ} (hheader : Gzip.parseHeader c.input.bytes = .ok headerLen)
    (hthreads : 2 ≤ c.effectiveThreads) :
    ItemsFit c.build (c.input.bytes.drop headerLen)
      (c.blocks.unboundedMember hthreads headerLen) := by
  have hfits := h hinput hthreads headerLen (by rwa [stop_eq_zero hplain])
  rwa [stop_eq_zero hplain, Nat.zero_add] at hfits

/-- A stream that one thread decodes. -/
theorem inevitable_opened_serialStream (haccepts : c.Accepts os)
    (hinput : c.input.streamed = some reads) (hthreads : c.streamThreads ≤ 1) :
    Inevitable (Step c) (Delivers os) .opened := by
  obtain ⟨headerLen, hheader, hmembers⟩ := haccepts.exists_bodyMembers
  have hstream := streamOutcome_readGzStreaming c.crc (c.reads_ne_nil reads hinput)
  rw [← streamed_bytes hinput] at hstream
  cases hserial : readGzStreaming c.crc reads with
  | error e =>
    rw [hserial] at hstream
    exact absurd hmembers (hstream.2 headerLen os hheader)
  | ok res =>
    obtain ⟨⟨total, chunks⟩, sent⟩ := res
    rw [hserial] at hstream
    obtain ⟨⟨headerLen', hheader', hmembers'⟩, htotal, hchunks⟩ := hstream
    rw [hheader, Except.ok.injEq] at hheader'
    subst hheader'
    obtain rfl := hmembers.unique hmembers'
    refine .ahead ⟨_, .streamOk hinput hthreads hserial⟩ fun t ht => ?_
    cases ht with
    | streamOk hinput' _ hserial' =>
      rw [hinput, Option.some.injEq] at hinput'
      subst hinput'
      rw [hserial] at hserial'
      cases hserial'
      refine .here ⟨_, 0, ?_, rfl⟩
      rw [Config.compressed, if_pos ⟨by rw [hinput]; rfl, hthreads⟩, htotal, hchunks]
    | streamErr hinput' _ hserial' =>
      rw [hinput, Option.some.injEq] at hinput'
      subst hinput'
      simp [hserial] at hserial'
    | startStreaming _ hthreads' => omega
    | startBlocks hinput' _ => simp [hinput] at hinput'
    | badHeader hinput' _ _ => simp [hinput] at hinput'
    | serialOk hinput' _ _ _ _ => simp [hinput] at hinput'
    | serialErr hinput' _ _ _ _ => simp [hinput] at hinput'
    | startMember hinput' _ _ _ => simp [hinput] at hinput'

/-- A stream that the threads decode. -/
theorem inevitable_opened_stream (haccepts : c.Accepts os) (hadmits : c.Admits)
    (hinput : c.input.streamed = some reads) (hthreads : 2 ≤ c.streamThreads) :
    Inevitable (Step c) (Delivers os) .opened := by
  obtain ⟨headerLen, hheader, hmembers⟩ := haccepts.exists_bodyMembers
  obtain ⟨hblocks, hshort, hfits⟩ := hadmits.stream reads hinput hthreads
  rw [streamed_bytes hinput] at hheader hmembers
  have hbody : BodyMembers c.crc (c.streaming reads).body os := by
    rw [Streaming.Config.body, Config.streaming, hheader]
    exact hmembers
  refine .ahead ⟨_, .startStreaming hinput hthreads⟩ fun t ht => ?_
  cases ht with
  | streamOk _ hthreads' _ => omega
  | streamErr _ hthreads' _ => omega
  | startStreaming hinput' _ =>
    rw [hinput, Option.some.injEq] at hinput'
    subst hinput'
    exact inevitable_streaming hinput hthreads hblocks hshort hfits hbody
  | startBlocks hinput' _ => simp [hinput] at hinput'
  | badHeader hinput' _ _ => simp [hinput] at hinput'
  | serialOk hinput' _ _ _ _ => simp [hinput] at hinput'
  | serialErr hinput' _ _ _ _ => simp [hinput] at hinput'
  | startMember hinput' _ _ _ => simp [hinput] at hinput'

/-- A file of BGZF blocks. -/
theorem inevitable_opened_blocks (haccepts : c.Accepts os) (hadmits : c.Admits)
    (hinput : c.input.streamed = none) (hbgzf : c.IsBgzf) :
    Inevitable (Step c) (Delivers os) .opened := by
  obtain ⟨headerLen, hheader, hmembers⟩ := haccepts.exists_bodyMembers
  have hleft : Left c.crc c.input.bytes 0 os := by
    refine Or.inr ⟨?_, headerLen, hheader, by rwa [Nat.zero_add]⟩
    by_contra hempty
    rw [Nat.not_lt, Nat.le_zero, List.length_eq_zero_iff] at hempty
    rw [hempty] at hheader
    cases hheader
  obtain ⟨hnone, outs, rest, houts, rfl, hrest⟩ :=
    (hadmits.sizes hbgzf).split (Bgzf.Config.ranges_walk c.blocks) .start hleft
  obtain ⟨bs, hbs, hflatten⟩ := Bgzf.exists_decodeBatch houts
  have hrest' : c.blocks.RestDecodesTo c.blocks.stop rest := by
    rcases hrest with ⟨hend, hrest⟩ | ⟨hmore, headerLen', hheader', hmembers'⟩
    · exact Or.inl ⟨hend, hrest⟩
    · have houtcome := serialOutcome_serialDecodeMember c.crc c.input.bytes
        (c.blocks.stop + headerLen') c.chunkSizeBytes
      cases hserial : serialDecodeMember c.crc c.input.bytes (c.blocks.stop + headerLen')
          c.chunkSizeBytes with
      | error e =>
        rw [hserial] at houtcome
        exact absurd hmembers' (houtcome.2 rest)
      | ok res =>
        obtain ⟨⟨total, consumed, chunks⟩, sent⟩ := res
        rw [hserial] at houtcome
        exact Or.inr ⟨hmore, headerLen', hheader', ⟨total, consumed, chunks, sent, hserial,
          hmembers'.unique houtcome.1⟩,
          fun hthreads => hadmits.chunks hthreads headerLen' hheader'⟩
  have hfits : c.blocks.RestFits c.blocks.stop := fun _ headerLen' hheader' =>
    ⟨hadmits.chunkSize _, fun hthreads => hadmits.rest hinput hthreads headerLen' hheader'⟩
  have hdelivers := Bgzf.inevitable_delivers (c := c.blocks) hbs hnone hrest' hfits
  rw [hflatten] at hdelivers
  refine .ahead ⟨_, .startBlocks hinput hbgzf⟩ fun t ht => ?_
  cases ht with
  | streamOk hinput' _ _ => simp [hinput] at hinput'
  | streamErr hinput' _ _ => simp [hinput] at hinput'
  | startStreaming hinput' _ => simp [hinput] at hinput'
  | startBlocks _ _ => exact inevitable_blocks hinput hdelivers
  | badHeader _ hplain _ => exact absurd hbgzf hplain
  | serialOk _ hplain _ _ _ => exact absurd hbgzf hplain
  | serialErr _ hplain _ _ _ => exact absurd hbgzf hplain
  | startMember _ hplain _ _ => exact absurd hbgzf hplain

/-- Any other file. -/
theorem inevitable_opened_member (haccepts : c.Accepts os) (hadmits : c.Admits)
    (hinput : c.input.streamed = none) (hplain : ¬c.IsBgzf) :
    Inevitable (Step c) (Delivers os) .opened := by
  obtain ⟨headerLen, total, consumed, chunks, sent, hheader, hserial, rfl⟩ := haccepts
  have houtcome := serialOutcome_serialDecodeMember c.crc c.input.bytes headerLen c.chunkSizeBytes
  rw [hserial] at houtcome
  obtain ⟨hmembers, htotal, -, hchunks⟩ := houtcome
  have hheader' : Gzip.parseHeader (c.input.bytes.drop c.blocks.stop) = .ok headerLen := by
    rwa [stop_eq_zero hplain]
  have hshort (hthreads : 2 ≤ c.effectiveThreads) :
      Mmap.ShortChunks (c.blocks.unboundedMember hthreads headerLen) := by
    have h := hadmits.chunks hthreads headerLen hheader'
    rwa [stop_eq_zero hplain, Nat.zero_add] at h
  have hfits := hadmits.rest.member hinput hplain hheader
  have hpos := c.effectiveThreads_pos
  have hlive : ∃ t, Step c .opened t := by
    rcases Nat.lt_or_ge c.effectiveThreads 2 with hone | htwo
    · exact ⟨_, .serialOk hinput hplain hheader (by omega) hserial⟩
    · exact ⟨_, .startMember hinput hplain hheader htwo⟩
  refine .ahead hlive fun t ht => ?_
  cases ht with
  | streamOk hinput' _ _ => simp [hinput] at hinput'
  | streamErr hinput' _ _ => simp [hinput] at hinput'
  | startStreaming hinput' _ => simp [hinput] at hinput'
  | startBlocks _ hbgzf => exact absurd hbgzf hplain
  | badHeader _ _ hheader' => simp [hheader] at hheader'
  | serialOk _ _ hheader' _ hserial' =>
    rw [hheader, Except.ok.injEq] at hheader'
    subst hheader'
    rw [hserial] at hserial'
    cases hserial'
    refine .here ⟨_, 0, ?_, rfl⟩
    rw [Config.compressed, hinput, htotal, hchunks]
    rfl
  | serialErr _ _ hheader' _ hserial' =>
    rw [hheader, Except.ok.injEq] at hheader'
    subst hheader'
    simp [hserial] at hserial'
  | startMember _ _ hheader' hthreads =>
    rw [hheader, Except.ok.injEq] at hheader'
    subst hheader'
    exact inevitable_member hinput hmembers (hshort hthreads) (hfits hthreads)

/-- What the serial decoder accepts, every run of a call returns, with the same bytes sent: from a
pipe or from a file, from BGZF blocks or other members, with any number of threads, as long as the
decoders have what they need. -/
theorem inevitable_readGz (haccepts : c.Accepts os) (hadmits : c.Admits) :
    Inevitable (Step c) (Delivers os) .opened := by
  cases hinput : c.input.streamed with
  | some reads =>
    rcases Nat.lt_or_ge c.streamThreads 2 with hone | htwo
    · exact inevitable_opened_serialStream haccepts hinput (by omega)
    · exact inevitable_opened_stream haccepts hadmits hinput htwo
  | none =>
    by_cases hbgzf : c.IsBgzf
    · exact inevitable_opened_blocks haccepts hadmits hinput hbgzf
    · exact inevitable_opened_member haccepts hadmits hinput hbgzf

end Calls

section ThreeMembers

/-- The default chunk size fits what is left of a source of less than 2^60 bytes. -/
theorem sizeFits_of_length (hsize : c.chunkSizeBytes ≤ 2 ^ 60)
    (hlength : c.input.bytes.length < 2 ^ 60) : c.SizeFits := fun _ =>
  chunkSizeFits_of_le hsize
    (Nat.lt_of_le_of_lt (List.length_drop.le.trans (Nat.sub_le _ _)) hlength)

/-- A body of at most one chunk has one boundary. -/
theorem scans_of_length_le {chunkSizeBytes numThreads : ℕ} {body : List UInt8}
    (hle : body.length ≤ chunkTarget chunkSizeBytes) (hlt : chunkTarget chunkSizeBytes < 2 ^ 61) :
    Scans chunkSizeBytes numThreads body [0] := by
  have hpos := chunkTarget_pos chunkSizeBytes
  refine (scans_iff (Or.inl ⟨hle, ?_⟩)).mpr ?_
  · rw [Nat.mod_eq_of_lt hlt]
    exact (Nat.mod_le _ _).trans hle
  · rw [multiplesBelow_eight, Nat.div_eq_of_lt (by omega)]
    rfl

/-- The three members are no stream. -/
theorem reads_threeMembers {reads : List (List UInt8)}
    (h : (Input.file Bgzf.threeMembers.file).streamed = some reads) : ∀ r ∈ reads, r ≠ [] := by
  have hnone : (Input.file Bgzf.threeMembers.file).streamed = none := rfl
  rw [hnone] at h
  cases h

/-- The members have one boundary. -/
theorem scans_threeMembers (n : ℕ) : Scans 0 2 (Bgzf.threeMembers.file.drop n) [0] := by
  apply scans_of_length_le _ (by decide)
  have hlength : Bgzf.threeMembers.file.length = 88 := by decide +kernel
  have htarget : chunkTarget 0 = 65536 := rfl
  rw [List.length_drop, hlength, htarget]
  omega

/-- The scan finds a boundary. -/
theorem scan_ne_nil_threeMembers (_ : List UInt8) : [0] ≠ ([] : List ℕ) := List.cons_ne_nil _ _

/-- Two BGZF blocks and a member behind them, with two threads. -/
def threeMembers : Config where
  crc := crc32
  build := narrow16
  input := .file Bgzf.threeMembers.file
  reads_ne_nil _ := reads_threeMembers
  numThreads := 2
  chunkSizeBytes := 0
  availableParallelism := 1
  inflight := none
  resolveThreads := none
  scan _ := [0]
  scan_ne_nil := scan_ne_nil_threeMembers
  scans := scans_threeMembers

/-- A member that decodes gives the length of the frame. -/
theorem frame_length {crc : Checksum} {input o : List UInt8} {n trailerStart : ℕ}
    {ts : List Lz.Token}
    (h : Gzip.decodeOneIndexedFast crc input [] 0 = .ok (n, o))
    (hframe : Gzip.Frame input ts trailerStart) : trailerStart + 8 = n := by
  obtain ⟨o', hmember, -⟩ := ((Gzip.decodesMember_decodeOneIndexedFast crc input [] 0).1 n o).mp h
  obtain ⟨ts', trailerStart', hframe', -, htrailer⟩ := Gzip.member_iff.mp hmember
  obtain ⟨-, -, -, rfl⟩ := Gzip.checkTrailer_ok_iff.mp htrailer
  rw [(hframe.unique hframe').2]

/-- The sizes of the two blocks are true. -/
theorem trueSizes_threeMembers : TrueSizes threeMembers.input.bytes := by
  have h0 : Gzip.parseBgzfBlockSize (threeMembers.input.bytes.drop 0) = some 32 := by decide +kernel
  have h32 : Gzip.parseBgzfBlockSize (threeMembers.input.bytes.drop 32) = some 32 := by
    decide +kernel
  have h64 : Gzip.parseBgzfBlockSize (threeMembers.input.bytes.drop 64) = none := by decide +kernel
  have hreached {pos : ℕ} (h : Reached threeMembers.input.bytes pos) :
      pos = 0 ∨ pos = 32 ∨ pos = 64 := by
    induction h with
    | start => exact Or.inl rfl
    | next _ hsize ih =>
      rcases ih with rfl | rfl | rfl
      · rw [h0] at hsize
        cases hsize
        exact Or.inr (Or.inl rfl)
      · rw [h32] at hsize
        cases hsize
        exact Or.inr (Or.inr rfl)
      · rw [h64] at hsize
        cases hsize
  intro pos size ts trailerStart hpos hsize hframe
  have hdecode0 : Gzip.decodeOneIndexedFast crc32 (threeMembers.input.bytes.drop 0) [] 0 =
      .ok (32, [65]) := by decide +kernel
  have hdecode32 : Gzip.decodeOneIndexedFast crc32 (threeMembers.input.bytes.drop 32) [] 0 =
      .ok (32, [65]) := by decide +kernel
  rcases hreached hpos with rfl | rfl | rfl
  · rw [h0] at hsize
    cases hsize
    exact frame_length hdecode0 hframe
  · rw [h32] at hsize
    cases hsize
    exact frame_length hdecode32 hframe
  · rw [h64] at hsize
    cases hsize

/-- The serial decoder accepts the three members. -/
theorem accepts_threeMembers : threeMembers.Accepts [65, 65, 65] :=
  ⟨18, 3, 70, 3, [[65], [65], [65]], by decide +kernel, by decide +kernel, rfl⟩

/-- The default chunk size fits them. -/
theorem sizeFits_threeMembers : threeMembers.SizeFits :=
  sizeFits_of_length (by decide) (by decide +kernel)

/-- The blocks end with the second member. -/
theorem stop_threeMembers : threeMembers.blocks.stop = 64 :=
  ((Bgzf.Config.ranges_walk threeMembers.blocks).unique Bgzf.ranges_threeMembers).2.1

/-- The third member has a header of ten bytes. -/
theorem parseHeader_threeMembers {headerLen : ℕ}
    (h : Gzip.parseHeader (threeMembers.input.bytes.drop threeMembers.blocks.stop) =
      .ok headerLen) : headerLen = 10 := by
  have hten : Gzip.parseHeader (threeMembers.input.bytes.drop 64) = .ok 10 := by decide +kernel
  rw [stop_threeMembers, hten, Except.ok.injEq] at h
  exact h.symm

/-- No worker runs off its vector in the third member. -/
theorem restFits_threeMembers : threeMembers.RestFits := by
  intro _ _ headerLen hheader
  obtain rfl := parseHeader_threeMembers hheader
  rw [stop_threeMembers]
  exact itemsFit_of_plainMembers narrow16 (by decide +kernel) (by decide +kernel) _

/-- The decoders have what they need. -/
theorem admits_threeMembers : threeMembers.Admits where
  chunkSize := sizeFits_threeMembers
  stream _ h := by
    have hnone : threeMembers.input.streamed = none := rfl
    rw [hnone] at h
    cases h
  sizes _ := trueSizes_threeMembers
  chunks hthreads headerLen hheader := by
    obtain rfl := parseHeader_threeMembers hheader
    rw [stop_threeMembers]
    exact Mmap.shortChunks_of_length Bgzf.bodyMembers_threeMembers (by simp)
  rest := restFits_threeMembers

/-- Every run on two blocks and a member behind them returns three bytes. -/
theorem inevitable_readGz_threeMembers :
    Inevitable (Step threeMembers) (Delivers [65, 65, 65]) .opened :=
  inevitable_readGz accepts_threeMembers admits_threeMembers

end ThreeMembers

end ReadGz

end Pipeline

end RustyRapidgzip
