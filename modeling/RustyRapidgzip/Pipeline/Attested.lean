import RustyRapidgzip.Pipeline.ReadGz

/-!
# What a result of a call stands for

Whatever the source holds and whichever decoder is taken, a call that returns a result has sent
members, and each of them matches a trailer that the source holds, as long as no worker runs off
the vector of its chunk.
-/

namespace RustyRapidgzip

open LsbBits Reference Lz Crc Threads Transition

namespace Pipeline

/-- Bytes that are members in a row, each of which matches a trailer that the source holds. -/
def Attested (crc : Checksum) (bytes : List UInt8) (count : ℕ) (o : List UInt8) : Prop :=
  ∃ outs : List (List UInt8 × Trailer), outs.length = count ∧ o = (outs.map Prod.fst).flatten ∧
    ∀ m ∈ outs, Passes crc m ∧ TrailerIn bytes m.2

section Attested

variable {crc : Checksum} {bytes o o' : List UInt8} {n n' k : ℕ}

/-- Nothing is attested by no trailer. -/
theorem Attested.nil : Attested crc bytes 0 [] := ⟨[], rfl, rfl, by simp⟩

/-- Members behind members are attested. -/
theorem Attested.append (h : Attested crc bytes n o) (h' : Attested crc bytes n' o') :
    Attested crc bytes (n + n') (o ++ o') := by
  obtain ⟨outs, rfl, rfl, hmem⟩ := h
  obtain ⟨outs', rfl, rfl, hmem'⟩ := h'
  refine ⟨outs ++ outs', List.length_append, ?_, ?_⟩
  · rw [List.map_append, List.flatten_append]
  · exact List.forall_mem_append.mpr ⟨hmem, hmem'⟩

/-- The trailers may be looked for in more bytes. -/
theorem Attested.shift {part : List UInt8} (h : Attested crc part n o)
    (htrailer : ∀ trailer, TrailerIn part trailer →
      TrailerIn bytes { trailer with trailerInputByte := k + trailer.trailerInputByte }) :
    Attested crc bytes n o := by
  obtain ⟨outs, rfl, rfl, hmem⟩ := h
  refine ⟨outs.map fun m =>
    (m.1, { m.2 with trailerInputByte := k + m.2.trailerInputByte }), List.length_map _, ?_, ?_⟩
  · rw [List.map_map]
    rfl
  · intro m hm
    obtain ⟨m', hm', rfl⟩ := List.mem_map.mp hm
    exact ⟨(hmem m' hm').1, htrailer _ (hmem m' hm').2⟩

/-- The trailers of a later part stand in the whole. -/
theorem Attested.of_drop (h : Attested crc (bytes.drop k) n o) : Attested crc bytes n o := by
  refine h.shift (k := k) fun trailer ⟨hroom, hcrc, hsize⟩ => ⟨?_, ?_, ?_⟩
  · rw [List.length_drop] at hroom
    simp only
    omega
  · rwa [List.drop_drop] at hcrc
  · rwa [List.drop_drop, ← Nat.add_assoc] at hsize

/-- The trailers of an earlier part stand in the whole. -/
theorem Attested.of_take (h : Attested crc (bytes.take k) n o) : Attested crc bytes n o := by
  refine h.shift (k := 0) fun trailer ⟨hroom, hcrc, hsize⟩ => ?_
  have hlength := List.length_take_le k bytes
  rw [List.length_take] at hroom
  have htake {pos : ℕ} (hpos : pos + 4 ≤ min k bytes.length) :
      ((bytes.take k).drop pos).take 4 = (bytes.drop pos).take 4 := by
    rw [List.drop_take, List.take_take, Nat.min_eq_left (by omega)]
  refine ⟨?_, ?_, ?_⟩
  · simp only
    omega
  · simp only [Nat.zero_add]
    rwa [htake (by omega)] at hcrc
  · simp only [Nat.zero_add]
    rwa [htake (by omega)] at hsize

/-- A member of the format matches its trailer. -/
theorem attested_of_member {out : List UInt8} (h : Gzip.Member crc bytes out n o) :
    Attested crc bytes 1 o := by
  obtain ⟨ts, trailerStart, -, -, htrailer⟩ := Gzip.member_iff.mp h
  obtain ⟨hroom, hcrc, hsize, -⟩ := Gzip.checkTrailer_ok_iff.mp htrailer
  refine ⟨[(o, ⟨leNat ((bytes.drop trailerStart).take 4),
    leNat ((bytes.drop (trailerStart + 4)).take 4), trailerStart⟩)], rfl, by simp, ?_⟩
  intro m hm
  rw [List.mem_singleton.mp hm]
  exact ⟨⟨hcrc, hsize⟩, hroom, rfl, rfl⟩

/-- The trailers of a body are trailers that it holds. -/
theorem BodyParse.trailerIn {body : List UInt8} {pos : ℕ} {members : List (List Token × Trailer)}
    (h : BodyParse body pos members) : ∀ m ∈ members, TrailerIn body m.2 := by
  induction h with
  | last _ htrailer _ =>
    intro m hm
    rw [List.mem_singleton.mp hm]
    exact trailerIn_of_trailerAt htrailer
  | next _ htrailer _ _ ih => exact List.forall_mem_cons.mpr ⟨trailerIn_of_trailerAt htrailer, ih⟩

/-- Expanding members keeps their trailers. -/
theorem Expands.trailers {own : List UInt8} {members : List (List Token × Trailer)}
    {outs : List (List UInt8 × Trailer)} (h : Expands own members outs) :
    outs.map Prod.snd = members.map Prod.snd := by
  induction h with
  | nil => rfl
  | cons _ _ ih => rw [List.map_cons, List.map_cons, ih]

/-- What the serial decoder accepts is attested. -/
theorem BodyMembers.attested {body : List UInt8} (h : BodyMembers crc body o) :
    ∃ count, 0 < count ∧ Attested crc body count o := by
  obtain ⟨members, outs, hparse, hexpands, hpass, rfl⟩ := bodyMembers_iff_membersAt.mp h
  have htrailers := hexpands.trailers
  have hlength : outs.length = members.length := by
    simpa using congrArg List.length htrailers
  refine ⟨outs.length, ?_, outs, rfl, rfl, fun m hm => ⟨hpass m hm, ?_⟩⟩
  · rw [hlength]
    exact List.length_pos_of_ne_nil hparse.ne_nil
  · have hm' := List.mem_map_of_mem (f := Prod.snd) hm
    rw [htrailers] at hm'
    obtain ⟨m', hm', heq⟩ := List.mem_map.mp hm'
    rw [← heq]
    exact hparse.trailerIn m' hm'

end Attested

/-! ## The member decoder -/

namespace Mmap

section Mmap

variable {crc : Checksum} {body : List UInt8} {boundaries : List ℕ} {t : ThreadConfig}
  {total bc sent failures : ℕ}

/-- The last member of a chunk that ends the body ends with the chunk. -/
theorem last_offset {room endBitHint pos : ℕ} {first : Bool} {cells : List ℕ} {r : ChunkEnd}
    (h : ChunkRun room body endBitHint first pos cells r) (hfinal : r.finalBlock = true) :
    ∃ mb, (r.members.map Prod.snd).getLast? = some mb ∧ mb.byteOffsetInChunk = r.cells.length := by
  induction h with
  | full _ => cases hfinal
  | part _ _ _ => cases hfinal
  | last _ _ _ _ _ => exact ⟨_, rfl, rfl⟩
  | next _ _ _ _ _ _ ih =>
    obtain ⟨mb, hlast, hoffset⟩ := ih hfinal
    refine ⟨mb, ?_, hoffset⟩
    rw [List.map_cons, List.getLast?_cons, hlast]
    rfl

/-- A whole chain leaves no member open, and completes one. -/
theorem Succeeds.whole {rs : List WorkResult} {r : WorkResult} {ds : List ResolveDone}
    (h : Succeeds (Unbounded.memberConfig crc body boundaries t) rs r ds bc) :
    (cutAll ds).2 = [] ∧ 0 < (cutAll ds).1.length := by
  obtain ⟨ds, d, rfl, -, hjob⟩ := resolves_snoc_iff.mp h.resolves
  obtain ⟨_, r', hrun, rfl⟩ := h.chain.chunkRun
  obtain ⟨mb, hlast, hoffset⟩ := last_offset hrun h.final
  have hboundaries : d.memberBoundaries = r'.members.map Prod.snd := (resolveJob_ok hjob).2.2
  have hlength : d.chunk.bytes.length = r'.cells.length := by
    rw [length_resolveJob hjob]
    simp [jobAt, ChunkEnd.result, chunkOf]
  rw [cutAll_snoc, hboundaries]
  refine ⟨Streaming.cut_snd_eq_nil hlast (hoffset.trans hlength.symm), ?_⟩
  have hne : r'.members.map Prod.snd ≠ [] := by
    intro hnil
    rw [hnil] at hlast
    cases hlast
  rw [List.length_append, cut_length]
  exact Nat.add_pos_right _ (List.length_pos_of_ne_nil hne)

/-- A call whose items fit has sent members, if it returns a result. -/
theorem attested_received {build : Build} {s : State (memberConfig build crc body boundaries t)}
    (hfits : ItemsFit build body (Unbounded.memberConfig crc body boundaries t))
    (hreach : Reaches (Step _) (init _) s)
    (hreturned : s.Returned (.ok (total, bc, sent, failures))) :
    (∃ count, 0 < count ∧ Attested crc body count s.sink.received.flatten) ∧
      total = s.sink.received.flatten.length ∧ sent = s.sink.received.length := by
  rcases returned_of_itemsFit hfits hreach hreturned with
    ⟨rs, r, ds, bc', failures', -, hsucceeds, hreceived, hres⟩ | ⟨e, hres, -⟩
  swap
  · cases hres
  cases hres
  rw [hreceived]
  have hcuttable := hsucceeds.chain.cuttable hsucceeds.resolves
  obtain ⟨m, hstitched⟩ := hsucceeds.checks
  have hpass := ((stitchAll_iff hsucceeds.resolves hcuttable).mp hstitched).1
  have hflatten := cutAll_flatten hcuttable
  obtain ⟨hown, hpos⟩ := hsucceeds.whole
  rw [hown, List.append_nil] at hflatten
  refine ⟨⟨_, hpos, _, rfl, hflatten.symm, fun m hm => ⟨hpass m hm, ?_⟩⟩, rfl,
    (List.length_map _).symm⟩
  rw [(cutAll_eq_cut hsucceeds.resolves hcuttable).2] at hm
  have htrailer := List.mem_map_of_mem (f := Prod.snd) hm
  rw [cut_trailers] at htrailer
  obtain ⟨mb, hmb, hsame⟩ := List.mem_map.mp htrailer
  rw [← hsame]
  exact hsucceeds.chain.trailerIn mb hmb

end Mmap

end Mmap

/-! ## The streaming decoder -/

namespace Streaming

section Streaming

variable {c : Config} {F : String → Prop} {s : State c} {total chunks compressed : ℕ}

/-- The body is a later part of the stream. -/
theorem Config.exists_body_eq (c : Config) : ∃ k, c.body = c.reads.flatten.drop k := by
  unfold Config.body
  cases Gzip.parseHeader c.reads.flatten with
  | error e => exact ⟨c.reads.flatten.length, List.drop_length.symm⟩
  | ok headerLen => exact ⟨headerLen, rfl⟩

/-- What is received where a result is returned is attested. -/
theorem attested_received (hn : 0 < c.numThreads) (hfind : Answers c.find)
    (hreads : ∀ r ∈ c.reads, r ≠ []) (hover : c.dispatched ≠ .error .overflow)
    (hfits : c.ItemsFit) (hbits : 8 * c.body.length < U64_MAX)
    (hreach : Reaches (Call c F) (init c) s) (hopen : s.sink.isOpen = true)
    (hreturned : s.Returned (.ok (total, chunks, compressed))) :
    (∃ count, 0 < count ∧ Attested c.crc c.reads.flatten count s.sink.received.flatten) ∧
      total = s.sink.received.flatten.length ∧ chunks = s.sink.received.length ∧
      compressed = c.reads.flatten.length := by
  obtain ⟨⟨rs, ds, hcomplete⟩, htotal, hchunks, hcompressed⟩ :=
    complete_of_returned hn hfind hreads hover hfits hreach hopen hreturned
  obtain ⟨hown, m, hlast, -⟩ := hcomplete.ends hbits
  have hflatten := hcomplete.flatten_eq
  rw [hown, List.append_nil] at hflatten
  have hbody : Attested c.crc c.body (cutAll ds).1.length s.sink.received.flatten :=
    ⟨_, rfl, hflatten.symm, hcomplete.members⟩
  obtain ⟨k, hk⟩ := c.exists_body_eq
  rw [hk] at hbody
  refine ⟨⟨_, ?_, hbody.of_drop⟩, htotal, hchunks, hcompressed⟩
  exact List.length_pos_of_mem (List.mem_of_getLast? hlast)

end Streaming

end Streaming

/-! ## The decoder for BGZF blocks -/

namespace Bgzf

section Bgzf

variable {crc : Checksum} {file out res : List UInt8} {member : ℕ} {ranges : List (ℕ × ℕ)}
  {c : Config} {t : Call c} {batches : List Batch} {received : List (List UInt8)} {uc ch : ℕ}

/-- The blocks of a batch that decodes match their trailers. -/
theorem attested_of_decodeRanges (h : decodeRanges crc file member ranges out = .ok res) :
    ∃ o, res = out ++ o ∧ Attested crc file ranges.length o := by
  induction ranges generalizing member out with
  | nil =>
    rw [decodeRanges, Except.ok.injEq] at h
    exact ⟨[], by rw [List.append_nil, h], .nil⟩
  | cons range ranges ih =>
    rw [decodeRanges] at h
    cases hdecode : Gzip.decodeOneIndexedFast crc (slice file range) out member with
    | error e => simp [hdecode] at h
    | ok r =>
      obtain ⟨consumed, res'⟩ := r
      rw [hdecode] at h
      obtain ⟨o, hmember, rfl⟩ := ((Gzip.decodesMember_decodeOneIndexedFast crc (slice file range)
        out member).1 consumed res').mp hdecode
      obtain ⟨o', rfl, hrest⟩ := ih h
      refine ⟨o ++ o', List.append_assoc _ _ _, ?_⟩
      have hfirst : Attested crc file 1 o := (attested_of_member hmember).of_take.of_drop
      rw [List.length_cons, Nat.add_comm]
      exact hfirst.append hrest

/-- The batches that have been sent match the trailers of their blocks. -/
theorem attested_of_decoded (h : List.Forall₂ (Decoded c) batches received) :
    Attested c.crc c.file (batches.flatMap Batch.ranges).length received.flatten := by
  induction h with
  | nil => exact .nil
  | @cons b o _ _ hbatch _ ih =>
    rw [Decoded, decodeBatch] at hbatch
    cases hranges : decodeRanges c.crc c.file b.firstMember b.ranges [] with
    | error e => simp [hranges] at hbatch
    | ok res =>
      rw [hranges, Except.ok.injEq, Prod.mk.injEq] at hbatch
      obtain ⟨o', rfl, hattested⟩ := attested_of_decodeRanges hranges
      rw [List.flatMap_cons, List.length_append, List.flatten_cons, ← hbatch.2]
      exact hattested.append ih

/-- A walk without an error from a block on has found a block. -/
theorem length_ranges_pos (hfirst : (Gzip.parseBgzfBlockSize c.file).isSome = true)
    (hnone : (walk c.file c.chunkSizeBytes).2 = none) : 0 < c.ranges.length := by
  have hwalk := c.ranges_walk
  rw [hnone] at hwalk
  generalize c.ranges = ranges, c.stop = stop at hwalk
  cases hwalk with
  | done hend =>
    rw [List.drop_zero] at hend
    simp [hend] at hfirst
  | block _ _ _ => exact Nat.succ_pos _

/-- What a call returns when it has sent members that match their trailers. -/
def Sums (c : Config) (received : List (List UInt8)) (uc ch : ℕ) : Prop :=
  (∃ count, 0 < count ∧ Attested c.crc c.file count received.flatten) ∧
    uc = received.flatten.length ∧ ch = received.length

/-- What follows the blocks adds to what they have sent. -/
theorem State.Done.sums {s : State c} (hdone : s.Done) (hfailure : s.failure = none)
    (hfirst : (Gzip.parseBgzfBlockSize c.file).isSome = true) {sent : List (List UInt8)}
    {count : ℕ} (hrest : Attested c.crc c.file count sent.flatten)
    (huc : uc = sent.flatten.length) (hch : ch = sent.length) :
    Sums c (s.sink.received ++ sent) (s.serializer.totalUncompressed + uc)
      (s.serializer.chunksSent + ch) := by
  have hpos := length_ranges_pos hfirst (hdone.results.1.symm.trans hfailure)
  have hblocks : Attested c.crc c.file c.ranges.length s.sink.received.flatten :=
    attested_of_decoded hdone.received
  refine ⟨⟨c.ranges.length + count, by omega, ?_⟩, ?_, ?_⟩
  · rw [List.flatten_append]
    exact hblocks.append hrest
  · rw [hdone.sent.total_eq, Nat.add_zero, huc, List.flatten_append, List.length_append]
  · rw [hdone.sent.chunks_eq, hch, List.length_append]

/-- The decoder of what follows the blocks is not started after a failure. -/
def Call.Clean : Call c → Prop
  | .member s _ _ _ => s.failure = none
  | .blocks _ => True
  | .returned _ _ => True

/-- Every step keeps what is known of the results so far. -/
theorem Call.Step.clean {t t' : Call c} (h : Call.Step c t t') (ht : t.Clean) : t'.Clean := by
  cases h with
  | start _ hfailure _ _ _ => exact hfailure
  | member _ _ => exact ht
  | blocks _ => trivial
  | fail _ _ => trivial
  | done _ _ _ => trivial
  | badHeader _ _ _ _ => trivial
  | serial _ _ _ _ _ _ => trivial
  | serialErr _ _ _ _ _ _ => trivial
  | returnErr _ => trivial
  | returnOk _ => trivial

/-- The last step of a call that returns a result. -/
theorem sums_of_step (hfirst : (Gzip.parseBgzfBlockSize c.file).isSome = true)
    (hfits : ∀ hthreads headerLen, Gzip.parseHeader (c.file.drop c.stop) = .ok headerLen →
      ItemsFit c.build (c.file.drop (c.stop + headerLen))
        (c.unboundedMember hthreads (c.stop + headerLen))) (ht : t.Stands)
    (hclean : t.Clean) (hstep : Call.Step c t (.returned received (.ok (uc, ch)))) :
    Sums c received uc ch := by
  generalize hresult : (Except.ok (uc, ch) : Except Error (ℕ × ℕ)) = result at hstep
  cases hstep with
  | fail _ _ => cases hresult
  | badHeader _ _ _ _ => cases hresult
  | serialErr _ _ _ _ _ _ => cases hresult
  | returnErr _ => cases hresult
  | @done s hphase hfailure _ =>
    cases hresult
    have hnothing : Attested c.crc c.file 0 ([] : List (List UInt8)).flatten := .nil
    have hsums := (done_of_joined ht hphase hfailure).1.sums hfailure hfirst hnothing rfl rfl
    simpa using hsums
  | @serial s headerLen _ _ _ _ hphase hfailure _ _ _ hserial =>
    cases hresult
    have houtcome := serialOutcome_serialDecodeMember c.crc c.file (s.dispatched.1 + headerLen)
      c.chunkSizeBytes
    rw [hserial] at houtcome
    obtain ⟨hmembers, huc, -, hch⟩ := houtcome
    obtain ⟨count, -, hattested⟩ := hmembers.attested
    exact (done_of_joined ht hphase hfailure).1.sums hfailure hfirst hattested.of_drop huc hch
  | @returnOk s hthreads bodyOffset m _ _ _ _ hreturned =>
    cases hresult
    obtain ⟨hdone, headerLen, hheader, rfl, hreach⟩ := ht
    obtain ⟨⟨count, -, hattested⟩, huc, hch⟩ :=
      Mmap.attested_received (hfits hthreads headerLen hheader) hreach hreturned
    exact hdone.sums hclean hfirst hattested.of_drop huc hch

/-- Every run of a call on a file that begins with a block returns members that match their
trailers, if it returns a result. -/
theorem sums_of_reaches (hfirst : (Gzip.parseBgzfBlockSize c.file).isSome = true)
    (hfits : ∀ hthreads headerLen, Gzip.parseHeader (c.file.drop c.stop) = .ok headerLen →
      ItemsFit c.build (c.file.drop (c.stop + headerLen))
        (c.unboundedMember hthreads (c.stop + headerLen)))
    (h : Reaches (Call.Step c) (.blocks (init c)) (.returned received (.ok (uc, ch)))) :
    Sums c received uc ch := by
  rcases h.cases_tail with heq | ⟨t, hreach, hstep⟩
  · cases heq
  · have hclean := Reaches.invariant Call.Clean hreach (fun _ _ ht hstep => hstep.clean ht) trivial
    exact sums_of_step hfirst hfits (stands_of_reaches hreach) hclean hstep

end Bgzf

end Bgzf

/-! ## A whole call -/

namespace ReadGz

section ReadGz

variable {c : Config} {t t' : State c} {received : List (List UInt8)} {stats : DecodeStats}

/-- The decoders can work with the chunk size, the positions in a stream that the threads decode
have 64 bits, and no worker runs off the vector of its chunk. -/
structure Config.Fits (c : Config) : Prop where
  chunkSize : c.SizeFits
  stream : ∀ reads, c.input.streamed = some reads → 2 ≤ c.streamThreads →
    (c.streaming reads).dispatched ≠ .error .overflow ∧
      8 * (c.streaming reads).body.length < Streaming.U64_MAX ∧ (c.streaming reads).ItemsFit
  rest : c.RestFits

/-- What a call returns when it has sent members that match trailers of the source. -/
def Sound (c : Config) (received : List (List UInt8)) (stats : DecodeStats) : Prop :=
  (∃ count, 0 < count ∧ Attested c.crc c.input.bytes count received.flatten) ∧
    stats.uncompressedBytes = received.flatten.length ∧
    stats.chunksDecoded = received.length ∧ stats.compressedBytes = c.compressed

/-- Where a call stands: one of the decoders runs, or the call has returned. -/
def Stands : State c → Prop
  | .opened => True
  | .streaming reads s => c.input.streamed = some reads ∧ 2 ≤ c.streamThreads ∧
      Reaches (Streaming.Reads _ fun _ => False) (Streaming.init _) s
  | .blocks t => c.input.streamed = none ∧ c.IsBgzf ∧
      Reaches (Bgzf.Call.Step c.blocks) (.blocks (Bgzf.init _)) t
  | .member hthreads headerLen m => c.input.streamed = none ∧ ¬c.IsBgzf ∧
      Gzip.parseHeader c.input.bytes = .ok headerLen ∧
      Reaches (Mmap.Step (c.member hthreads headerLen)) (Mmap.init _) m
  | .returned received r => ∀ stats, r = .ok stats → Sound c received stats

/-- A result of the streaming decoder is sound. -/
theorem sound_streamed {reads : List (List UInt8)} {s : Streaming.State (c.streaming reads)}
    {total chunks compressed : ℕ} (hfits : c.Fits) (h : Stands (.streaming reads s))
    (hreturned : s.Returned (.ok (total, chunks, compressed))) :
    Sound c s.sink.received ⟨compressed, total, chunks, 0⟩ := by
  obtain ⟨hinput, hthreads, hreach⟩ := h
  obtain ⟨hover, hbits, hitems⟩ := hfits.stream reads hinput hthreads
  obtain ⟨hcall, hopen⟩ := Streaming.call_of_reads hreach
  have hn : 0 < (c.streaming reads).numThreads := Nat.lt_of_lt_of_le Nat.two_pos hthreads
  obtain ⟨⟨count, hpos, hattested⟩, htotal, hchunks, hcompressed⟩ :=
    Streaming.attested_received hn Streaming.answers_findNextDynamicBlock
      (c.reads_ne_nil reads hinput) hover hitems hbits hcall hopen hreturned
  refine ⟨⟨count, hpos, ?_⟩, htotal, hchunks, ?_⟩
  · rw [streamed_bytes hinput]
    exact hattested
  · rw [Config.compressed, if_neg (by omega), streamed_bytes hinput]
    exact hcompressed

/-- For a file the compressed bytes are all of it. -/
theorem compressed_file (hinput : c.input.streamed = none) :
    c.compressed = c.input.bytes.length := by
  rw [Config.compressed, hinput]
  rfl

/-- What a call has found out about its source stays true. -/
theorem Step.stands (hfits : c.Fits) (h : Step c t t') (ht : Stands t) : Stands t' := by
  cases h with
  | @streamOk reads sent total chunks hinput hthreads hserial =>
    intro stats hstats
    cases hstats
    have hstream := streamOutcome_readGzStreaming c.crc (c.reads_ne_nil reads hinput)
    rw [hserial, ← streamed_bytes hinput] at hstream
    obtain ⟨⟨headerLen, -, hmembers⟩, htotal, hchunks⟩ := hstream
    obtain ⟨count, hpos, hattested⟩ := hmembers.attested
    refine ⟨⟨count, hpos, hattested.of_drop⟩, htotal, hchunks, ?_⟩
    rw [Config.compressed, if_pos ⟨by rw [hinput]; rfl, hthreads⟩]
  | streamErr _ _ _ => intro _ hstats; cases hstats
  | startStreaming hinput hthreads => exact ⟨hinput, hthreads, .refl⟩
  | startBlocks hinput hbgzf => exact ⟨hinput, hbgzf, .refl⟩
  | badHeader _ _ _ => intro _ hstats; cases hstats
  | @serialOk headerLen _ _ _ _ hinput _ _ _ hserial =>
    intro stats hstats
    cases hstats
    have houtcome := serialOutcome_serialDecodeMember c.crc c.input.bytes headerLen
      c.chunkSizeBytes
    rw [hserial] at houtcome
    obtain ⟨hmembers, huc, -, hch⟩ := houtcome
    obtain ⟨count, hpos, hattested⟩ := hmembers.attested
    exact ⟨⟨count, hpos, hattested.of_drop⟩, huc, hch, (compressed_file hinput).symm⟩
  | serialErr _ _ _ _ _ => intro _ hstats; cases hstats
  | startMember hinput hplain hheader _ => exact ⟨hinput, hplain, hheader, .refl⟩
  | streaming _ hstep => exact ⟨ht.1, ht.2.1, ht.2.2.tail hstep⟩
  | streamedOk hreturned =>
    intro stats hstats
    cases hstats
    exact sound_streamed hfits ht hreturned
  | streamedErr _ => intro _ hstats; cases hstats
  | blocks hstep => exact ⟨ht.1, ht.2.1, ht.2.2.tail hstep⟩
  | blocksOk =>
    intro stats hstats
    cases hstats
    obtain ⟨hattested, huc, hch⟩ :=
      Bgzf.sums_of_reaches (c := c.blocks) ht.2.1 (hfits.rest ht.1) ht.2.2
    exact ⟨hattested, huc, hch, (compressed_file ht.1).symm⟩
  | blocksErr => intro _ hstats; cases hstats
  | member _ hstep => exact ⟨ht.1, ht.2.1, ht.2.2.1, ht.2.2.2.tail hstep⟩
  | memberOk hreturned =>
    intro stats hstats
    cases hstats
    obtain ⟨hinput, hplain, hheader, hreach⟩ := ht
    obtain ⟨⟨count, hpos, hattested⟩, huc, hch⟩ := Mmap.attested_received
      (hfits.rest.member hinput hplain hheader _) hreach hreturned
    exact ⟨⟨count, hpos, hattested.of_drop⟩, huc, hch, (compressed_file hinput).symm⟩
  | memberErr _ => intro _ hstats; cases hstats

end ReadGz

end ReadGz

end Pipeline

end RustyRapidgzip
