import RustyRapidgzip.Pipeline.BgzfCall
import RustyRapidgzip.Pipeline.Isolation

/-!
# What the BGZF decoder leaves out

Dispatch takes the length of a block from its header, and a worker decodes the member that starts
there. The worker does not compare the two lengths: what follows the member in its range is left
out. Where every subfield tells the length of its member, a call that succeeds has sent what the
decoder of all members gives.
-/

namespace RustyRapidgzip

open LsbBits Reference Lz Crc Threads Transition

namespace Pipeline

section Members

variable {crc : Checksum} {input body history o os : List UInt8} {headerLen k : ℕ}
  {ts : List Token} {rest : List Bool} {trailer : Trailer}
  {ms : List (List Token × Trailer)} {outs : List (List UInt8 × Trailer)}

/-- What follows a stream, in a file and in a body that hold it. -/
theorem drop_of_stream (hbody : input.drop headerLen = body.drop k)
    (hstream : Stream 0 (bits (input.drop headerLen)) ts rest) (i : ℕ) :
    input.drop (headerLen + (8 * (input.drop headerLen).length - rest.length + 7) / 8 + i) =
      (fromBoundary body rest).drop i := by
  have hlt := hstream.length_lt
  rw [bits_length, hbody, List.length_drop] at hlt
  rw [Nat.add_assoc, ← List.drop_drop, hbody, List.length_drop, fromBoundary, List.drop_drop,
    List.drop_drop]
  congr 1
  omega

/-- A header, a stream and a trailer at a place of a body are a member. -/
theorem member_of_stream (hheader : Gzip.parseHeader input = .ok headerLen)
    (hbody : input.drop headerLen = body.drop k)
    (hstream : Stream 0 ((bits body).drop (8 * k)) ts rest)
    (hexpand : expand id history ts = some (history ++ o))
    (htrailer : trailerAt body (8 * body.length - rest.length) = .ok trailer)
    (hpasses : Passes crc (o, trailer)) :
    ∃ n, Gzip.Member crc input history n o ∧
      input.drop n = body.drop (trailer.trailerInputByte + 8) := by
  have hrest := blocks_length_le hstream
  rw [← bits_drop, ← hbody] at hstream
  have hplace := drop_of_stream hbody hstream
  obtain ⟨hroom, hcrc, hsize⟩ := (trailerAt_iff hrest).mpr ⟨trailer, htrailer, hpasses⟩
  have hstart := hplace 0
  rw [Nat.add_zero, List.drop_zero] at hstart
  rw [← hstart] at hroom hcrc
  rw [← hplace] at hsize
  rw [List.length_drop] at hroom
  exact ⟨_, Gzip.member_iff.mpr ⟨ts, _, ⟨headerLen, rest, hheader, hstream, rfl⟩, hexpand,
    Gzip.checkTrailer_ok_iff.mpr ⟨by omega, hcrc, hsize, rfl⟩⟩, by
      rw [hplace, trailerAt_drop hrest htrailer]⟩

/-- A header and what ends a member are a member. -/
theorem member_of_ends {tail : List UInt8} (hheader : Gzip.parseHeader input = .ok headerLen)
    (h : Ends crc (input.drop headerLen) (bits (input.drop headerLen)) [] o tail) :
    ∃ n, Gzip.Member crc input [] n o ∧ tail = input.drop n := by
  obtain ⟨rest, ⟨ts, hstream, hexpand⟩, hmatches, rfl⟩ := h
  have hstream' : Stream 0 ((bits (input.drop headerLen)).drop (8 * 0)) ts rest := hstream
  have hrest := blocks_length_le hstream'
  obtain ⟨trailer, htrailer, hpasses⟩ := (trailerAt_iff hrest).mp hmatches
  obtain ⟨n, hmember, hdrop⟩ := member_of_stream hheader List.drop_zero.symm hstream' hexpand
    htrailer hpasses
  exact ⟨n, hmember, by rw [hdrop, trailerAt_drop hrest htrailer]⟩

/-- The members of a body that pass their checks behind each other are members of the format. -/
theorem members_of_behind (hparse : BodyParse body (8 * k) ms)
    (hexpands : ExpandsBehind history ms outs) (hpass : ∀ m ∈ outs, Passes crc m)
    (hheader : Gzip.parseHeader input = .ok headerLen)
    (hbody : input.drop headerLen = body.drop k) :
    Gzip.Members crc input history (outs.map Prod.fst).flatten := by
  generalize hpos : 8 * k = pos at hparse
  induction hparse generalizing k history outs input headerLen with
  | last hstream htrailer hnext =>
    subst hpos
    cases hexpands with
    | cons hexpand hrest =>
      cases hrest
      obtain ⟨n, hmember, htail⟩ := member_of_stream hheader hbody hstream hexpand htrailer
        (hpass _ List.mem_cons_self)
      rw [List.drop_eq_nil_of_le (nextMember_none hnext)] at htail
      refine .cons hmember ?_
      rw [htail]
      exact .nil
  | next hstream htrailer hnext _ ih =>
    subst hpos
    cases hexpands with
    | cons hexpand hrest =>
      rw [List.forall_mem_cons] at hpass
      obtain ⟨-, headerLen', hheader', rfl⟩ := nextMember_iff.mp hnext
      obtain ⟨n, hmember, htail⟩ := member_of_stream hheader hbody hstream hexpand htrailer hpass.1
      rw [← htail] at hheader'
      rw [List.map_cons, List.flatten_cons]
      exact .cons hmember (ih hrest hpass.2 hheader' (by rw [htail, List.drop_drop]) rfl)

/-- The members of a body are members of the format, behind their header. -/
theorem BodyMembers.members (hheader : Gzip.parseHeader input = .ok headerLen)
    (h : BodyMembers crc (input.drop headerLen) os) : Gzip.Members crc input [] os := by
  obtain ⟨ms, outs, hparse, hexpands, hpass, rfl⟩ := bodyMembers_iff_membersAt.mp h
  exact members_of_behind (k := 0) hparse (hexpands.behind []) hpass hheader List.drop_zero.symm

/-- Members that decode on their own are isolated. -/
theorem BodyMembers.isolated {body : List UInt8} (h : BodyMembers crc body os) : Isolated body := by
  obtain ⟨members, outs, hparse, hexpands, -, -⟩ := bodyMembers_iff_membersAt.mp h
  intro members' hparse'
  rw [hparse'.unique hparse]
  exact ⟨outs, hexpands⟩

end Members

namespace Bgzf

/-- The ranges of the blocks. -/
def Config.ranges (c : Config) : List (ℕ × ℕ) := c.batches.flatMap Batch.ranges

/-- Where the blocks end. -/
def Config.stop (c : Config) : ℕ := (walk c.file c.chunkSizeBytes).1.pos

/-- The member that starts with a range ends with it. -/
def Fills (file : List UInt8) (range : ℕ × ℕ) : Prop :=
  ∀ ts trailerStart, Gzip.Frame (slice file range) ts trailerStart →
    trailerStart + 8 ≤ (slice file range).length → range.1 + (trailerStart + 8) = range.2

/-- What a worker consumes of a range is the whole range. -/
def ConsumedInFull (crc : Checksum) (file : List UInt8) (range : ℕ × ℕ) : Prop :=
  ∀ out member consumed res,
    Gzip.decodeOneIndexedFast crc (slice file range) out member = .ok (consumed, res) →
      range.1 + consumed = range.2

/-- The subfield at the start of a range tells the length of the member there. -/
def TellsLength (file : List UInt8) (range : ℕ × ℕ) : Prop :=
  ∀ ts trailerStart, Gzip.Frame (file.drop range.1) ts trailerStart →
    Gzip.parseBgzfBlockSize (file.drop range.1) = some (trailerStart + 8)

/-- With several threads, the workers do not run off the vectors of the chunks of what follows the
blocks, no later member of such a chunk copies a byte that is not known yet, and none has a marker
behind its first 4 GiB. -/
def Config.RestKnown (c : Config) : Prop :=
  ∀ (hthreads : 2 ≤ c.numThreads) (headerLen : ℕ),
    Gzip.parseHeader (c.file.drop c.stop) = .ok headerLen →
    ItemsFit c.build (c.file.drop (c.stop + headerLen))
        (c.unboundedMember hthreads (c.stop + headerLen)) ∧
      ∀ rs, Mmap.Chain (c.unboundedMember hthreads (c.stop + headerLen)) rs →
        Mmap.NearChunks (c.file.drop (c.stop + headerLen)) rs ∧
          Mmap.KnownChunks (c.file.drop (c.stop + headerLen)) rs

/-- What the call sends for what follows the blocks. -/
inductive Config.SendsRest (c : Config) : List (List UInt8) → Prop
  | nothing (hend : c.file.length ≤ c.stop) : SendsRest c []
  | serial {headerLen uc consumed ch : ℕ} {sent : List (List UInt8)}
      (hheader : Gzip.parseHeader (c.file.drop c.stop) = .ok headerLen)
      (hserial : serialDecodeMember c.crc c.file (c.stop + headerLen) c.chunkSizeBytes =
        .ok ((uc, consumed, ch), sent)) : SendsRest c sent
  | parallel {headerLen : ℕ} {hthreads : 2 ≤ c.numThreads}
      {m : Mmap.State (c.member hthreads (c.stop + headerLen))} {r : ℕ × ℕ × ℕ × ℕ}
      (hheader : Gzip.parseHeader (c.file.drop c.stop) = .ok headerLen)
      (hreach : Reaches (Mmap.Step _) (Mmap.init _) m) (hreturned : m.Returned (.ok r)) :
      SendsRest c m.sink.received

/-- Where a call stands: the threads run, they have sent all blocks and the parallel member decoder
runs, or everything has been sent if the call has succeeded. -/
def Call.Stands {c : Config} : Call c → Prop
  | .blocks s => Reaches (Bgzf.Step c) (init c) s
  | .member s hthreads bodyOffset m => s.Done ∧
      ∃ headerLen, Gzip.parseHeader (c.file.drop c.stop) = .ok headerLen ∧
        bodyOffset = c.stop + headerLen ∧
        Reaches (Mmap.Step (c.member hthreads bodyOffset)) (Mmap.init _) m
  | .returned received r => ∀ res, r = .ok res →
      ∃ (s : State c) (sent : List (List UInt8)), s.Done ∧ c.SendsRest sent ∧
        received = s.sink.received ++ sent

section Blocks

variable {crc : Checksum} {file out res : List UInt8} {range : ℕ × ℕ} {ranges : List (ℕ × ℕ)}
  {pos stop member : ℕ} {walkErr : Option Error}

/-- The ranges and what follows them are the file. -/
theorem Ranges.flatten_slices (h : Ranges file pos ranges stop walkErr) :
    (ranges.map (slice file)).flatten ++ file.drop stop = file.drop pos := by
  induction h with
  | done _ => rfl
  | truncated _ _ => rfl
  | @block pos size _ _ _ _ _ _ ih =>
    have hsplit := List.take_append_drop size (file.drop pos)
    rw [List.drop_drop] at hsplit
    rw [List.map_cons, List.flatten_cons, List.append_assoc, ih, slice, Nat.add_sub_cancel_left,
      hsplit]

/-- A range lies inside the file. -/
theorem Ranges.length_slice (h : Ranges file pos ranges stop walkErr) (hrange : range ∈ ranges) :
    range.1 + (slice file range).length = range.2 := by
  induction h with
  | done _ => simp at hrange
  | truncated _ _ => simp at hrange
  | block _ hfits _ ih =>
    rcases List.mem_cons.mp hrange with rfl | hrange
    · rw [slice, List.length_take, List.length_drop]
      omega
    · exact ih hrange

/-- The range that a worker decodes holds a whole member. -/
theorem frame_of_decode {consumed : ℕ}
    (h : Gzip.decodeOneIndexedFast crc (slice file range) out member = .ok (consumed, res)) :
    ∃ ts trailerStart, Gzip.Frame (slice file range) ts trailerStart ∧
      trailerStart + 8 ≤ (slice file range).length ∧ consumed = trailerStart + 8 := by
  obtain ⟨o, hmember, -⟩ := ((Gzip.decodesMember_decodeOneIndexedFast crc (slice file range) out
    member).1 consumed res).mp h
  obtain ⟨ts, trailerStart, hframe, -, htrailer⟩ := Gzip.member_iff.mp hmember
  obtain ⟨hroom, -, -, rfl⟩ := Gzip.checkTrailer_ok_iff.mp htrailer
  exact ⟨ts, trailerStart, hframe, hroom, rfl⟩

/-- A worker consumes a range that ends with its member in full. -/
theorem Fills.consumedInFull (h : Fills file range) : ConsumedInFull crc file range := by
  intro out member consumed res hdecode
  obtain ⟨ts, trailerStart, hframe, hroom, rfl⟩ := frame_of_decode hdecode
  exact h ts trailerStart hframe hroom

/-- A range that a worker has consumed in full ends with its member. -/
theorem fills_of_decode {consumed : ℕ}
    (h : Gzip.decodeOneIndexedFast crc (slice file range) out member = .ok (consumed, res))
    (hfull : range.1 + consumed = range.2) : Fills file range := by
  obtain ⟨ts, trailerStart, hframe, -, rfl⟩ := frame_of_decode h
  intro ts' trailerStart' hframe' _
  rw [← (hframe.unique hframe').2]
  exact hfull

/-- A batch that decodes has decoded each of its ranges. -/
theorem exists_decode_of_decodeRanges (h : decodeRanges crc file member ranges out = .ok res)
    (hrange : range ∈ ranges) : ∃ out' member' consumed res',
      Gzip.decodeOneIndexedFast crc (slice file range) out' member' = .ok (consumed, res') := by
  induction ranges generalizing member out with
  | nil => simp at hrange
  | cons range' ranges ih =>
    rw [decodeRanges] at h
    cases hdecode : Gzip.decodeOneIndexedFast crc (slice file range') out member with
    | error e => simp [hdecode] at h
    | ok r =>
      rw [hdecode] at h
      rcases List.mem_cons.mp hrange with rfl | hrange
      · exact ⟨out, member, r.1, r.2, hdecode⟩
      · exact ih h hrange

/-- A range lies where the subfield at its start says. -/
theorem Ranges.parseBgzfBlockSize_eq (h : Ranges file pos ranges stop walkErr)
    (hrange : range ∈ ranges) :
    Gzip.parseBgzfBlockSize (file.drop range.1) = some (range.2 - range.1) := by
  induction h with
  | done _ => simp at hrange
  | truncated _ _ => simp at hrange
  | block hsize _ _ ih =>
    rcases List.mem_cons.mp hrange with rfl | hrange
    · rw [hsize, Nat.add_sub_cancel_left]
    · exact ih hrange

/-- A range of blocks ends with its member exactly if the subfield tells the member's length, for a
range that decodes. -/
theorem fills_iff_tellsLength {consumed : ℕ}
    (h : Gzip.decodeOneIndexedFast crc (slice file range) out member = .ok (consumed, res))
    (hsize : Gzip.parseBgzfBlockSize (file.drop range.1) = some (range.2 - range.1))
    (hinside : range.1 + (slice file range).length = range.2) :
    Fills file range ↔ TellsLength file range := by
  obtain ⟨ts, trailerStart, hframe, hroom, -⟩ := frame_of_decode h
  have hfile : Gzip.Frame (file.drop range.1) ts trailerStart :=
    hframe.local ((List.take_prefix _ _).trans (List.take_prefix _ _))
  constructor
  · intro hfills ts' trailerStart' hframe'
    obtain ⟨-, rfl⟩ := hfile.unique hframe'
    have hend := hfills ts trailerStart hframe hroom
    rw [hsize]
    congr 1
    omega
  · intro htells ts' trailerStart' hframe' _
    obtain ⟨-, rfl⟩ := hframe.unique hframe'
    have hlength := htells ts trailerStart hfile
    rw [hsize, Option.some.injEq] at hlength
    omega

/-- Ranges that end with their members decode to the members of what they hold. -/
theorem members_of_decodeRanges (h : decodeRanges crc file member ranges out = .ok res)
    (hfills : ∀ range ∈ ranges, Fills file range)
    (hinside : ∀ range ∈ ranges, range.1 + (slice file range).length = range.2) :
    ∃ o, Gzip.Members crc (ranges.map (slice file)).flatten out o ∧ res = out ++ o := by
  induction ranges generalizing member out with
  | nil =>
    rw [decodeRanges, Except.ok.injEq] at h
    exact ⟨[], .nil, by rw [List.append_nil, h]⟩
  | cons range ranges ih =>
    rw [decodeRanges] at h
    rw [List.forall_mem_cons] at hfills hinside
    cases hdecode : Gzip.decodeOneIndexedFast crc (slice file range) out member with
    | error e => simp [hdecode] at h
    | ok r =>
      obtain ⟨consumed, res'⟩ := r
      rw [hdecode] at h
      have hfull : range.1 + consumed = range.2 :=
        hfills.1.consumedInFull out member consumed res' hdecode
      obtain rfl : consumed = (slice file range).length := by
        have := hinside.1
        omega
      obtain ⟨o, hmember, rfl⟩ := ((Gzip.decodesMember_decodeOneIndexedFast crc (slice file range)
        out member).1 _ res').mp hdecode
      obtain ⟨os, hmembers, rfl⟩ := ih h hfills.2 hinside.2
      refine ⟨o ++ os, ?_, List.append_assoc _ _ _⟩
      rw [List.map_cons, List.flatten_cons]
      apply Gzip.Members.cons (hmember.local ?_)
      · rwa [List.drop_left]
      · rw [List.take_length]
        exact List.prefix_append _ _

end Blocks

section Calls

variable {c : Config} {s : State c} {t t' : Call c} {batches : List Batch}
  {os : List (List UInt8)}

/-- Without a failure the threads have sent all blocks. -/
theorem done_of_joined (hreach : Reaches (Step c) (init c) s)
    (hphase : s.serializer.phase = .joined) (hfailure : s.failure = none) :
    s.Done ∧ s.dispatched.1 = c.stop := by
  have hstands := (inv_of_reaches_step hreach).stands
  rw [State.Stands, hphase] at hstands
  have hdone : s.Done := by
    apply hstands.resolve_left
    rintro (⟨_, _, e, -, hlastErr⟩ | ⟨-, hlastErr⟩)
    · simp [State.failure, hlastErr] at hfailure
    · simp [State.failure, hlastErr] at hfailure
  exact ⟨hdone, hdone.results.2⟩

/-- Every step keeps the account of the call. -/
theorem Call.Step.stands (h : Call.Step c t t') (ht : t.Stands) : t'.Stands := by
  cases h with
  | blocks hstep => exact ht.tail hstep
  | fail _ _ => simp [Call.Stands]
  | done hphase hfailure hend =>
    obtain ⟨hdone, hstop⟩ := done_of_joined ht hphase hfailure
    intro _ _
    exact ⟨_, [], hdone, .nothing (hstop ▸ hend), (List.append_nil _).symm⟩
  | badHeader _ _ _ _ => simp [Call.Stands]
  | serial hphase hfailure _ hheader _ hserial =>
    obtain ⟨hdone, hstop⟩ := done_of_joined ht hphase hfailure
    rw [hstop] at hheader hserial
    intro _ _
    exact ⟨_, _, hdone, .serial hheader hserial, rfl⟩
  | serialErr _ _ _ _ _ _ => simp [Call.Stands]
  | start hphase hfailure _ hheader _ =>
    obtain ⟨hdone, hstop⟩ := done_of_joined ht hphase hfailure
    rw [hstop] at hheader
    exact ⟨hdone, _, hheader, by rw [hstop], .refl⟩
  | member _ hstep =>
    obtain ⟨hdone, headerLen, hheader, hoffset, hreach⟩ := ht
    exact ⟨hdone, headerLen, hheader, hoffset, hreach.tail hstep⟩
  | returnErr _ => simp [Call.Stands]
  | returnOk hreturned =>
    obtain ⟨hdone, headerLen, hheader, rfl, hreach⟩ := ht
    intro _ _
    exact ⟨_, _, hdone, .parallel hheader hreach hreturned, rfl⟩

/-- In every state the account of the call holds. -/
theorem stands_of_reaches (h : Reaches (Call.Step c) (.blocks (init c)) t) : t.Stands :=
  h.invariant Call.Stands (fun _ _ ht hstep => hstep.stands ht) .refl

/-- Batches of ranges that end with their members decode to the members of what they hold. -/
theorem members_of_decoded (hdecoded : List.Forall₂ (Decoded c) batches os)
    (hfills : ∀ range ∈ batches.flatMap Batch.ranges, Fills c.file range)
    (hinside : ∀ range ∈ batches.flatMap Batch.ranges,
      range.1 + (slice c.file range).length = range.2) :
    Gzip.Members c.crc ((batches.flatMap Batch.ranges).map (slice c.file)).flatten []
      os.flatten := by
  induction hdecoded with
  | nil => exact .nil
  | @cons b o _ _ hbatch _ ih =>
    rw [List.flatMap_cons, List.forall_mem_append] at hfills hinside
    rw [Decoded, decodeBatch] at hbatch
    cases hranges : decodeRanges c.crc c.file b.firstMember b.ranges [] with
    | error e => simp [hranges] at hbatch
    | ok res =>
      rw [hranges, Except.ok.injEq, Prod.mk.injEq] at hbatch
      obtain ⟨o', hmembers, rfl⟩ := members_of_decodeRanges hranges hfills.1 hinside.1
      rw [List.flatMap_cons, List.map_append, List.flatten_append, List.flatten_cons,
        ← hbatch.2]
      exact hmembers.append (ih hfills.2 hinside.2)

/-- What a call with several threads sends for what follows the blocks is what the serial decoder
would send. -/
theorem Config.SendsRest.members {sent : List (List UInt8)} (h : c.SendsRest sent)
    (hrest : c.RestKnown) : Gzip.Members c.crc (c.file.drop c.stop) [] sent.flatten := by
  cases h with
  | nothing hend =>
    rw [List.drop_of_length_le hend]
    exact .nil
  | @serial headerLen _ _ _ _ hheader hserial =>
    have houtcome := serialOutcome_serialDecodeMember c.crc c.file (c.stop + headerLen)
      c.chunkSizeBytes
    rw [hserial, ← List.drop_drop] at houtcome
    exact houtcome.1.members hheader
  | @parallel headerLen hthreads m _ hheader hreach hreturned =>
    obtain ⟨hfits, hchunks⟩ := hrest hthreads headerLen hheader
    rcases Mmap.returned_of_itemsFit hfits hreach hreturned with
      ⟨rs, r, ds, bc, failures, -, hsucceeds, hreceived, -⟩ | ⟨e, he, -⟩
    · obtain ⟨hnear, hknown⟩ := hchunks _ hsucceeds.chain
      obtain ⟨members, outs, hparse, hbehind, hpass, hbytes⟩ :=
        hsucceeds.exists_behind hnear hknown
      rw [hreceived, hbytes]
      exact members_of_behind (k := 0) hparse hbehind hpass hheader
        (by rw [List.drop_zero, List.drop_drop])
    · cases he

/-- The ranges are those of the walk. -/
theorem Config.ranges_walk (c : Config) :
    Ranges c.file 0 c.ranges c.stop (walk c.file c.chunkSizeBytes).2 :=
  (walk_ranges c.file c.chunkSizeBytes).2

/-- Where all ranges end with their members, the blocks and what follows them have been sent. -/
theorem members_of_done {sent : List (List UInt8)} (hdone : s.Done) (hsent : c.SendsRest sent)
    (hrest : c.RestKnown) (hfills : ∀ range ∈ c.ranges, Fills c.file range) :
    Gzip.Members c.crc c.file [] (s.sink.received ++ sent).flatten := by
  have hblocks := members_of_decoded hdone.received hfills fun range hrange =>
    c.ranges_walk.length_slice hrange
  have hfile := c.ranges_walk.flatten_slices
  rw [List.drop_zero] at hfile
  rw [← hfile, List.flatten_append]
  exact hblocks.append (hsent.members hrest)

/-- All ranges of a call that has sent all blocks decode. -/
theorem State.Done.exists_decode (hdone : s.Done) {range : ℕ × ℕ} (hrange : range ∈ c.ranges) :
    ∃ out member consumed res,
      Gzip.decodeOneIndexedFast c.crc (slice c.file range) out member = .ok (consumed, res) := by
  obtain ⟨b, hb, hrange⟩ := List.mem_flatMap.mp hrange
  obtain ⟨i, hi, rfl⟩ := List.getElem_of_mem hb
  have hdecoded := hdone.received.get hi (hdone.received.length_eq ▸ hi)
  rw [Decoded, decodeBatch] at hdecoded
  simp only [List.get_eq_getElem] at hdecoded
  cases hranges : decodeRanges c.crc c.file c.batches[i].firstMember c.batches[i].ranges [] with
  | error e => simp [hranges] at hdecoded
  | ok res => exact exists_decode_of_decodeRanges hranges hrange

/-- A call that succeeds has sent what the decoder of all members gives, and has consumed all ranges
in full, exactly if the subfields of all blocks tell the lengths of the members there. -/
theorem noLoss_iff (hrest : c.RestKnown) {received : List (List UInt8)} {res : ℕ × ℕ}
    (hreach : Reaches (Call.Step c) (.blocks (init c)) (.returned received (.ok res))) :
    (Gzip.decodeAll c.crc c.file [] = .ok (received.flatten.length, received.flatten) ∧
      ∀ range ∈ c.ranges, ConsumedInFull c.crc c.file range) ↔
    ∀ range ∈ c.ranges, TellsLength c.file range := by
  obtain ⟨s, sent, hdone, hsent, rfl⟩ := stands_of_reaches hreach res rfl
  have hiff : ∀ range ∈ c.ranges, (Fills c.file range ↔ TellsLength c.file range) := by
    intro range hrange
    obtain ⟨_, _, _, _, hdecode⟩ := hdone.exists_decode hrange
    exact fills_iff_tellsLength hdecode (c.ranges_walk.parseBgzfBlockSize_eq hrange)
      (c.ranges_walk.length_slice hrange)
  constructor
  · rintro ⟨-, hfull⟩ range hrange
    obtain ⟨_, _, _, _, hdecode⟩ := hdone.exists_decode hrange
    exact (hiff range hrange).mp (fills_of_decode hdecode (hfull range hrange _ _ _ _ hdecode))
  · intro htells
    have hfills : ∀ range ∈ c.ranges, Fills c.file range := fun range hrange =>
      (hiff range hrange).mpr (htells range hrange)
    refine ⟨Gzip.decodeAll_iff.mpr ⟨_, members_of_done hdone hsent hrest hfills, rfl, rfl⟩, ?_⟩
    intro range hrange
    exact (hfills range hrange).consumedInFull

end Calls

/-- A block whose length includes the member behind it. -/
def hiddenMember : Config :=
  { threeMembers with
    file := [0x1f, 0x8b, 0x08, 0x04, 0, 0, 0, 0, 0, 0xff, 6, 0, 0x42, 0x43, 2, 0, 55, 0,
      0x01, 0x01, 0x00, 0xfe, 0xff, 0x41, 0x8b, 0x9e, 0xd9, 0xd3, 1, 0, 0, 0] ++ Gzip.storedMember }

/-- The member behind the block is lost, and the call succeeds. -/
theorem hiddenMember_lost :
    Inevitable (Call.Step hiddenMember) (Call.Delivers [65]) (.blocks (init hiddenMember)) ∧
      Gzip.decodeAll hiddenMember.crc hiddenMember.file [] = .ok (2, [65, 65]) := by
  have hsize : Gzip.parseBgzfBlockSize (hiddenMember.file.drop 0) = some 56 := by decide +kernel
  have hwalk : Ranges hiddenMember.file 0 [(0, 56)] 56 none :=
    .block hsize (by decide +kernel) (.done (by decide +kernel))
  have hblock : DecodesTo hiddenMember.crc hiddenMember.file (0, 56) [65] :=
    ⟨0, 32, by decide +kernel⟩
  obtain ⟨hstop, hnone, os, hos, hflatten⟩ := exists_decoded hwalk (.cons hblock .nil)
  have hend : hiddenMember.file.length ≤ (walk hiddenMember.file 0).1.pos := by
    rw [show (walk hiddenMember.file 0).1.pos = 56 from hstop]
    decide +kernel
  have hdelivers := inevitable_delivers hos hnone (Or.inl ⟨hend, rfl⟩) fun hmore =>
    absurd hmore (Nat.not_lt.mpr hend)
  rw [hflatten] at hdelivers
  exact ⟨hdelivers, by decide +kernel⟩

/-- What follows the two blocks is a stored block. -/
theorem restKnown_threeMembers : threeMembers.RestKnown := by
  intro hthreads headerLen hheader
  have hstop : threeMembers.stop = 64 :=
    (exists_decoded ranges_threeMembers decodesTo_threeMembers).1
  have hparse : Gzip.parseHeader (threeMembers.file.drop 64) = .ok 10 := by decide +kernel
  rw [hstop] at hheader ⊢
  rw [hparse, Except.ok.injEq] at hheader
  subst hheader
  obtain ⟨members, outs, hbody, hexpands, -, -⟩ :=
    bodyMembers_iff_membersAt.mp bodyMembers_threeMembers
  refine ⟨(restFits_threeMembers (by decide +kernel) 10 hparse).2 hthreads, fun rs hchain => ?_⟩
  have hnear := @Mmap.nearChunks_of_length (threeMembers.file.drop (64 + 10)) _
    (Mmap.shortChunks_of_length bodyMembers_threeMembers (by simp) rs hchain)
  exact ⟨hnear, hchain.knownChunks hbody hexpands hnear⟩

/-- The two blocks end with their trailers. -/
theorem fills_threeMembers : ∀ range ∈ threeMembers.ranges, Fills threeMembers.file range := by
  have hranges : threeMembers.ranges = [(0, 32), (32, 64)] :=
    (threeMembers.ranges_walk.unique ranges_threeMembers).1
  have hblock : Gzip.decodeOneIndexedFast crc32 (slice threeMembers.file (0, 32)) [] 0 =
      .ok (32, [65]) := by
    decide +kernel
  have hblock' : Gzip.decodeOneIndexedFast crc32 (slice threeMembers.file (32, 64)) [] 0 =
      .ok (32, [65]) := by
    decide +kernel
  rw [hranges]
  simp [fills_of_decode hblock, fills_of_decode hblock']

/-- The subfields of these blocks tell the lengths of their members. -/
theorem tellsLength_threeMembers :
    ∀ range ∈ threeMembers.ranges, TellsLength threeMembers.file range := by
  have hranges : threeMembers.ranges = [(0, 32), (32, 64)] :=
    (threeMembers.ranges_walk.unique ranges_threeMembers).1
  have hfills := fills_threeMembers
  have hdecode : ∀ range ∈ threeMembers.ranges, Gzip.decodeOneIndexedFast crc32
      (slice threeMembers.file range) [] 0 = .ok (32, [65]) := by
    rw [hranges]
    simp only [List.forall_mem_cons, List.not_mem_nil, false_implies, implies_true, and_true]
    exact ⟨by decide +kernel, by decide +kernel⟩
  intro range hrange
  exact (fills_iff_tellsLength (hdecode range hrange)
    (threeMembers.ranges_walk.parseBgzfBlockSize_eq hrange)
    (threeMembers.ranges_walk.length_slice hrange)).mp (hfills range hrange)

/-- The theorem at two blocks and a member behind them. -/
theorem noLoss_iff_threeMembers :
    ∃ received res,
      Reaches (Call.Step threeMembers) (.blocks (init _)) (.returned received (.ok res)) ∧
      Gzip.decodeAll threeMembers.crc threeMembers.file [] =
        .ok (received.flatten.length, received.flatten) ∧
      ∀ range ∈ threeMembers.ranges, ConsumedInFull threeMembers.crc threeMembers.file range := by
  obtain ⟨hstop, hnone, os, hos, -⟩ := exists_decoded ranges_threeMembers decodesTo_threeMembers
  have hrest := restDecodesTo_threeMembers
  have hfits := restFits_threeMembers
  rw [← hstop] at hrest hfits
  obtain ⟨_, hreach, received, rfl, -⟩ :=
    (inevitable_delivers hos hnone hrest hfits).exists_reaches
  exact ⟨received, _, hreach,
    (noLoss_iff restKnown_threeMembers hreach).mpr tellsLength_threeMembers⟩

end Bgzf

end Pipeline

end RustyRapidgzip
