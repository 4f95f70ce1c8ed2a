import RustyRapidgzip.Pipeline.Mismatch
import RustyRapidgzip.Pipeline.ReadStream
import RustyRapidgzip.Pipeline.StreamAlong

/-!
# Parallel streaming is serial streaming

On a stream whose items start at blocks, and whose members can all be decoded, every run of the
threads returns what the checks of the members say: all their bytes have been sent, or the first
one that fails is reported. With the serial decoder of a stream this is the same verdict on the
same bytes.
-/

namespace RustyRapidgzip

open LsbBits Reference Lz Crc Threads Transition

namespace Pipeline

namespace Streaming

section Runs

variable {c : Config} {F : String → Prop} {s s' : State c}

/-- No step of the threads closes the consumer's end. -/
theorem Step.sink_isOpen (hstep : Step c s s') : s'.sink.isOpen = s.sink.isOpen := by
  cases hstep with
  | dispatch hstep => cases hstep <;> rfl
  | work _ => rfl
  | stageA hstep => cases hstep <;> rfl
  | resolve _ => rfl
  | output hstep => cases hstep <;> rfl

/-- A run of the threads is one with a consumer that listens. -/
theorem call_of_reads (h : Reaches (Reads c F) (init c) s) :
    Reaches (Call c F) (init c) s ∧ s.sink.isOpen = true := by
  refine ⟨h.mono fun _ _ => Or.inl, ?_⟩
  refine h.invariant (fun s => s.sink.isOpen = true) (fun s s' hopen hstep => ?_) rfl
  rw [hstep.1.sink_isOpen, hopen]

/-- A dispatcher that does not return a failing read has none. -/
theorem not_readFails {d : Dispatcher} {token : TokenChannel}
    {workers : Pool c.numThreads Item (Except Error DecodeResult)} {msg : String}
    (hd : d.phase ≠ .returned (.error (.failed (.io msg)))) :
    ¬ReadFails c msg s { s with dispatcher := d, token := token, workers := workers } := by
  generalize hs : ({ s with dispatcher := d, token := token, workers := workers } : State c) = s'
  intro h
  cases h
  exact hd (congrArg (fun s => s.dispatcher.phase) hs)

/-- A thread can step while no read fails, whatever the stream holds. -/
theorem exists_reads (hfind : Answers c.find) (hne : ∀ r ∈ c.reads, r ≠ [])
    (hover : c.dispatched ≠ .error .overflow) (hn : 0 < c.numThreads)
    (hreach : Reaches (Reads c F) (init c) s) (hreturned : ∀ r, ¬s.Returned r) :
    ∃ s', Reads c F s s' := by
  have hmove := (call_of_reads hreach).1.mono fun _ _ => Call.move
  have hcourse := onCourse_of_reaches hfind hne hover hmove
  unfold Dispatcher.OnCourse at hcourse
  obtain ⟨s', hstep⟩ := steps_of_reaches hn hmove hreturned
  by_cases hread : ∃ msg, ReadFails c msg s s'
  swap
  · exact ⟨s', hstep, fun msg hmsg => absurd ⟨msg, hmsg⟩ hread⟩
  obtain ⟨msg, ⟨hphase | ⟨st, hphase⟩⟩⟩ := hread
  · cases hstrip : (Source.new c.reads).fillMore.2.stripFirstHeader with
    | error e =>
      obtain ⟨e', rfl⟩ := exists_gzipError hne hstrip
      exact ⟨_, .dispatch (.badHeader hphase hstrip),
        fun _ hmsg => absurd hmsg (not_readFails nofun)⟩
    | ok src =>
      exact ⟨_, .dispatch (.start hphase hstrip), fun _ hmsg => absurd hmsg (not_readFails nofun)⟩
  · rw [hphase] at hcourse
    cases habort : s.abort with
    | true =>
      exact ⟨_, .dispatch (.abort hphase habort), fun _ hmsg => absurd hmsg (not_readFails nofun)⟩
    | false =>
      obtain ⟨next, hround, hnumbers, -⟩ := hcourse.round hfind
      rcases hnumbers with ⟨st', rfl, hsent, -⟩ | ⟨sent, hsent, -⟩
      · exact ⟨_, .dispatch (.more hphase habort hround hsent),
          fun _ hmsg => absurd hmsg (not_readFails nofun)⟩
      · exact ⟨_, .dispatch (.cut hphase habort hround hsent),
          fun _ hmsg => absurd hmsg (not_readFails nofun)⟩

/-- Every run in which no read fails returns. -/
theorem inevitable_reads (hfind : Answers c.find) (hne : ∀ r ∈ c.reads, r ≠ [])
    (hover : c.dispatched ≠ .error .overflow) (hn : 0 < c.numThreads) :
    Inevitable (Reads c F) (fun s => Reaches (Reads c F) (init c) s ∧ ∃ r, s.Returned r)
      (init c) := by
  refine inevitable_of_measure (Reaches (Reads c F) (init c)) State.weight
    (fun _ _ hreach hstep => hreach.tail hstep) (fun _ _ hreach hstep => ?_) (fun s hreach => ?_)
    .refl
  · have hmove := (call_of_reads hreach).1.mono fun _ _ => Call.move
    exact hstep.1.weight_lt hfind (onCourse_of_reaches hfind hne hover hmove)
  · by_cases hreturned : ∃ r, s.Returned r
    · exact Or.inl ⟨hreach, hreturned⟩
    · exact Or.inr (exists_reads hfind hne hover hn hreach (not_exists.mp hreturned))

/-- A stream that is cut at blocks has no target that overflows. -/
theorem AtBlocks.ne_overflow (h : AtBlocks c) : c.dispatched ≠ .error .overflow := by
  obtain ⟨k, sent, hdispatched⟩ := h.dispatched
  rw [hdispatched]
  exact nofun

end Runs

/-! ## The verdict of the checks -/

/-- What a call returns for members, whether or not they pass their checks. -/
def Verdict {c : Config} (outs : List (List UInt8 × Trailer)) (s : State c) : Prop :=
  match checkMembers c.crc 0 0 outs with
  | .ok _ => s.sink.received.flatten = (outs.map Prod.fst).flatten ∧
      s.Returned (.ok ((outs.map Prod.fst).flatten.length, s.sink.received.length,
        c.reads.flatten.length))
  | .error e => s.Returned (.error e)

section Verdict

variable {c : Config} {s : State c} {members : List (List Token × Trailer)}
  {outs before after : List (List UInt8 × Trailer)} {m : List UInt8 × Trailer}

/-- What a call returns is the verdict of the checks. -/
theorem verdict_of_returned (h : AtBlocks c) (hn : 0 < c.numThreads)
    (hbody : BodyParse c.body 0 members) (hexpands : Expands [] members outs)
    (hshort : ShortChunks c) (hfits : c.ItemsFit)
    (hreach : Reaches (Reads c fun _ => False) (init c) s) {res : Except Error (ℕ × ℕ × ℕ)}
    (hreturned : s.Returned res) : Verdict outs s := by
  obtain ⟨k, sent, hdispatched⟩ := h.dispatched
  have hover := h.ne_overflow
  obtain ⟨hcall, hopen⟩ := call_of_reads hreach
  have hinv := (inv_of_reaches hn h.answers h.reads hover hfits hcall).2
  unfold Verdict
  rcases hinv.returned hopen hreturned with
    ⟨rs, ds, m, k', sent', hchain, hlength, hresolves, hcheck, hreceived, hdispatched', rfl⟩ |
    ⟨e, rfl, hfails | hcause | hcause⟩
  · obtain ⟨ds', halong⟩ := hchain.along h hbody hexpands (hshort _ hchain)
    obtain rfl := hresolves.unique halong.resolves
    obtain ⟨hfinished, -⟩ :=
      hchain.ends h.answers h.reads hdispatched hlength hresolves h.bits_lt
    obtain ⟨outs', houts, -, hends⟩ := halong.left
    obtain ⟨rfl, hown⟩ := hends hfinished
    rw [hown, Mmap.completed_nil, List.append_nil] at houts
    have hpass : checkMembers c.crc 0 0 outs = .ok () := by
      rw [houts]
      exact checkMembers_ok_iff.mpr (checkAll_iff.mp hcheck).1
    have hbytes : s.sink.received.flatten = (outs.map Prod.fst).flatten := by
      have hflatten := cutAll_flatten halong.cuttable
      rw [hown, List.append_nil, ← houts] at hflatten
      rw [hreceived, ← hflatten]
    have hcount : s.sink.received.length = ds.length := by
      rw [hreceived, sentBytes, List.length_map]
    rw [hpass]
    refine ⟨hbytes, ?_⟩
    rw [← hbytes, hcount, hreceived, ← (Config.tiled h.answers h.reads hdispatched').1]
    exact hreturned
  · obtain ⟨rs, ds, halong, hcheck⟩ := hfails.exists_check h hbody hexpands hshort
    obtain ⟨outs', houts, -⟩ := halong.left
    rw [houts, checkMembers_append, checkAll_error hcheck]
    exact hreturned
  · rcases hcause with hcause | ⟨_, hnever, -⟩
    · rw [hdispatched] at hcause
      cases hcause
    · exact hnever.elim
  · rcases hcause with hcause | ⟨_, hnever, -⟩
    · exact absurd hcause hover
    · exact hnever.elim

/-- On a body whose members can be decoded, and whose items fit, every run returns the verdict of
their checks. -/
theorem inevitable_verdict (h : AtBlocks c) (hn : 0 < c.numThreads)
    (hbody : BodyParse c.body 0 members) (hexpands : Expands [] members outs)
    (hshort : ShortChunks c) (hfits : c.ItemsFit) :
    Inevitable (Reads c fun _ => False) (Verdict outs) (init c) :=
  (inevitable_reads h.answers h.reads h.ne_overflow hn).mono fun _ ⟨hreach, _, hreturned⟩ =>
    verdict_of_returned h hn hbody hexpands hshort hfits hreach hreturned

/-- What the serial decoder of a stream accepts are the members of its body. -/
theorem exists_members_of_readGzStreaming (h : AtBlocks c) {total chunks : ℕ}
    {sent : List (List UInt8)}
    (hserial : readGzStreaming c.crc c.reads = .ok ((total, chunks), sent)) :
    ∃ members outs, BodyParse c.body 0 members ∧ Expands [] members outs ∧
      (∀ m ∈ outs, Passes c.crc m) ∧ sent.flatten = (outs.map Prod.fst).flatten ∧
      total = (outs.map Prod.fst).flatten.length := by
  have hstream := streamOutcome_readGzStreaming c.crc h.reads
  rw [hserial] at hstream
  obtain ⟨⟨headerLen, hheader, hmembers⟩, htotal, -⟩ := hstream
  have hbody : BodyMembers c.crc c.body sent.flatten := by
    rw [Config.body, hheader]
    exact hmembers
  obtain ⟨members, outs, hparse, hexpands, hpass, hbytes⟩ := bodyMembers_iff_membersAt.mp hbody
  exact ⟨members, outs, hparse, hexpands, hpass, hbytes, hbytes ▸ htotal⟩

/-- A stream with less than 4 GiB of output has no longer chunks. -/
theorem shortChunks_of_readGzStreaming (h : AtBlocks c) {total chunks : ℕ}
    {sent : List (List UInt8)}
    (hserial : readGzStreaming c.crc c.reads = .ok ((total, chunks), sent))
    (htotal : total < 2 ^ 32) : ShortChunks c := by
  obtain ⟨members, outs, hparse, hexpands, -, -, heq⟩ := exists_members_of_readGzStreaming h hserial
  exact shortChunks_of_expands h hparse hexpands (heq ▸ htotal)

/-- On a stream that is cut at blocks, into items that fit, decoding in parallel is decoding
serially: what the serial decoder of a stream accepts, every run of the threads returns, with the
same bytes sent. -/
theorem inevitable_readGzStreaming (h : AtBlocks c) (hn : 0 < c.numThreads) (hshort : ShortChunks c)
    (hfits : c.ItemsFit) {total chunks : ℕ} {sent : List (List UInt8)}
    (hserial : readGzStreaming c.crc c.reads = .ok ((total, chunks), sent)) :
    Inevitable (Reads c fun _ => False) (fun s => s.sink.received.flatten = sent.flatten ∧
      s.Returned (.ok (total, s.sink.received.length, c.reads.flatten.length))) (init c) := by
  obtain ⟨members, outs, hparse, hexpands, hpass, hbytes, rfl⟩ :=
    exists_members_of_readGzStreaming h hserial
  refine (inevitable_verdict h hn hparse hexpands hshort hfits).mono fun s hverdict => ?_
  have hcheck : checkMembers c.crc 0 0 outs = .ok () := checkMembers_ok_iff.mpr hpass
  rw [Verdict, hcheck] at hverdict
  rw [hbytes]
  exact hverdict

/-- Where a trailer does not match, every run of the threads reports the first such member, as the
serial decoder of the whole file does for a chunk size that fits, but for the trailer's place:
the threads count it from the start of the body. -/
theorem inevitable_first_mismatch (h : AtBlocks c) (hn : 0 < c.numThreads) (hshort : ShortChunks c)
    (hfits : c.ItemsFit) (hbody : BodyParse c.body 0 members)
    (hexpands : Expands [] members outs) (hfails : ∃ m ∈ outs, ¬Passes c.crc m) :
    ∃ before m after, outs = before ++ m :: after ∧ (∀ m ∈ before, Passes c.crc m) ∧
      ¬Passes c.crc m ∧
      Inevitable (Reads c fun _ => False)
        (fun s => s.Returned (.error (.gzip (mismatchOf c.crc 0 before.length m)))) (init c) ∧
      ∀ headerLen chunkSizeBytes, Gzip.parseHeader c.reads.flatten = .ok headerLen →
        ChunkSizeFits chunkSizeBytes (c.reads.flatten.drop headerLen) →
        serialDecodeMember c.crc c.reads.flatten headerLen chunkSizeBytes =
          .error (.gzip (mismatchOf c.crc headerLen before.length m)) := by
  obtain ⟨before, m, after, rfl, hbefore, hm⟩ := exists_first_failing hfails
  have hcheck (bodyOffset : ℕ) := @checkMembers_error c.crc 0 bodyOffset before after m hbefore hm
  refine ⟨before, m, after, rfl, hbefore, hm, ?_, fun headerLen chunkSizeBytes hheader _ => ?_⟩
  · refine (inevitable_verdict h hn hbody hexpands hshort hfits).mono fun s hverdict => ?_
    rw [Verdict, hcheck 0, Nat.zero_add] at hverdict
    exact hverdict
  · rw [Config.body, hheader] at hbody
    have hserial := hcheck headerLen
    rw [Nat.zero_add] at hserial
    exact serialDecodeMember_mismatch hbody hexpands hserial

end Verdict

section OneMember

/-- A stream that is one item is cut at blocks. -/
theorem atBlocks_of_oneItem {c : Config} {s : Sent} {k : ℕ}
    (hfind : c.find = BlockFinder.findNextDynamicBlock)
    (hreads : ∀ r ∈ c.reads, r ≠ []) (hdispatched : c.dispatched = .ok (k, [s]))
    (hstart : s.item.start = 0) (hbits : 8 * c.body.length < U64_MAX) : AtBlocks c where
  answers := hfind ▸ answers_findNextDynamicBlock
  sees := hfind ▸ sees_findNextDynamicBlock
  reads := hreads
  dispatched := ⟨_, _, hdispatched⟩
  starts item hitem := by
    rw [Config.items_eq hdispatched] at hitem
    rw [List.mem_singleton.mp hitem, hstart]
    exact .refl
  bits_lt := hbits

/-- The stream of one member is cut at blocks. -/
theorem atBlocks_oneMember : AtBlocks oneMember :=
  atBlocks_of_oneItem rfl oneMember_reads
    (show oneMember.dispatched = .ok (24, [⟨oneItem, 14⟩]) by decide +kernel) rfl
    (by decide +kernel)

/-- Every run on a stored byte returns it. -/
theorem inevitable_readGzStreaming_oneMember : Inevitable (Reads oneMember fun _ => False)
    (fun s => s.sink.received.flatten = [65] ∧ s.Returned (.ok (1, s.sink.received.length, 24)))
    (init oneMember) := by
  have hserial : readGzStreaming oneMember.crc oneMember.reads = .ok ((1, 1), [[65]]) := by
    decide +kernel
  exact inevitable_readGzStreaming atBlocks_oneMember Nat.one_pos
    (shortChunks_of_readGzStreaming atBlocks_oneMember hserial (by decide)) oneMember_itemsFit
    hserial

/-- A call with one worker, for a stream of one member whose trailer does not match. -/
def oneWrong : Config := { oneMember with reads := [Mmap.wrongMember] }

/-- The stream is one item. -/
theorem oneWrong_dispatched : oneWrong.dispatched =
    .ok (24, [⟨⟨0, Mmap.wrongMember.drop 10, 0, U64_MAX, true, 0⟩, 14⟩]) := by
  decide +kernel

/-- The stream of one wrong member is cut at blocks. -/
theorem atBlocks_oneWrong : AtBlocks oneWrong :=
  atBlocks_of_oneItem rfl (by decide) oneWrong_dispatched rfl (by decide +kernel)

/-- Every run on a byte with a wrong checksum returns the mismatch. -/
theorem inevitable_first_mismatch_oneWrong :
    ∃ before m after, [([65], ⟨0, 1, 6⟩)] = before ++ m :: after ∧
      (∀ m ∈ before, Passes crc32 m) ∧ ¬Passes crc32 m ∧
      Inevitable (Reads oneWrong fun _ => False)
        (fun s => s.Returned (.error (.gzip (mismatchOf crc32 0 before.length m))))
          (init oneWrong) ∧
      ∀ headerLen chunkSizeBytes, Gzip.parseHeader oneWrong.reads.flatten = .ok headerLen →
        ChunkSizeFits chunkSizeBytes (oneWrong.reads.flatten.drop headerLen) →
        serialDecodeMember crc32 oneWrong.reads.flatten headerLen chunkSizeBytes =
          .error (.gzip (mismatchOf crc32 headerLen before.length m)) := by
  have hbody : oneWrong.body = Mmap.wrongMember.drop 10 := by decide +kernel
  have hparse : BodyParse oneWrong.body 0 [([Token.lit 65], ⟨0, 1, 6⟩)] := by
    rw [hbody]
    exact Mmap.bodyParse_wrongMember
  exact inevitable_first_mismatch atBlocks_oneWrong Nat.one_pos
    (shortChunks_of_expands atBlocks_oneWrong hparse Mmap.expands_wrongMember (by decide))
    (Config.itemsFit_of_short oneWrong_dispatched (by decide)) hparse Mmap.expands_wrongMember
      ⟨_, List.mem_cons_self, Mmap.not_passes_wrongMember⟩

end OneMember

end Streaming

end Pipeline

end RustyRapidgzip
