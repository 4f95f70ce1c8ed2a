import RustyRapidgzip.Pipeline.Integrity
import RustyRapidgzip.Pipeline.Slices
import RustyRapidgzip.Pipeline.StreamOutput

/-!
# The integrity of a streamed result

Whatever the stream holds, what has been sent is the beginning of one sequence of chunks, which
neither the number of threads nor the order of their steps can change. A call that returns a
result has sent the whole of it: the boundaries of the items cut it into members, and each member
matches the trailer that the body holds for it.
-/

namespace RustyRapidgzip

open LsbBits Reference Lz Crc Threads Transition

namespace Pipeline

namespace Streaming

/-! ## The trailers of the items -/

section Items

variable {c : Config} {body : List UInt8} {id start stop room pos : ℕ} {cells : List ℕ}
  {item : Item} {sent : List Sent} {s : Sent} {r : ChunkEnd}

/-- An item holds the body up to its padding. -/
theorem Cut.slice (h : Cut body id start stop s) :
    Slice body s.item.baseByte (min ((stop + 7) / 8 + PAD) s.absEnd) s.item.bytes where
  bytes_eq := h.bytes_eq
  base_le := by
    have hstart := h.start_eq
    have hlt := h.start_lt
    have hstop := h.stop_le
    omega
  stop_le := (Nat.min_le_right _ _).trans h.absEnd_le

/-- The final region holds the body to its end. -/
theorem Last.slice (h : Last body id start s) (hbase : s.item.baseByte ≤ body.length) :
    Slice body s.item.baseByte body.length s.item.bytes where
  bytes_eq := by rw [List.take_length, h.bytes_eq]
  base_le := hbase
  stop_le := le_rfl

/-- The final region starts within the body. -/
theorem Last.base_le (h : Last body id start s) (hstart : body = [] → start = 0) :
    s.item.baseByte ≤ body.length := by
  have heq := h.start_eq
  by_cases hbody : body = []
  · have := hstart hbody
    omega
  · have := h.start_lt hbody
    omega

/-- The items of a body are slices of it. -/
theorem Tiled.slice (h : Tiled body id start sent) (hstart : body = [] → start = 0)
    (hs : s ∈ sent) : ∃ stop, Slice body s.item.baseByte stop s.item.bytes := by
  induction h with
  | last hlast =>
    rw [List.mem_singleton.mp hs]
    exact ⟨_, hlast.slice (hlast.base_le hstart)⟩
  | cut hcut _ ih =>
    rcases List.mem_cons.mp hs with rfl | hs
    · exact ⟨_, hcut.slice⟩
    · refine ih (fun hbody => ?_) hs
      have hlt := hcut.start_lt
      have hstop := hcut.stop_le
      have habs := hcut.absEnd_le
      rw [hbody, List.length_nil] at habs
      omega

/-- The trailers of a slice are trailers that the body holds. -/
theorem trailerIn_of_slice {slice : List UInt8} {base endBit : ℕ} {trailer : Trailer}
    (h : Slice body base stop slice) (htrailer : trailerAt slice endBit = .ok trailer) :
    TrailerIn body { trailer with trailerInputByte := base + trailer.trailerInputByte } := by
  obtain ⟨hroom, hcrc, hisize⟩ := trailerIn_of_trailerAt htrailer
  have hlength := h.length_eq
  have hbase := h.base_le
  have hstop := h.stop_le
  refine ⟨?_, ?_, ?_⟩
  · simp only
    omega
  · rw [hcrc, h.take_drop (by omega)]
  · rw [hisize, h.take_drop (by omega), Nat.add_assoc]

/-- The boundaries of an item are trailers that the body holds. -/
theorem ItemRun.trailerIn (h : ItemRun room item pos cells r)
    (hslice : Slice body item.baseByte stop item.bytes) :
    ∀ mb ∈ r.members.map Prod.snd, TrailerIn body mb.toTrailer := by
  induction h with
  | full _ => simp
  | part _ _ _ => simp
  | last _ _ _ htrailer _ =>
    intro mb hmb
    rw [List.mem_singleton.mp hmb]
    exact trailerIn_of_slice hslice htrailer
  | next _ _ _ htrailer _ _ ih =>
    rw [List.map_cons, List.forall_mem_cons]
    exact ⟨trailerIn_of_slice hslice htrailer, ih⟩

/-- An item that is decoded starts within its bytes. -/
theorem ItemRun.pos_lt (h : ItemRun room item pos cells r) (hpos : pos < item.endBitHint) :
    pos < 8 * item.bytes.length := by
  have hlt {f : Bool} {ts : List Token} {rest : List Bool} (hblocks : Blocks room
      (stopAt item.bytes item.endBitHint) ((bits item.bytes).drop pos) f ts rest) :
      pos < 8 * item.bytes.length := by
    have := hblocks.length_lt
    rw [List.length_drop, bits_length] at this
    omega
  cases h with
  | full hfull => omega
  | part _ hblocks _ => exact hlt hblocks
  | last _ hblocks _ _ _ => exact hlt hblocks
  | next _ hblocks _ _ _ _ => exact hlt hblocks

/-- The final region has no bound before the end of the stream: decoding it ends there, behind the
trailer of a member. -/
theorem ItemRun.ends (h : ItemRun room item pos cells r) (hregion : item.isFinalRegion = true)
    (hhint : 8 * item.bytes.length < item.endBitHint) (hpos : pos ≤ 8 * item.bytes.length) :
    r.finalBlock = true ∧ ∃ mb, (r.members.map Prod.snd).getLast? = some mb ∧
      mb.byteOffsetInChunk = r.cells.length ∧
      mb.trailerInputByte + 8 = item.baseByte + item.bytes.length := by
  induction h with
  | full hfull => omega
  | part _ hblocks _ =>
    have hstop := stop_of_blocks hblocks rfl
    rw [stopAt, decide_eq_true_eq] at hstop
    omega
  | last _ _ _ htrailer hnext =>
    obtain ⟨hbyte, hroom⟩ := trailerAt_ok htrailer
    have hend := nextMember_none hnext
    refine ⟨hregion, item.boundary _ _, rfl, rfl, ?_⟩
    simp only [Item.boundary]
    omega
  | next _ _ _ _ hnext _ ih =>
    obtain ⟨hfinal, mb, hlast, hoffset, hbyte⟩ := ih (nextMember_some hnext).2
    refine ⟨hfinal, mb, ?_, hoffset, hbyte⟩
    rw [List.map_cons, List.getLast?_cons, hlast]
    rfl

end Items

/-! ## The members of a whole chain -/

section Whole

variable {c : Config} {rs ds : List DecodeResult} {r d : DecodeResult} {own bytes : List UInt8}
  {cursor : ℕ} {boundaries : List MemberBoundary}

/-- The pieces have the trailers of their boundaries. -/
theorem cutAll_trailers : (cutAll ds).1.map Prod.snd =
    ds.flatMap fun d => d.memberBoundaries.map MemberBoundary.toTrailer := by
  induction ds using List.reverseRecOn with
  | nil => rfl
  | append_singleton ds d ih =>
    rw [cutAll_snoc, List.map_append, ih, cut_trailers, List.flatMap_append, List.flatMap_singleton]

/-- Behind a boundary at the end of the bytes there is nothing left. -/
theorem cut_snd_eq_nil {mb : MemberBoundary} (hlast : boundaries.getLast? = some mb)
    (hoffset : mb.byteOffsetInChunk = bytes.length) : (cut own bytes cursor boundaries).2 = [] := by
  induction boundaries generalizing own cursor with
  | nil => cases hlast
  | cons mb' boundaries ih =>
    cases boundaries with
    | nil =>
      rw [List.getLast?_singleton] at hlast
      cases hlast
      simp [cut, hoffset]
    | cons mb'' boundaries =>
      rw [List.getLast?_cons_cons] at hlast
      exact @ih [] mb'.byteOffsetInChunk hlast

/-- The boundaries of resolved chunks are those of their items. -/
theorem Resolves.exists_boundaries (hresolves : Resolves rs ds) (hd : d ∈ ds) :
    ∃ r ∈ rs, d.memberBoundaries = r.memberBoundaries := by
  induction hresolves with
  | nil => cases hd
  | snoc _ hjob ih =>
    rcases List.mem_append.mp hd with hd | hd
    · obtain ⟨r, hr, heq⟩ := ih hd
      exact ⟨r, List.mem_append_left _ hr, heq⟩
    · rw [List.mem_singleton.mp hd]
      exact ⟨_, by simp, (resolveJob_ok hjob).2.1⟩

/-- The members that a chain completes have trailers in the body. -/
theorem Chain.trailerIn (hfind : Answers c.find) (hreads : ∀ r ∈ c.reads, r ≠ [])
    (hchain : Chain c.items rs) (hresolves : Resolves rs ds) {m : List UInt8 × Trailer}
    (hm : m ∈ (cutAll ds).1) : TrailerIn c.body m.2 := by
  have htrailer := List.mem_map_of_mem (f := Prod.snd) hm
  rw [cutAll_trailers] at htrailer
  obtain ⟨d, hd, htrailer⟩ := List.mem_flatMap.mp htrailer
  obtain ⟨mb, hmb, hsame⟩ := List.mem_map.mp htrailer
  obtain ⟨r, hr, heq⟩ := hresolves.exists_boundaries hd
  obtain ⟨item, hitem, hwork⟩ := hchain.exists_work hr
  obtain ⟨r', hrun, rfl⟩ := hwork.itemRun
  rw [heq] at hmb
  rw [← hsame]
  unfold Config.items at hitem
  cases hdispatched : c.dispatched with
  | error e =>
    rw [hdispatched] at hitem
    cases hitem
  | ok res =>
    obtain ⟨k, sent⟩ := res
    rw [hdispatched] at hitem
    obtain ⟨s, hs, rfl⟩ := List.mem_map.mp hitem
    obtain ⟨stop, hslice⟩ := (Config.tiled hfind hreads hdispatched).2.slice (fun _ => rfl) hs
    exact hrun.trailerIn hslice mb hmb

/-- The last item goes to the end of the body. -/
theorem Tiled.getLast? {body : List UInt8} {id start : ℕ} {sent : List Sent}
    (h : Tiled body id start sent) (hstart : body = [] → start = 0) :
    ∃ s id' start', sent.getLast? = some s ∧ Last body id' start' s ∧
      s.item.baseByte ≤ body.length := by
  induction h with
  | last hlast => exact ⟨_, _, _, rfl, hlast, hlast.base_le hstart⟩
  | @cut id start stop s rest hcut hrest ih =>
    obtain ⟨s', id', start', hlast, hlast', hbase⟩ := ih fun hbody => by
      have hlt := hcut.start_lt
      have hstop := hcut.stop_le
      have habs := hcut.absEnd_le
      rw [hbody, List.length_nil] at habs
      omega
    refine ⟨s', id', start', ?_, hlast', hbase⟩
    rw [List.getLast?_cons, hlast]
    rfl

/-- A whole chain ends the stream and leaves no member open: the last one ends with the body. -/
theorem Chain.ends (hfind : Answers c.find) (hreads : ∀ r ∈ c.reads, r ≠ []) {k : ℕ}
    {sent : List Sent} (hdispatched : c.dispatched = .ok (k, sent))
    (hchain : Chain c.items rs) (hlength : rs.length = c.items.length)
    (hresolves : Resolves rs ds) (hbits : 8 * c.body.length < U64_MAX) :
    ¬Unfinished rs ∧ (cutAll ds).2 = [] ∧ ∃ m, (cutAll ds).1.getLast? = some m ∧
      m.2.trailerInputByte + 8 = c.body.length := by
  obtain ⟨s, id', start', hlast, htile, hbase⟩ :=
    (Config.tiled hfind hreads hdispatched).2.getLast? fun _ => rfl
  have hitems := Config.items_eq hdispatched
  cases hchain with
  | nil =>
    rw [hitems, List.length_map, List.length_nil] at hlength
    rw [List.length_eq_zero_iff.mp hlength.symm] at hlast
    cases hlast
  | @snoc rs item r hchain hopen hitem hwork =>
    have hsame : item = s.item := by
      rw [List.length_append, List.length_singleton] at hlength
      rw [List.getLast?_eq_getElem?] at hlast
      have hsent : rs.length = sent.length - 1 := by
        rw [hitems, List.length_map] at hlength
        omega
      rw [hitems, List.getElem?_map, hsent, hlast] at hitem
      cases hitem
      rfl
    subst hsame
    obtain ⟨r', hrun, rfl⟩ := hwork.itemRun
    obtain ⟨ds, d, rfl, -, hjob⟩ := resolves_snoc_iff.mp hresolves
    have hbytes : s.item.bytes.length = c.body.length - s.item.baseByte := by
      rw [htile.bytes_eq, List.length_drop]
    have hstart : s.item.startBit < 8 * s.item.bytes.length := by
      apply hrun.pos_lt
      have hlt := htile.startBit_lt
      rw [htile.hint_eq, U64_MAX]
      omega
    have hhint : 8 * s.item.bytes.length < s.item.endBitHint := by
      rw [htile.hint_eq]
      omega
    obtain ⟨hfinal, mb, hmb, hoffset, hend⟩ := hrun.ends htile.region hhint hstart.le
    obtain ⟨-, hboundaries, hchunk⟩ := resolveJob_ok hjob
    have hboundaries' : d.memberBoundaries = r'.members.map Prod.snd := hboundaries
    have hlengthCells : d.chunk.bytes.length = r'.cells.length := by
      rw [hchunk]
      simp [jobAt, decodedTo, chunkOf]
    rw [cutAll_snoc, hboundaries']
    refine ⟨fun hopen' => ?_, cut_snd_eq_nil hmb (hoffset.trans hlengthCells.symm), ?_⟩
    · have hopen'' : r'.finalBlock = false := hopen' _ (List.mem_append_right rs List.mem_cons_self)
      rw [hfinal] at hopen''
      cases hopen''
    have htrailers := @cut_trailers d.chunk.bytes (cutAll ds).2 0 (r'.members.map Prod.snd)
    have hlastTrailer := congrArg List.getLast? htrailers
    rw [List.getLast?_map, List.getLast?_map, hmb] at hlastTrailer
    obtain ⟨m, hm, hmtrailer⟩ := Option.map_eq_some_iff.mp hlastTrailer
    refine ⟨m, ?_, ?_⟩
    · rw [List.getLast?_append, hm]
      rfl
    · rw [hmtrailer]
      have : mb.toTrailer.trailerInputByte = mb.trailerInputByte := rfl
      omega

/-- The chunks of all items have been sent, and the members that they are cut into match the
trailers that the body holds for them. Only bits that a 64-bit number cannot count could be
left behind the last one. -/
structure Complete (c : Config) (received : List (List UInt8)) (rs ds : List DecodeResult) :
    Prop where
  chain : Chain c.items rs
  length_eq : rs.length = c.items.length
  resolves : Resolves rs ds
  received_eq : received = sentBytes ds
  members : ∀ m ∈ (cutAll ds).1, Passes c.crc m ∧ TrailerIn c.body m.2
  flatten_eq : ((cutAll ds).1.map Prod.fst).flatten ++ (cutAll ds).2 = received.flatten
  ends : 8 * c.body.length < U64_MAX → (cutAll ds).2 = [] ∧
    ∃ m, (cutAll ds).1.getLast? = some m ∧ m.2.trailerInputByte + 8 = c.body.length

/-- What a call returns, with what has been sent until then. -/
def Accounts (c : Config) (F : String → Prop) (received : List (List UInt8)) :
    Except Error (ℕ × ℕ × ℕ) → Prop
  | .ok (total, chunks, compressed) => (∃ rs ds, Complete c received rs ds) ∧
      total = received.flatten.length ∧ chunks = received.length ∧
      compressed = c.reads.flatten.length
  | .error e => Fails c e ∨ c.dispatched = .error (.failed e) ∨ ∃ msg, F msg ∧ e = .io msg

variable {F : String → Prop} {s : State c}

/-- A call that returns a result has sent the chunks of all items. -/
theorem complete_of_returned (hn : 0 < c.numThreads) (hfind : Answers c.find)
    (hreads : ∀ r ∈ c.reads, r ≠ []) (hover : c.dispatched ≠ .error .overflow)
    (hfits : c.ItemsFit) (hreach : Reaches (Call c F) (init c) s) (hopen : s.sink.isOpen = true)
    {total chunks compressed : ℕ} (hreturned : s.Returned (.ok (total, chunks, compressed))) :
    (∃ rs ds, Complete c s.sink.received rs ds) ∧ total = s.sink.received.flatten.length ∧
      chunks = s.sink.received.length ∧ compressed = c.reads.flatten.length := by
  have hinv := (inv_of_reaches hn hfind hreads hover hfits hreach).2
  rcases hinv.returned hopen hreturned with
    ⟨rs, ds, m, k, sent, hchain, hlength, hresolves, hcheck, hreceived, hdispatched, hres⟩ |
    ⟨e, hres, -⟩
  swap
  · cases hres
  cases hres
  have hcuttable := hresolves.cuttable fun r hr => by
    obtain ⟨item, -, hwork⟩ := hchain.exists_work hr
    exact ⟨item, hwork⟩
  refine ⟨⟨rs, ds, hchain, hlength, hresolves, hreceived, fun m hm => ⟨?_, ?_⟩, ?_, ?_⟩, ?_, ?_,
    (Config.tiled hfind hreads hdispatched).1⟩
  · exact (checkAll_iff.mp hcheck).1 m hm
  · exact hchain.trailerIn hfind hreads hresolves hm
  · rw [hreceived]
    exact cutAll_flatten hcuttable
  · exact fun hbits => (hchain.ends hfind hreads hdispatched hlength hresolves hbits).2
  · rw [hreceived]
  · rw [hreceived, sentBytes, List.length_map]

/-- A call whose consumer has listened to its end accounts for all that the stream holds, whatever
that is, as long as no worker runs off its vector: with a result for all items, their members and
their trailers, and with an error for what it comes from. -/
theorem accounts_of_returned (hn : 0 < c.numThreads) (hfind : Answers c.find)
    (hreads : ∀ r ∈ c.reads, r ≠ []) (hover : c.dispatched ≠ .error .overflow)
    (hfits : c.ItemsFit) (hreach : Reaches (Call c F) (init c) s) (hopen : s.sink.isOpen = true)
    {res : Except Error (ℕ × ℕ × ℕ)} (hreturned : s.Returned res) :
    Accounts c F s.sink.received res := by
  cases res with
  | ok res => exact complete_of_returned hn hfind hreads hover hfits hreach hopen hreturned
  | error e =>
    have hinv := (inv_of_reaches hn hfind hreads hover hfits hreach).2
    rcases hinv.returned hopen hreturned with
      ⟨_, _, _, _, _, -, -, -, -, -, -, hres⟩ | ⟨e', hres, hfails | hcause | hoverflow⟩
    · cases hres
    · cases hres
      exact Or.inl hfails
    · cases hres
      refine Or.inr (hcause.imp id ?_)
      rintro ⟨msg, hmsg, heq⟩
      cases heq
      exact ⟨msg, hmsg, rfl⟩
    · rcases hoverflow with hoverflow | ⟨_, _, heq⟩
      · exact absurd hoverflow hover
      · cases heq

end Whole

section OneMember

/-- The only item is short. -/
theorem oneMember_itemsFit : oneMember.ItemsFit :=
  Config.itemsFit_of_short
    (show oneMember.dispatched = .ok (24, [⟨oneItem, 14⟩]) by decide +kernel) (by decide)

/-- A run in which the only member has been sent and the call has returned. -/
theorem reaches_oneReturned : ∃ s, Reaches (Call oneMember fun _ => True) (init oneMember) s ∧
    s.sink = ⟨true, [[65]]⟩ ∧ s.Returned (.ok (1, 1, 24)) := by
  have hworkers := reaches_oneDelivered.tail (Or.inl (.work (.close (i := ⟨0, by decide⟩) rfl rfl
    (not_not.mpr ⟨_, rfl⟩))))
  have hresolvers := hworkers.tail (Or.inl (.resolve (.close (i := ⟨0, by decide⟩) rfl rfl
    (not_not.mpr rfl))))
  have hteardown := hresolvers.tail (Or.inl (.output (.teardown rfl)))
  have htoken := hteardown.tail (Or.inl (.output (.dropTokenTx rfl)))
  have hdone := htoken.tail (Or.inl (.output (.dropDoneRx rfl)))
  have hstopped {α β : Type} : ((Pool.start 1 α β).setWorker 0 .stopped).Stopped := by
    intro i
    rw [Subsingleton.elim i 0]
    rfl
  have hreturned := hdone.tail (Or.inl (.output (.join rfl rfl hstopped hstopped rfl)))
  exact ⟨_, Reaches.mono hreturned fun _ _ hmove => hmove.imp (fun h => ⟨h, fun _ _ => trivial⟩) id,
    rfl, rfl⟩

/-- A call for a stored byte accounts for it. -/
theorem accounts_of_returned_oneMember :
    Accounts oneMember (fun _ => True) [[65]] (.ok (1, 1, 24)) := by
  obtain ⟨s, hreach, hsink, hreturned⟩ := reaches_oneReturned
  have haccounts := accounts_of_returned Nat.one_pos answers_findNextDynamicBlock oneMember_reads
    oneMember_dispatched oneMember_itemsFit hreach (by rw [hsink]) hreturned
  rwa [hsink] at haccounts

end OneMember

/-! ## One output for all schedules -/

section Schedules

variable {c : Config} {rs rs' ds ds' : List DecodeResult} {F F' : String → Prop} {n : ℕ}
  {s : State c} {s' : State { c with numThreads := n }}

/-- A result that a call with an open sink has returned counts the chunks of all items. -/
theorem Inv.result {s : State c} (hinv : Inv F s) (hopen : s.sink.isOpen = true)
    {res : ℕ × ℕ × ℕ} (hreturned : s.Returned (.ok res)) :
    ∃ rs ds k sent, Chain c.items rs ∧ rs.length = c.items.length ∧ Resolves rs ds ∧
      s.sink.received = sentBytes ds ∧ c.dispatched = .ok (k, sent) ∧
      res = ((sentBytes ds).flatten.length, ds.length, k) := by
  rcases hinv.returned hopen hreturned with
    ⟨rs, ds, _, k, sent, hchain, hlength, hresolves, -, hreceived, hdispatched, hres⟩ | ⟨e, hres, -⟩
  · cases hres
    exact ⟨rs, ds, k, sent, hchain, hlength, hresolves, hreceived, hdispatched, rfl⟩
  · cases hres

end Schedules

end Streaming

end Pipeline

end RustyRapidgzip
