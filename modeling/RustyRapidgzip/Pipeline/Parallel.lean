import RustyRapidgzip.Pipeline.ChunkFits
import RustyRapidgzip.Pipeline.ChunkSize
import RustyRapidgzip.Pipeline.Pieces
import RustyRapidgzip.Pipeline.Progress

/-!
# Parallel decoding is serial decoding

The chain of chunks follows the members of a body, wherever the boundaries were guessed. On
a body that the serial decoder accepts no chunk of the chain fails, and every run of the
threads returns with the same bytes sent, as long as no worker runs off the vector of its chunk.
-/

namespace RustyRapidgzip

open LsbBits Reference Lz Crc Stop Threads Transition

namespace Pipeline

/-- The bound of the last chunk, which no position of the body reaches: `u64::MAX`, for every
body whose bit positions have 64 bits. -/
def noHint (body : List UInt8) : ℕ := max (2 ^ 64 - 1) (8 * body.length + 1)

/-- The work items between the boundaries. -/
def workItems (body : List UInt8) (boundaries : List ℕ) : List WorkItem :=
  boundaries.mapIdx fun i startBit => ⟨i, startBit, boundaries.getD (i + 1) (noHint body)⟩

/-- What decoding an item may give over an unbounded output: the worker's buffer may hold
anything. -/
def Unbounded.Decodes (body : List UInt8) (item : WorkItem) (r : Except Error WorkResult) : Prop :=
  ∃ scratch, Unbounded.decodeOneChunk body scratch item = r

/-- What decoding an item may give: the worker's buffers may hold anything, and a recycled one may
have any capacity. A worker that runs off its vector may hand on anything. -/
def Decodes (build : Build) (body : List UInt8) (item : WorkItem) (r : Except Error WorkResult) :
    Prop :=
  (∃ capacity scratch, decodeOneChunk build capacity body scratch item = lift r) ∨
    ((∃ capacity scratch, decodeOneChunk build capacity body scratch item = .error .fault) ∧
      ∀ w, r = .ok w → w.id = item.id)

/-- The sizes of the pools and the cap. -/
structure ThreadConfig where
  numThreads : ℕ
  two_le_numThreads : 2 ≤ numThreads
  resolveThreads : ℕ
  resolveThreads_pos : 0 < resolveThreads
  maxInFlight : Option ℕ

section Items

variable {body : List UInt8} {boundaries : List ℕ} {i : ℕ} {item : WorkItem}

/-- An item has the number of its place, and ends at the next boundary. -/
theorem getElem?_workItems (h : (workItems body boundaries)[i]? = some item) :
    item.id = i ∧ item.endBitHint = boundaries.getD (i + 1) (noHint body) := by
  rw [workItems, List.getElem?_mapIdx] at h
  obtain ⟨startBit, -, rfl⟩ := Option.map_eq_some_iff.mp h
  exact ⟨rfl, rfl⟩

/-- The only item of a call that finds no boundary has no bound. -/
theorem single_item {rs : List WorkResult} (hitem : (workItems body [0])[rs.length]? = some item) :
    rs = [] ∧ item.endBitHint = noHint body := by
  have hlt : rs.length < 1 := (List.getElem?_eq_some_iff.mp hitem).1
  obtain rfl := List.length_eq_zero_iff.mp (show rs.length = 0 by omega)
  exact ⟨rfl, (getElem?_workItems hitem).2⟩

/-- There is an item for each boundary. -/
theorem length_workItems : (workItems body boundaries).length = boundaries.length :=
  List.length_mapIdx

/-- A result has the number of its item. -/
theorem Unbounded.Decodes.id_eq {r : WorkResult} (h : Unbounded.Decodes body item (.ok r)) :
    r.id = item.id := by
  obtain ⟨scratch, h⟩ := h
  have hspec := chunkSpec_decodeOneChunk body scratch item
  rw [h] at hspec
  obtain ⟨-, r, -, rfl⟩ := hspec
  rfl

/-- What a decoded chunk is. -/
theorem Unbounded.Decodes.chunkRun {r : WorkResult} (h : Unbounded.Decodes body item (.ok r)) :
    item.startBit ≤ 8 * body.length ∧ ∃ r',
      ChunkRun 0 body item.endBitHint true item.startBit [] r' ∧
      r = r'.result item.id := by
  obtain ⟨scratch, h⟩ := h
  have hspec := chunkSpec_decodeOneChunk body scratch item
  rwa [h] at hspec

variable {build : Build}

/-- What is decoded without a fault is what is decoded over an unbounded output. -/
theorem decodes_of_eq_lift {capacity : ℕ} {scratch : List ℕ} {r : Except Error WorkResult}
    (h : decodeOneChunk build capacity body scratch item = lift r) :
    Unbounded.Decodes body item r := by
  have htracks := @tracks_decodeOneChunk build capacity body scratch item
  rw [h] at htracks
  refine ⟨scratch, ?_⟩
  cases r with
  | ok w => exact htracks.ok_eq rfl
  | error e => exact htracks.error_eq rfl

/-- A result has the number of its item, also where the worker has run off its vector. -/
theorem Decodes.id_eq {r : WorkResult} (h : Decodes build body item (.ok r)) : r.id = item.id := by
  rcases h with ⟨_, _, hok⟩ | ⟨-, hid⟩
  · exact (decodes_of_eq_lift hok).id_eq
  · exact hid r rfl

/-- A worker makes something of every item. -/
theorem Decodes.total (build : Build) (body : List UInt8) (item : WorkItem) :
    ∃ r, Decodes build body item r := by
  cases hrun : decodeOneChunk build 0 body [] item with
  | ok w => exact ⟨.ok w, Or.inl ⟨0, [], hrun⟩⟩
  | error e =>
    cases e with
    | fault => exact ⟨.error (.io ""), Or.inr ⟨⟨0, [], hrun⟩, nofun⟩⟩
    | error e => exact ⟨.error e, Or.inl ⟨0, [], hrun⟩⟩

/-- An item that fits is decoded as over an unbounded output. -/
theorem ItemFits.decodes {r : Except Error WorkResult} (hfits : ItemFits build body item)
    (h : Decodes build body item r) : Unbounded.Decodes body item r := by
  rcases h with ⟨_, _, hrun⟩ | ⟨⟨_, _, hfault⟩, -⟩
  · exact decodes_of_eq_lift hrun
  · rw [hfits.decodeOneChunk_eq] at hfault
    exact absurd hfault (lift_ne_fault _)

end Items

/-- `parallel_decode_member` on a body over an unbounded output, with its boundaries and
threads. -/
def Unbounded.memberConfig (crc : Checksum) (body : List UInt8) (boundaries : List ℕ)
    (t : ThreadConfig) : Mmap.Config where
  crc := crc
  bodyLen := body.length
  items := workItems body boundaries
  items_id _ _ h := (getElem?_workItems h).1
  decode := Unbounded.Decodes body
  decode_total _ := ⟨_, [], rfl⟩
  decode_id _ _ h := h.id_eq
  numThreads := t.numThreads
  two_le_numThreads := t.two_le_numThreads
  resolveThreads := t.resolveThreads
  resolveThreads_pos := t.resolveThreads_pos
  maxInFlight := t.maxInFlight

/-- `parallel_decode_member` on a body, with its boundaries and threads. -/
def memberConfig (build : Build) (crc : Checksum) (body : List UInt8) (boundaries : List ℕ)
    (t : ThreadConfig) : Mmap.Config where
  crc := crc
  bodyLen := body.length
  items := workItems body boundaries
  items_id _ _ h := (getElem?_workItems h).1
  decode := Decodes build body
  decode_total item := Decodes.total build body item
  decode_id _ _ h := h.id_eq
  numThreads := t.numThreads
  two_le_numThreads := t.two_le_numThreads
  resolveThreads := t.resolveThreads
  resolveThreads_pos := t.resolveThreads_pos
  maxInFlight := t.maxInFlight

/-- Every item fits that a worker takes up: the work items, and those that are decoded again from
where the chunk before ended. -/
structure ItemsFit (build : Build) (body : List UInt8) (c : Mmap.Config) : Prop where
  items : ∀ item ∈ c.items, ItemFits build body item
  chains : ∀ rs item, Mmap.Chain c rs → Mmap.Unfinished rs → c.items[rs.length]? = some item →
    ItemFits build body (Mmap.chainItem rs item.endBitHint)

/-- What a call needs: a chunk size that does not overflow, and items that fit. -/
structure CallFits (build : Build) (chunkSizeBytes : ℕ) (body : List UInt8) (c : Mmap.Config) :
    Prop where
  chunkSize : ChunkSizeFits chunkSizeBytes body
  items : ItemsFit build body c

/-- The items of a short body fit whose later members are one stored or fixed block. -/
theorem itemsFit_of_plainMembers (build : Build) {body : List UInt8} (hshort : body.length ≤ 63)
    (hplain : plainMembers body = true) (c : Mmap.Config) : ItemsFit build body c :=
  ⟨fun item _ => itemFits_of_plainMembers build hshort hplain item,
    fun _ _ _ _ _ => itemFits_of_plainMembers build hshort hplain _⟩

namespace Mmap

section Valid

variable {crc : Checksum} {body : List UInt8} {boundaries : List ℕ} {t : ThreadConfig}
  {rs : List WorkResult} {ds : List ResolveDone}

/-- The chunks of the chain have less than 4 GiB each. -/
def ShortChunks (c : Config) : Prop :=
  ∀ rs, Chain c rs → ∀ r ∈ rs, r.chunk.bytes.length < 2 ^ 32

/-- The chunks of a chain have no marker behind their first 4 GiB. -/
def NearChunks (body : List UInt8) (rs : List WorkResult) : Prop :=
  ∀ before r endBitHint, before ++ [r.result before.length] <+: rs →
    ChunkRun 0 body endBitHint true (chainEnd before) [] r → NearMarkers 0 r.cells

/-- Chunks of less than 4 GiB have near markers. -/
theorem nearChunks_of_length (h : ∀ r ∈ rs, r.chunk.bytes.length < 2 ^ 32) :
    NearChunks body rs := by
  intro before r _ hpre _
  have hlt := h _ (hpre.subset (List.mem_append_right before List.mem_cons_self))
  simp only [ChunkEnd.result, chunkOf, List.length_map] at hlt
  exact nearMarkers_of_length (by omega)

/-- The chunks determine what they are resolved to. -/
theorem Resolves.unique {c : Config} {ds' : List ResolveDone} (h : Resolves c rs ds)
    (h' : Resolves c rs ds') : ds = ds' := by
  induction h generalizing ds' with
  | nil =>
    have hlength := h'.length_eq
    exact (List.length_eq_zero_iff.mp hlength).symm
  | snoc _ hjob ih =>
    obtain ⟨ds'', d', rfl, hresolves', hjob'⟩ := resolves_snoc_iff.mp h'
    rw [hjob] at hjob'
    cases hjob'
    rw [ih hresolves']

/-- A tail that resolves a chunk is the end of a history that resolves it. -/
theorem resolveMarkers_of_lastWindow {chunk chunk' : SpeculativeChunk} {history : List UInt8}
    (hordered : Ordered chunk) (h : resolveMarkers chunk (lastWindow history) = .ok chunk') :
    resolveMarkers chunk history = .ok chunk' := by
  unfold resolveMarkers at h ⊢
  cases hfill : fillMarkers (lastWindow history) chunk.markers chunk.bytes with
  | error e =>
    rw [hfill] at h
    cases h
  | ok bytes =>
    rw [hfill] at h
    obtain ⟨hreach, rfl⟩ := fillMarkers_eq_ok_iff.mp hfill
    have hreach' : ∀ m ∈ chunk.markers, m.prefixOffset < history.length := fun m hm => by
      have := hreach m hm
      rw [lastWindow, List.length_drop] at this
      omega
    have hsame := (applyMarkers_lastWindow chunk.bytes hordered.offset_le hreach').2
    rw [fillMarkers_eq_ok_iff.mpr ⟨hreach', hsame⟩]
    exact h

/-- Where a chain stands in a body: the chunks resolve, and the members that they complete and
those that are left are the members of the body. -/
structure Along (c : Config) (body : List UInt8) (outs : List (List UInt8 × Trailer))
    (rs : List WorkResult) (ds : List ResolveDone) : Prop where
  resolves : Resolves c rs ds
  tail_eq : tailChain (rs.map WorkResult.chunk) = lastWindow (sentBytes ds).flatten
  cuttable : ∀ d ∈ ds, Cuttable d
  left : ∃ outs', outs = (cutAll ds).1 ++ completed (cutAll ds).2 outs' ∧
    (Unfinished rs → ∃ members, BodyParse body (chainEnd rs) members ∧
      Expands (cutAll ds).2 members outs') ∧
    (¬Unfinished rs → outs' = [] ∧ (cutAll ds).2 = [])

/-- Where the markers of a chunk resolve, its job does. -/
theorem resolveJob_of_resolveMarkers (crc : Checksum) {job : ResolveJob} {chunk : SpeculativeChunk}
    (h : resolveMarkers job.chunk job.prevTail = .ok chunk) :
    ∃ d, resolveJob crc job = .ok d ∧ d.chunk = chunk ∧
      d.memberBoundaries = job.memberBoundaries := by
  unfold resolveJob
  rw [h]
  exact ⟨_, rfl, rfl, rfl⟩

/-- Nothing has no last window. -/
theorem lastWindow_nil : lastWindow [] = [] := List.drop_nil

/-- Nothing completes nothing. -/
theorem completed_nil (outs : List (List UInt8 × Trailer)) : completed [] outs = outs := by
  cases outs <;> simp [completed]

/-- The last chunk is sent behind the others. -/
theorem sentBytes_snoc {d : ResolveDone} :
    (sentBytes (ds ++ [d])).flatten = (sentBytes ds).flatten ++ d.chunk.bytes := by
  rw [sentBytes, sentBytes, List.map_append, List.flatten_append]
  simp

/-- The members go on behind a chunk that is not the last one. -/
theorem unfinished_snoc {r : WorkResult} (hopen : Unfinished rs) :
    Unfinished (rs ++ [r]) ↔ r.finalBlock = false := by
  constructor
  · exact fun h => h r (by simp)
  · intro h r' hr'
    rcases List.mem_append.mp hr' with hr' | hr'
    · exact hopen r' hr'
    · rwa [List.mem_singleton.mp hr']

/-- From the end of an unfinished chain on, a chunk is decoded. -/
theorem Along.exists_chunkRun {c : Config} {outs : List (List UInt8 × Trailer)}
    (halong : Along c body outs rs ds) (hopen : Unfinished rs) (endBitHint : ℕ) :
    ∃ outs', outs = (cutAll ds).1 ++ completed (cutAll ds).2 outs' ∧ ∃ r more own' outs'',
      ChunkRun 48 body endBitHint true (chainEnd rs) [] r ∧
        Advances body (lastWindow (sentBytes ds).flatten) (cutAll ds).2 [] outs' r more own'
          outs'' := by
  obtain ⟨outs', houts, hopen', -⟩ := halong.left
  obtain ⟨members', hparse, hexpands⟩ := hopen' hopen
  have hctx : Context true [] (lastWindow (sentBytes ds).flatten) (cutAll ds).2 [] :=
    ⟨rfl, fun _ => ⟨rfl, _, ⟨_, cutAll_flatten halong.cuttable⟩, rfl⟩, by simp⟩
  exact ⟨outs', houts, Pipeline.exists_chunkRun endBitHint hparse hexpands hctx⟩

/-- On a valid body every chain is made of the body's members. -/
theorem Chain.along {members : List (List Token × Trailer)} {outs : List (List UInt8 × Trailer)}
    (hbody : BodyParse body 0 members) (hexpands : Expands [] members outs)
    (hchain : Chain (Unbounded.memberConfig crc body boundaries t) rs)
    (hnear : NearChunks body rs) :
    ∃ ds, Along (Unbounded.memberConfig crc body boundaries t) body outs rs ds := by
  induction hchain with
  | nil =>
    have htail : tailChain [] = lastWindow [] := lastWindow_nil.symm
    exact ⟨[], .nil, htail, by simp, outs, (completed_nil outs).symm, fun _ =>
      ⟨members, hbody, hexpands⟩, fun h => absurd (by simp [Unfinished]) h⟩
  | @snoc rs item r hchain hopen hitem hdecode ih =>
    obtain ⟨ds, halong⟩ := ih fun before r hint hpre =>
      hnear before r hint (hpre.trans (List.prefix_append _ _))
    obtain ⟨outs', houts, r'', more, own', outs'', hrun', hadvances⟩ :=
      halong.exists_chunkRun hopen item.endBitHint
    obtain ⟨-, r', hrun, rfl⟩ := Unbounded.Decodes.chunkRun hdecode
    obtain rfl : r'' = r' := hrun'.unique hrun
    have hbytes := hadvances.bytes_eq
    obtain ⟨segments, hcut, hcompleted⟩ := hadvances.completes
    rw [List.nil_append] at hbytes hcut
    have hlength : r''.cells.length = more.length := by
      simpa using congrArg List.length hbytes
    have hcells : NearMarkers 0 r''.cells := hnear rs r'' _ List.prefix_rfl hrun
    have hresolve : resolveMarkers (chunkOf r''.cells) (lastWindow (sentBytes ds).flatten) =
        .ok ⟨more, []⟩ := by
      rcases resolveMarkers_chunkOf (lastWindow (sentBytes ds).flatten) hcells with
        ⟨bytes, hsome, hok⟩ | ⟨hnone, -⟩
      · rw [hbytes] at hsome
        rwa [List.map_injective_iff.mpr (Option.some_injective _) hsome]
      · rw [hbytes] at hnone
        simp at hnone
    have hresolve' : resolveMarkers (jobAt rs (r''.result rs.length)).chunk
        (jobAt rs (r''.result rs.length)).prevTail = .ok ⟨more, []⟩ := by
      simp only [jobAt, ChunkEnd.result, halong.tail_eq]
      exact hresolve
    obtain ⟨d, hjob, hchunk, hboundaries⟩ := resolveJob_of_resolveMarkers crc hresolve'
    have hdbytes : d.chunk.bytes = more := by rw [hchunk]
    have hdboundaries : d.memberBoundaries = r''.members.map Prod.snd := hboundaries
    refine ⟨ds ++ [d], .snoc halong.resolves hjob, ?_, ?_, outs'', ?_, ?_, ?_⟩
    · have hordered := ordered_chunkOf hcells
      rw [List.map_append, List.map_singleton, tailChain_snoc, halong.tail_eq, sentBytes_snoc,
        hdbytes]
      exact buildPrevTailFast_eq hordered (resolveMarkers_of_lastWindow hordered hresolve)
    · intro d' hd'
      rcases List.mem_append.mp hd' with hd' | hd'
      · exact halong.cuttable d' hd'
      · rw [List.mem_singleton.mp hd', Cuttable, hdbytes, hdboundaries, ← hlength]
        exact hrun.offsets
    · rw [cutAll_snoc, hdbytes, hdboundaries]
      simp only [List.length_nil] at hcut
      rw [hcut, houts, hcompleted, List.append_assoc]
    · intro hopen''
      rw [unfinished_snoc hopen] at hopen''
      obtain ⟨members'', hparse', hexpands''⟩ := hadvances.goes_on hopen''
      rw [cutAll_snoc, hdbytes, hdboundaries, chainEnd_snoc]
      simp only [List.length_nil] at hcut
      rw [hcut]
      exact ⟨members'', hparse', hexpands''⟩
    · intro hfinal
      rw [unfinished_snoc hopen, Bool.not_eq_false] at hfinal
      obtain ⟨rfl, rfl⟩ := hadvances.ends hfinal
      rw [cutAll_snoc, hdbytes, hdboundaries]
      simp only [List.length_nil] at hcut
      rw [hcut]
      exact ⟨rfl, rfl⟩

/-- The last chunk of a chain is decoded from where the others end. -/
theorem Chain.chunkRun {r : WorkResult}
    (hchain : Chain (Unbounded.memberConfig crc body boundaries t) (rs ++ [r])) :
    ∃ hint r', ChunkRun 0 body hint true (chainEnd rs) [] r' ∧ r = r'.result rs.length := by
  generalize hall : rs ++ [r] = all at hchain
  cases hchain with
  | nil => simp at hall
  | snoc _ _ _ hdecode =>
    obtain ⟨rfl, hr⟩ := List.append_inj' hall rfl
    cases hr
    obtain ⟨-, r', hrun, rfl⟩ := Unbounded.Decodes.chunkRun hdecode
    exact ⟨_, r', hrun, rfl⟩

/-- The last item has no bound. -/
theorem chain_final (hchain : Chain (Unbounded.memberConfig crc body boundaries t) rs)
    (hboundaries : boundaries ≠ []) (hlen : rs.length = boundaries.length) : ¬Unfinished rs := by
  intro hopen
  cases hchain with
  | nil => exact hboundaries (List.length_eq_zero_iff.mp hlen.symm)
  | @snoc rs item r _ _ hitem hdecode =>
    obtain ⟨hle, r', hrun, rfl⟩ := Unbounded.Decodes.chunkRun hdecode
    have hhint := (getElem?_workItems hitem).2
    rw [List.length_append, List.length_singleton] at hlen
    rw [hlen, List.getD_eq_default _ _ le_rfl] at hhint
    have hfinal := hrun.final (by
      simp only [chainItem, hhint, noHint]
      omega) hle
    have hopen' : r'.finalBlock = false := hopen _ (List.mem_append_right rs List.mem_cons_self)
    rw [hfinal] at hopen'
    cases hopen'

/-- On a body whose members can be decoded the only cause to fail is a check. -/
theorem Fails.exists_stitch {members : List (List Token × Trailer)}
    {outs : List (List UInt8 × Trailer)} {e : Error}
    (hfails : Fails (Unbounded.memberConfig crc body boundaries t) e)
    (hbody : BodyParse body 0 members)
    (hexpands : Expands [] members outs) (hboundaries : boundaries ≠ [])
    (hnear : ∀ rs, Chain (Unbounded.memberConfig crc body boundaries t) rs → NearChunks body rs) :
    ∃ rs ds, Along (Unbounded.memberConfig crc body boundaries t) body outs rs ds ∧
      stitchAll crc ds = .error e := by
  cases hfails with
  | @decode rs item _ hchain hopen hitem hdecode =>
    obtain ⟨ds, halong⟩ := hchain.along hbody hexpands (hnear _ hchain)
    obtain ⟨_, -, r, _, _, _, hrun, -⟩ := halong.exists_chunkRun hopen item.endBitHint
    obtain ⟨_, -, hopen', -⟩ := halong.left
    obtain ⟨_, hparse, -⟩ := hopen' hopen
    obtain ⟨scratch, hdecode⟩ := hdecode
    have hspec := chunkSpec_decodeOneChunk body scratch (chainItem rs item.endBitHint)
    rw [hdecode] at hspec
    exact absurd hrun (hspec.2 (pos_le_of_bodyParse hparse) r)
  | @resolve rs r _ hchain hjob =>
    obtain ⟨ds, halong⟩ := hchain.along hbody hexpands (hnear _ hchain)
    obtain ⟨_, d, -, -, hok⟩ := resolves_snoc_iff.mp halong.resolves
    rw [hjob] at hok
    cases hok
  | @stitch rs ds _ hchain hresolves hstitch =>
    obtain ⟨ds', halong⟩ := hchain.along hbody hexpands (hnear _ hchain)
    obtain rfl := hresolves.unique halong.resolves
    exact ⟨rs, ds, halong, hstitch⟩
  | unfinished hchain hlen hopen =>
    refine absurd hopen (chain_final hchain hboundaries ?_)
    rw [hlen]
    exact length_workItems
  | @noTrailer rs r _ hchain hfinal hnone =>
    obtain ⟨_, r', hrun, rfl⟩ := hchain.chunkRun
    obtain ⟨mb, hlast, -⟩ := hrun.getLast? hfinal
    have hnone' : r'.members.map Prod.snd = [] := hnone
    rw [hnone'] at hlast
    cases hlast

/-- On a valid body the pipeline has no cause to fail. -/
theorem not_fails {members : List (List Token × Trailer)} {outs : List (List UInt8 × Trailer)}
    (hbody : BodyParse body 0 members) (hexpands : Expands [] members outs)
    (hpass : ∀ m ∈ outs, Passes crc m) (hboundaries : boundaries ≠ [])
    (hshort : ShortChunks (Unbounded.memberConfig crc body boundaries t)) (e : Error) :
    ¬Fails (Unbounded.memberConfig crc body boundaries t) e := by
  intro hfails
  obtain ⟨rs, ds, halong, hstitch⟩ := hfails.exists_stitch hbody hexpands hboundaries
    fun rs hchain => nearChunks_of_length (hshort rs hchain)
  obtain ⟨outs', houts, -⟩ := halong.left
  have hok := (stitchAll_iff halong.resolves halong.cuttable).mpr
    ⟨fun seg hseg => hpass seg (by rw [houts]; exact List.mem_append_left _ hseg), rfl⟩
  rw [show stitchAll (Unbounded.memberConfig crc body boundaries t).crc ds = .error e from hstitch]
    at hok
  cases hok

/-- Each chunk is sent as one piece. -/
theorem length_eq_of_sentBytes {received : List (List UInt8)} (h : received = sentBytes ds) :
    ds.length = received.length := by
  rw [h, sentBytes, List.length_map]

/-- Members with less than 4 GiB of output together have no longer chunks. -/
theorem shortChunks_of_expands {members : List (List Token × Trailer)}
    {outs : List (List UInt8 × Trailer)} (hparse : BodyParse body 0 members)
    (hexpands : Expands [] members outs) (hos : (outs.map Prod.fst).flatten.length < 2 ^ 32) :
    ShortChunks (Unbounded.memberConfig crc body boundaries t) := by
  intro rs hchain
  induction hchain with
  | nil => simp
  | @snoc rs item r hchain hopen _ hdecode ih =>
    rw [List.forall_mem_append]
    refine ⟨ih, fun r'' hr'' => ?_⟩
    rw [List.mem_singleton.mp hr'']
    obtain ⟨ds, halong⟩ := hchain.along hparse hexpands (nearChunks_of_length ih)
    obtain ⟨outs', houts, r₀, more, own', outs'', hrun', hadvances⟩ :=
      halong.exists_chunkRun hopen item.endBitHint
    obtain ⟨-, r', hrun, rfl⟩ := Unbounded.Decodes.chunkRun hdecode
    obtain rfl : r₀ = r' := hrun'.unique hrun
    have hlength : r₀.cells.length = more.length := by
      simpa using congrArg List.length hadvances.bytes_eq
    have hmore := hadvances.length_le (hlength ▸ hrun.offsets)
    rw [houts, List.map_append, List.flatten_append, List.length_append] at hos
    simp only [ChunkEnd.result, chunkOf, List.length_map]
    omega

/-- A body that decodes to less than 4 GiB has short chunks. -/
theorem shortChunks_of_length {os : List UInt8} (hbody : BodyMembers crc body os)
    (hos : os.length < 2 ^ 32) : ShortChunks (Unbounded.memberConfig crc body boundaries t) := by
  obtain ⟨members, outs, hparse, hexpands, -, rfl⟩ := bodyMembers_iff_membersAt.mp hbody
  exact shortChunks_of_expands hparse hexpands hos

/-- What a call on a valid body returns: all bytes sent, and the whole body consumed. -/
def Delivers {c : Config} (os : List UInt8) (s : State c) : Prop :=
  s.sink.received.flatten = os ∧
    ∃ failures, s.Returned (.ok (os.length, c.bodyLen, s.sink.received.length, failures))

/-- Along a whole chain all members are cut. -/
theorem Along.whole {c : Config} {outs : List (List UInt8 × Trailer)} {r : WorkResult}
    (halong : Along c body outs (rs ++ [r]) ds) (hfinal : r.finalBlock = true) :
    (cutAll ds).1 = outs ∧ (cutAll ds).2 = [] := by
  obtain ⟨outs', houts, -, hends⟩ := halong.left
  obtain ⟨rfl, hown⟩ := hends fun hopen => by
    have := hopen r (List.mem_append_right rs List.mem_cons_self)
    rw [hfinal] at this
    cases this
  rw [hown, completed_nil, List.append_nil] at houts
  exact ⟨houts.symm, hown⟩

section Fits

variable {build : Build}

/-- A call whose items fit decodes along its chains as over an unbounded output. -/
theorem simulates_of_itemsFit
    (hfits : ItemsFit build body (Unbounded.memberConfig crc body boundaries t)) :
    Simulates (memberConfig build crc body boundaries t)
      (Unbounded.memberConfig crc body boundaries t) where
  crc_eq := rfl
  items_eq := rfl
  decodes rs item _ hchain hopen hitem hdecode :=
    (hfits.chains rs item hchain hopen hitem).decodes hdecode

/-- What a call whose items fit returns. -/
theorem returned_of_itemsFit
    (hfits : ItemsFit build body (Unbounded.memberConfig crc body boundaries t))
    {s : State (memberConfig build crc body boundaries t)} (hreach : Reaches (Step _) (init _) s)
    {res : Except Error (ℕ × ℕ × ℕ × ℕ)} (hreturned : s.Returned res) :
    (∃ rs r ds bc n, s.stageA.accepted = rs ++ [r] ∧
      Succeeds (Unbounded.memberConfig crc body boundaries t) rs r ds bc ∧
      s.sink.received = sentBytes ds ∧
      res = .ok ((sentBytes ds).flatten.length, bc, ds.length, n)) ∨
    ∃ e, res = .error e ∧ Fails (Unbounded.memberConfig crc body boundaries t) e := by
  have hsim := simulates_of_itemsFit hfits
  rcases (inv_of_reaches_step hreach).returned (sinkClosed_of_reaches hreach).2 hreturned with
    ⟨rs, r, ds, bc, n, haccepted, hsucceeds, hreceived, hres⟩ | ⟨e, hres, hfails⟩
  · exact Or.inl ⟨rs, r, ds, bc, n, haccepted, hsim.succeeds hsucceeds, hreceived, hres⟩
  · exact Or.inr ⟨e, hres, hsim.fails hfails⟩

/-- What a call on a valid body returns is its members. -/
theorem delivers_of_returned {os : List UInt8} (hbody : BodyMembers crc body os)
    (hboundaries : boundaries ≠ [])
    (hshort : ShortChunks (Unbounded.memberConfig crc body boundaries t))
    (hfits : ItemsFit build body (Unbounded.memberConfig crc body boundaries t))
    {s : State (memberConfig build crc body boundaries t)} (hreach : Reaches (Step _) (init _) s)
    {res : Except Error (ℕ × ℕ × ℕ × ℕ)} (hreturned : s.Returned res) : Delivers os s := by
  obtain ⟨members, outs, hparse, hexpands, hpass, rfl⟩ := bodyMembers_iff_membersAt.mp hbody
  rcases returned_of_itemsFit hfits hreach hreturned with
    ⟨rs, r, ds, bc, failures, -, hsucceeds, hreceived, rfl⟩ | ⟨e, -, hfails⟩
  swap
  · exact absurd hfails (not_fails hparse hexpands hpass hboundaries hshort e)
  obtain ⟨ds', halong⟩ := hsucceeds.chain.along hparse hexpands
    (nearChunks_of_length (hshort _ hsucceeds.chain))
  obtain rfl := hsucceeds.resolves.unique halong.resolves
  obtain ⟨houts, hown⟩ := halong.whole hsucceeds.final
  have hbytes : s.sink.received.flatten = (outs.map Prod.fst).flatten := by
    have hflatten := cutAll_flatten halong.cuttable
    rw [hown, List.append_nil, houts] at hflatten
    rw [hreceived, ← hflatten]
  obtain ⟨mb, hlast, rfl⟩ := hsucceeds.consumed
  obtain ⟨_, r', hrun, rfl⟩ := hsucceeds.chain.chunkRun
  obtain ⟨mb', hlast', hend⟩ := hrun.getLast? hsucceeds.final
  have hlast'' : (r'.members.map Prod.snd).getLast? = some mb := hlast
  rw [hlast'] at hlast''
  cases hlast''
  refine ⟨hbytes, failures, ?_⟩
  rw [← hbytes, ← length_eq_of_sentBytes hreceived, hreceived]
  rw [hend] at hreturned
  exact hreturned

/-- On a valid body every run of the threads returns with its members sent. -/
theorem inevitable_delivers {os : List UInt8} (hbody : BodyMembers crc body os)
    (hboundaries : boundaries ≠ [])
    (hshort : ShortChunks (Unbounded.memberConfig crc body boundaries t))
    (hfits : ItemsFit build body (Unbounded.memberConfig crc body boundaries t)) :
    Inevitable (Step (memberConfig build crc body boundaries t)) (Delivers os)
      (init (memberConfig build crc body boundaries t)) :=
  (inevitable_returned _).mono fun _ ⟨hreach, _, hreturned⟩ =>
    delivers_of_returned hbody hboundaries hshort hfits hreach hreturned

/-- On a body that the serial decoder accepts, with a chunk size and items that fit, the search
for boundaries ends, and every run of the threads returns what the serial decoder returns, with
the same bytes sent. -/
theorem inevitable_serialDecodeMember {input : List UInt8}
    {bodyOffset chunkSizeBytes total consumed chunks : ℕ} {sent : List (List UInt8)}
    (hserial : serialDecodeMember crc input bodyOffset chunkSizeBytes =
      .ok ((total, consumed, chunks), sent)) (hboundaries : boundaries ≠ [])
    (hshort : ShortChunks (Unbounded.memberConfig crc (input.drop bodyOffset) boundaries t))
    (hfits : CallFits build chunkSizeBytes (input.drop bodyOffset)
      (Unbounded.memberConfig crc (input.drop bodyOffset) boundaries t)) :
    (∃ rounds targets, searchTargets chunkSizeBytes (input.drop bodyOffset) rounds = .ok targets) ∧
      Inevitable (Step (memberConfig build crc (input.drop bodyOffset) boundaries t))
        (fun s => s.sink.received.flatten = sent.flatten ∧
          ∃ failures, s.Returned (.ok (total, consumed, s.sink.received.length, failures)))
        (init _) := by
  have hspec := serialOutcome_serialDecodeMember crc input bodyOffset chunkSizeBytes
  rw [hserial] at hspec
  obtain ⟨hbody, rfl, rfl, -⟩ := hspec
  exact ⟨hfits.chunkSize.exists_searchTargets,
    inevitable_delivers hbody hboundaries hshort hfits.items⟩

end Fits

/-- Two workers, one resolve thread and room for one chunk. -/
def twoThreads : ThreadConfig := ⟨2, Nat.le_refl 2, 1, Nat.one_pos, some 1⟩

/-- A stored byte, cut into two items. -/
theorem inevitable_serialDecodeMember_storedMember :
    (∃ rounds targets, searchTargets 0 (Gzip.storedMember.drop 10) rounds = .ok targets) ∧
      Inevitable (Step (memberConfig narrow16 crc32 (Gzip.storedMember.drop 10) [0, 5] twoThreads))
        (fun s => s.sink.received.flatten = [65] ∧
          ∃ failures, s.Returned (.ok (1, 14, s.sink.received.length, failures))) (init _) := by
  have hserial : serialDecodeMember crc32 Gzip.storedMember 10 0 = .ok ((1, 14, 1), [[65]]) := by
    decide +kernel
  have hspec := serialOutcome_serialDecodeMember crc32 Gzip.storedMember 10 0
  rw [hserial] at hspec
  exact inevitable_serialDecodeMember hserial (by simp)
    (shortChunks_of_length hspec.1 (by simp))
    ⟨chunkSizeFits_of_le (by decide) (by decide),
      itemsFit_of_plainMembers narrow16 (by decide) (by decide +kernel) _⟩

end Valid

end Mmap

end Pipeline

end RustyRapidgzip
