import RustyRapidgzip.Deflate.FoundBlock
import RustyRapidgzip.Pipeline.StreamItems
import RustyRapidgzip.Pipeline.StreamIntegrity

/-!
# The chain of a stream whose items start at blocks

The dispatcher trusts the finder: nothing checks that an item starts at a block. Where all of
them do, the chain of the decoded items follows the members of the body, and the only cause for an
error is a member that does not pass its checks.
-/

namespace RustyRapidgzip

open LsbBits Reference Lz Crc Threads Transition

namespace Pipeline

namespace Streaming

/-! ## The room behind an item -/

/-- A finder that returns a block only when its first bits are there. -/
def Sees (find : Finder) : Prop :=
  ∀ data fromBit untilBit pos, find data fromBit untilBit = some pos → pos + 48 ≤ 8 * data.length

/-- The finder of the decoder sees the first bits of a block. -/
theorem sees_findNextDynamicBlock : Sees BlockFinder.findNextDynamicBlock :=
  fun _ _ _ _ h => BlockFinder.room_findNextDynamicBlock h

/-- An item holds the first bits of the block that it was cut at. -/
def Roomy (s : Sent) : Prop :=
  s.item.isFinalRegion = false →
    8 * s.item.baseByte + s.item.endBitHint + 48 ≤ 8 * s.absEnd

section Room

variable {find : Finder} {chunkBits : ℕ} {st final : DispatchState}
  {next : DispatchState ⊕ DispatchState}

/-- An item that ends before what was read has its room. -/
theorem roomy_emit {src : Source} {id start stop : ℕ} (hle : start ≤ stop)
    (hroom : stop + 48 ≤ 8 * src.absEnd) : Roomy ⟨emit src id start stop false, src.absEnd⟩ := by
  intro _
  show 8 * (start / 8) + (stop - start / 8 * 8) + 48 ≤ 8 * src.absEnd
  omega

/-- A boundary has the room of a block behind it. -/
theorem boundary_room {src : Source} {targetBit stop : ℕ} (hsees : Sees find)
    (h : boundary find src targetBit = some stop) : stop + 48 ≤ 8 * src.absEnd := by
  unfold boundary at h
  simp only at h
  split at h
  · cases h
  · obtain ⟨rel, hrel, rfl⟩ := Option.map_eq_some_iff.mp h
    have hroom := hsees _ _ _ _ hrel
    unfold Source.absEnd
    omega

/-- The final region needs no room. -/
theorem finish_roomy {src : Source} (hsent : ∀ s ∈ st.sent, Roomy s)
    (h : st.finish src = .ok next) : ∀ s ∈ (nextState next).sent, Roomy s := by
  unfold DispatchState.finish at h
  split at h
  · cases h
  · cases h
    simp only [nextState, Sum.elim_inr, id, List.forall_mem_append, List.forall_mem_singleton]
    exact ⟨hsent, nofun⟩

/-- A round cuts items with room behind them. -/
theorem dispatchRound_roomy (hfind : Answers find) (hsees : Sees find)
    (hsent : ∀ s ∈ st.sent, Roomy s) (h : dispatchRound find chunkBits st = .ok next) :
    ∀ s ∈ (nextState next).sent, Roomy s := by
  unfold dispatchRound at h
  simp only at h
  split at h
  · cases h
  split at h
  · cases h
  split at h
  case h_1 src _ stop hboundary =>
    cases h
    have hle := (boundary_spec hfind hboundary).1
    have hroom := boundary_room hsees hboundary
    simp only [nextState, Sum.elim_inl, id, DispatchState.cut, List.forall_mem_append,
      List.forall_mem_singleton]
    exact ⟨hsent, roomy_emit (by omega) hroom⟩
  case h_2 src _ _ =>
    split at h
    · split at h
      · exact finish_roomy hsent h
      · cases h
        exact hsent
    · exact finish_roomy hsent h

/-- All items that a run sends have their room. -/
theorem iterate_roomy (hfind : Answers find) (hsees : Sees find) {fuel : ℕ}
    (hsent : ∀ s ∈ st.sent, Roomy s)
    (h : Loop.iterate (.failed (.deflate .outOfFuel)) (dispatchRound find chunkBits) fuel st =
      .ok final) : ∀ s ∈ final.sent, Roomy s := by
  induction fuel generalizing st with
  | zero => cases h
  | succ fuel ih =>
    cases hround : dispatchRound find chunkBits st with
    | error e =>
      rw [Loop.iterate_fail hround] at h
      cases h
    | ok next =>
      have hnext := dispatchRound_roomy hfind hsees hsent hround
      cases next with
      | inl st' =>
        rw [Loop.iterate_continue hround] at h
        exact ih hnext h
      | inr st' =>
        rw [Loop.iterate_break hround] at h
        cases h
        exact hnext

/-- All items that are dispatched have their room. -/
theorem dispatch_roomy {c : Config} (hfind : Answers c.find) (hsees : Sees c.find) {k : ℕ}
    {sent : List Sent} (h : c.dispatched = .ok (k, sent)) : ∀ s ∈ sent, Roomy s := by
  unfold Config.dispatched dispatch at h
  split at h
  · cases h
  split at h
  · cases h
  case h_2 hiterate =>
    cases h
    exact iterate_roomy hfind hsees (by simp) hiterate

end Room

/-! ## The places of the items -/

/-- Where an item starts in the body. -/
def Item.start (item : Item) : ℕ := 8 * item.baseByte + item.startBit

/-- An item and the one after it. -/
theorem Tiled.getElem?_cases {body : List UInt8} {id start : ℕ} {sent : List Sent}
    (h : Tiled body id start sent) {i : ℕ} {s : Sent} (hs : sent[i]? = some s) :
    (∃ s' stop, sent[i + 1]? = some s' ∧ Cut body (id + i) s.item.start stop s ∧
      s'.item.start = stop) ∨
      (sent[i + 1]? = none ∧ Last body (id + i) s.item.start s) := by
  have hstart {s : Sent} {start : ℕ} (h : s.item.baseByte * 8 + s.item.startBit = start) :
      s.item.start = start := by
    rw [Item.start]
    omega
  induction h generalizing i with
  | @last id start s' hlast =>
    cases i with
    | zero =>
      cases hs
      rw [hstart hlast.start_eq]
      exact Or.inr ⟨rfl, hlast⟩
    | succ i => cases hs
  | @cut id start stop s' rest hcut hrest ih =>
    cases i with
    | zero =>
      cases hs
      apply Or.inl
      rw [hstart hcut.start_eq]
      cases hrest with
      | last hlast => exact ⟨_, stop, rfl, hcut, hstart hlast.start_eq⟩
      | cut hcut' _ => exact ⟨_, stop, rfl, hcut, hstart hcut'.start_eq⟩
    | succ i =>
      rw [show id + (i + 1) = id + 1 + i by omega]
      exact ih hs

/-- A stream that the dispatcher cuts at blocks only, in a body whose bits a 64-bit number can
count. -/
structure AtBlocks (c : Config) : Prop where
  answers : Answers c.find
  sees : Sees c.find
  reads : ∀ r ∈ c.reads, r ≠ []
  dispatched : ∃ k sent, c.dispatched = .ok (k, sent)
  starts : ∀ item ∈ c.items, BlockStart c.body item.start
  bits_lt : 8 * c.body.length < U64_MAX

/-- What an item of such a stream holds. -/
theorem AtBlocks.fits {c : Config} (h : AtBlocks c) {i : ℕ} {item : Item}
    (hitem : c.items[i]? = some item) : ∃ stop, Slice c.body item.baseByte stop item.bytes ∧
      Fits c.body item stop item.startBit ∧ ∀ item', c.items[i + 1]? = some item' →
        item.isFinalRegion = false ∧ item'.start = 8 * item.baseByte + item.endBitHint := by
  obtain ⟨k, sent, hdispatched⟩ := h.dispatched
  have hitems := Config.items_eq hdispatched
  have htiled := (Config.tiled h.answers h.reads hdispatched).2
  have hmem := List.mem_of_getElem? hitem
  rw [hitems, List.getElem?_map] at hitem
  obtain ⟨s, hs, rfl⟩ := Option.map_eq_some_iff.mp hitem
  rcases htiled.getElem?_cases hs with ⟨s', stop, hs', hcut, hstop⟩ | ⟨hnone, hlast⟩
  · have hroom := dispatch_roomy h.answers h.sees hdispatched s (List.mem_of_getElem? hs)
      hcut.region
    have hmem' : s'.item ∈ c.items := by
      rw [hitems]
      exact List.mem_map_of_mem (List.mem_of_getElem? hs')
    have hend : s'.item.start = 8 * s.item.baseByte + s.item.endBitHint := by
      have := hcut.stop_eq
      omega
    have hlt := hcut.start_lt
    have habs := hcut.absEnd_le
    refine ⟨_, hcut.slice, Or.inl ⟨hcut.region, ?_, ?_⟩, fun item' hitem' => ⟨hcut.region, ?_⟩⟩
    · have hleads := (h.starts _ hmem).leadsTo (h.starts _ hmem') (by omega)
      rwa [hend] at hleads
    · have hpad : PAD = 8 := rfl
      have := hcut.stop_eq
      omega
    · rw [hitems, List.getElem?_map, hs'] at hitem'
      cases hitem'
      exact hend
  · have hbase : s.item.baseByte ≤ c.body.length := by
      obtain ⟨_, hslice⟩ := htiled.slice (fun _ => rfl) (List.mem_of_getElem? hs)
      exact hslice.base_le.trans hslice.stop_le
    refine ⟨_, hlast.slice hbase, Or.inr ⟨hlast.region, rfl, ?_⟩, fun item' hitem' => ?_⟩
    · rw [hlast.hint_eq]
      exact h.bits_lt
    · rw [hitems, List.getElem?_map, hnone] at hitem'
      cases hitem'

/-! ## The members behind a block -/

section Behind

variable {body own : List UInt8} {pos stop : ℕ} {members : List (List Token × Trailer)}
  {outs : List (List UInt8 × Trailer)}

/-- The members behind a block of the body are those behind its next block. -/
theorem BodyParse.nextBlock (hbody : BodyParse body pos members)
    (hexpands : Expands own members outs)
    (hnext : NextBlock body pos stop) : ∃ own' members' outs',
      BodyParse body stop members' ∧ Expands own' members' outs' := by
  cases hexpands with
  | nil => exact absurd rfl hbody.ne_nil
  | @cons _ out ts trailer members outs hexpand hrest =>
  obtain ⟨rest, hstream, htrailer, hfollows⟩ := bodyParse_cons_iff.mp hbody
  cases hnext with
  | block hblock =>
    cases hstream with
    | final hblock' => cases (hblock.unique hblock').1
    | more hblock' _ htail =>
      obtain ⟨-, rfl, rfl⟩ := hblock.unique hblock'
      obtain ⟨out₁, out₂, rfl, -, hsecond⟩ := expand_parts hexpand
      have hmid := eq_drop_of_suffix (hblock.frame.choose_spec.1 ▸ List.suffix_append _ _)
      refine ⟨own ++ out₁, _, _, bodyParse_cons_iff.mpr ⟨rest, ?_, htrailer, hfollows⟩,
        .cons hsecond hrest⟩
      rw [← hmid]
      exact htail
  | member hblock htrailer' hnext =>
    cases hstream with
    | final hblock' =>
      obtain ⟨-, -, rfl⟩ := hblock.unique hblock'
      rw [htrailer] at htrailer'
      cases htrailer'
      rcases hfollows with ⟨-, hnone⟩ | ⟨_, hsome, hbody'⟩
      · rw [hnext] at hnone
        cases hnone
      · rw [hnext] at hsome
        cases hsome
        exact ⟨[], members, outs, hbody', hrest⟩
    | more hblock' _ _ => cases (hblock.unique hblock').1

/-- Behind every block of a body there are members. -/
theorem BlockStart.exists_members (hbody : BodyParse body 0 members)
    (hexpands : Expands [] members outs) (h : BlockStart body pos) : ∃ own members' outs',
      BodyParse body pos members' ∧ Expands own members' outs' := by
  induction h with
  | refl => exact ⟨[], members, outs, hbody, hexpands⟩
  | tail _ hnext ih =>
    obtain ⟨own, members', outs', hbody', hexpands'⟩ := ih
    exact BodyParse.nextBlock hbody' hexpands' hnext

/-- A chunk of the next bytes resolves to them, and the next tail is the end of them. -/
theorem Advances.resolves {history more own' : List UInt8} {outs' : List (List UInt8 × Trailer)}
    {r : ChunkEnd} (h : Advances body (lastWindow history) own [] outs r more own' outs')
    (hnear : NearMarkers 0 r.cells) :
    resolveMarkers (chunkOf r.cells) (lastWindow history) = .ok ⟨more, []⟩ ∧
      buildPrevTailFast (chunkOf r.cells) (lastWindow history) = lastWindow (history ++ more) := by
  have hbytes := h.bytes_eq
  rw [List.nil_append] at hbytes
  have hresolve : resolveMarkers (chunkOf r.cells) (lastWindow history) = .ok ⟨more, []⟩ := by
    rcases resolveMarkers_chunkOf (lastWindow history) hnear with ⟨bytes, hsome, hok⟩ | ⟨hnone, -⟩
    · rw [hbytes] at hsome
      rwa [List.map_injective_iff.mpr (Option.some_injective _) hsome]
    · rw [hbytes] at hnone
      simp at hnone
  have hordered := ordered_chunkOf hnear
  exact ⟨hresolve, buildPrevTailFast_eq hordered
    (Mmap.resolveMarkers_of_lastWindow hordered hresolve)⟩

end Behind

/-! ## The chain -/

/-- The chunks of the chain have less than 4 GiB each. -/
def ShortChunks (c : Config) : Prop :=
  ∀ rs, Chain c.items rs → ∀ r ∈ rs, r.chunk.bytes.length < 2 ^ 32

/-- Where a chain stands in a body: the chunks resolve, and the members that they complete and
those that are left are the members of the body. -/
structure Along (c : Config) (outs : List (List UInt8 × Trailer)) (rs ds : List DecodeResult) :
    Prop where
  resolves : Resolves rs ds
  tail_eq : tailChain (rs.map DecodeResult.chunk) = lastWindow (sentBytes ds).flatten
  cuttable : ∀ d ∈ ds, Cuttable d
  left : ∃ outs', outs = (cutAll ds).1 ++ completed (cutAll ds).2 outs' ∧
    (Unfinished rs → ∀ item, c.items[rs.length]? = some item → ∃ members,
      BodyParse c.body item.start members ∧ Expands (cutAll ds).2 members outs') ∧
    (¬Unfinished rs → outs' = [] ∧ (cutAll ds).2 = [])

section Along

variable {c : Config} {rs ds : List DecodeResult} {r : DecodeResult} {e : Error}
  {members : List (List Token × Trailer)} {outs : List (List UInt8 × Trailer)}

/-- The next item of an unfinished chain is decoded, and goes on with the members. -/
theorem Along.exists_itemRun (h : AtBlocks c) (halong : Along c outs rs ds) (hopen : Unfinished rs)
    {item : Item} (hitem : c.items[rs.length]? = some item) :
    ∃ outs', outs = (cutAll ds).1 ++ completed (cutAll ds).2 outs' ∧ ∃ r more own' outs'',
      ItemRun 48 item item.startBit [] r ∧
      Advances c.body (lastWindow (sentBytes ds).flatten) (cutAll ds).2 []
        outs' r more own' outs'' ∧
      (r.finalBlock = false → ∀ item', c.items[rs.length + 1]? = some item' →
        r.endBit = item'.start) := by
  obtain ⟨outs', houts, hopen', -⟩ := halong.left
  obtain ⟨members', hparse, hexpands⟩ := hopen' hopen item hitem
  obtain ⟨stop, hslice, hfits, hnext⟩ := h.fits hitem
  obtain ⟨r, more, own', outs'', hrun, hadvances, -, hend⟩ :=
    Streaming.exists_itemRun hslice hparse hexpands ⟨_, cutAll_flatten halong.cuttable⟩ rfl
      (show [].map (resolveCell _) = [].map some from rfl) hfits
  exact ⟨outs', houts, r, more, own', outs'', hrun, hadvances, fun hfinal item' hitem' =>
    (hend hfinal).trans (hnext item' hitem').2.symm⟩

/-- On a valid body the chain is made of the body's members. -/
theorem Chain.along (h : AtBlocks c) (hbody : BodyParse c.body 0 members)
    (hexpands : Expands [] members outs) (hchain : Chain c.items rs)
    (hshort : ∀ r ∈ rs, r.chunk.bytes.length < 2 ^ 32) : ∃ ds, Along c outs rs ds := by
  induction hchain with
  | nil =>
    refine ⟨[], .nil, Mmap.lastWindow_nil.symm, by simp, outs, (Mmap.completed_nil outs).symm,
      fun _ item hitem => ?_, fun hfinal => absurd (by simp [Unfinished]) hfinal⟩
    have hstart : item.start = 0 := by
      obtain ⟨k, sent, hdispatched⟩ := h.dispatched
      rw [Config.items_eq hdispatched, List.getElem?_map] at hitem
      obtain ⟨s, hs, rfl⟩ := Option.map_eq_some_iff.mp hitem
      rw [List.length_nil] at hs
      have htiled := (Config.tiled h.answers h.reads hdispatched).2
      rw [Item.start]
      cases htiled with
      | last hlast =>
        cases hs
        have := hlast.start_eq
        omega
      | cut hcut _ =>
        cases hs
        have := hcut.start_eq
        omega
    rw [hstart]
    exact ⟨members, hbody, hexpands⟩
  | @snoc rs item r hchain hopen hitem hwork ih =>
    rw [List.forall_mem_append] at hshort
    obtain ⟨ds, halong⟩ := ih hshort.1
    obtain ⟨outs', houts, r₀, more, own', outs'', hrun₀, hadvances, hend⟩ :=
      halong.exists_itemRun h hopen hitem
    obtain ⟨r', hrun, rfl⟩ := hwork.itemRun
    obtain rfl : r₀ = r' := hrun₀.unique hrun
    have hbytes := hadvances.bytes_eq
    obtain ⟨segments, hcut, hcompleted⟩ := hadvances.completes
    rw [List.nil_append] at hbytes hcut
    rw [List.length_nil] at hcut
    have hlength : r₀.cells.length = more.length := by
      simpa using congrArg List.length hbytes
    have hnear : NearMarkers 0 r₀.cells := by
      have hlt := hshort.2 (decodedTo item r₀) List.mem_cons_self
      simp only [decodedTo, chunkOf, List.length_map] at hlt
      exact nearMarkers_of_length (by omega)
    obtain ⟨hresolve, htail⟩ := Advances.resolves hadvances hnear
    have hresolve' : resolveMarkers (jobAt rs (decodedTo item r₀)).chunk
        (jobAt rs (decodedTo item r₀)).prevTail = .ok ⟨more, []⟩ := by
      simp only [jobAt, decodedTo, halong.tail_eq]
      exact hresolve
    obtain ⟨d, hjob, hchunk, hboundaries⟩ : ∃ d, resolveJob (jobAt rs (decodedTo item r₀)) = .ok d ∧
        d.chunk = ⟨more, []⟩ ∧ d.memberBoundaries = r₀.members.map Prod.snd := by
      unfold resolveJob
      rw [hresolve']
      exact ⟨_, rfl, rfl, rfl⟩
    have hdbytes : d.chunk.bytes = more := by rw [hchunk]
    refine ⟨ds ++ [d], .snoc halong.resolves hjob, ?_, ?_, outs'', ?_,
      fun hopen' item' hitem' => ?_,
      fun hfinal => ?_⟩
    · rw [List.map_append, List.map_singleton, tailChain_snoc, halong.tail_eq, sentBytes_snoc,
        List.flatten_append, List.flatten_singleton, hdbytes]
      exact htail
    · refine List.forall_mem_append.mpr ⟨halong.cuttable, fun d' hd' => ?_⟩
      rw [List.mem_singleton.mp hd', Cuttable, hdbytes, hboundaries, ← hlength]
      exact hrun.offsets
    · rw [cutAll_snoc, hdbytes, hboundaries, hcut, houts, hcompleted, List.append_assoc]
    · rw [unfinished_snoc hopen] at hopen'
      obtain ⟨members'', hparse', hexpands'⟩ := hadvances.goes_on hopen'
      rw [List.length_append, List.length_singleton] at hitem'
      rw [hend hopen' item' hitem'] at hparse'
      rw [cutAll_snoc, hdbytes, hboundaries, hcut]
      exact ⟨members'', hparse', hexpands'⟩
    · rw [unfinished_snoc hopen, Bool.not_eq_false] at hfinal
      obtain ⟨rfl, rfl⟩ := hadvances.ends hfinal
      rw [cutAll_snoc, hdbytes, hboundaries, hcut]
      exact ⟨rfl, rfl⟩

/-- On a body whose members can be decoded the only cause for an error is a check. -/
theorem Fails.exists_check (h : AtBlocks c) (hbody : BodyParse c.body 0 members)
    (hexpands : Expands [] members outs) (hshort : ShortChunks c) (hfails : Fails c e) :
    ∃ rs ds, Along c outs rs ds ∧ checkAll c.crc ds = .error e := by
  cases hfails with
  | @decode item _ hitem hwork =>
    obtain ⟨i, hi, hget⟩ := List.getElem_of_mem hitem
    have hitem' : c.items[i]? = some item := by rw [List.getElem?_eq_getElem hi, hget]
    obtain ⟨stop, hslice, hfits, -⟩ := h.fits hitem'
    obtain ⟨own, members', outs', hparse, hexpands'⟩ :=
      BlockStart.exists_members hbody hexpands (h.starts item hitem)
    obtain ⟨r, _, _, _, hrun, -⟩ := Streaming.exists_itemRun hslice hparse hexpands'
      List.suffix_rfl rfl (show [].map (resolveCell _) = [].map some from rfl) hfits
    cases hwork.of_itemRun hrun
  | @resolve rs r _ hchain hjob =>
    obtain ⟨ds, halong⟩ := hchain.along h hbody hexpands (hshort _ hchain)
    obtain ⟨_, d, -, -, hok⟩ := resolves_snoc_iff.mp halong.resolves
    rw [hjob] at hok
    cases hok
  | @check rs ds _ hchain hresolves hcheck =>
    obtain ⟨ds', halong⟩ := hchain.along h hbody hexpands (hshort _ hchain)
    obtain rfl := hresolves.unique halong.resolves
    exact ⟨rs, ds, halong, hcheck⟩

/-- Members with less than 4 GiB of output together have no longer chunks. -/
theorem shortChunks_of_expands (h : AtBlocks c) (hbody : BodyParse c.body 0 members)
    (hexpands : Expands [] members outs) (hos : (outs.map Prod.fst).flatten.length < 2 ^ 32) :
    ShortChunks c := by
  intro rs hchain
  induction hchain with
  | nil => simp
  | @snoc rs item r hchain hopen hitem hwork ih =>
    rw [List.forall_mem_append]
    refine ⟨ih, fun r' hr' => ?_⟩
    rw [List.mem_singleton.mp hr']
    obtain ⟨ds, halong⟩ := hchain.along h hbody hexpands ih
    obtain ⟨outs', houts, r₀, more, own', outs'', hrun₀, hadvances, -⟩ :=
      halong.exists_itemRun h hopen hitem
    obtain ⟨r'', hrun, rfl⟩ := hwork.itemRun
    obtain rfl : r₀ = r'' := hrun₀.unique hrun
    have hlength : r₀.cells.length = more.length := by
      simpa using congrArg List.length hadvances.bytes_eq
    have hmore := hadvances.length_le (hlength ▸ hrun.offsets)
    rw [houts, List.map_append, List.flatten_append, List.length_append] at hos
    simp only [decodedTo, chunkOf, List.length_map]
    omega

end Along

end Streaming

end Pipeline

end RustyRapidgzip
