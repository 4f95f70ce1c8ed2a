import RustyRapidgzip.Pipeline.ItemRun
import RustyRapidgzip.Pipeline.StreamCourse

/-!
# Chains of items

The decoded items, one after the other, form a chain. The tail of the chain resolves the next
chunk, and the boundaries of the resolved chunks cut them into members. There is at most one
chain of each length, so whatever the threads do with their items is about the same one.
-/

namespace RustyRapidgzip

open LsbBits Reference Lz Crc

namespace Pipeline

namespace Streaming

/-- The items that the dispatcher sends when nothing stops it. -/
def Config.items (c : Config) : List Item :=
  match c.dispatched with
  | .ok (_, sent) => sent.map Sent.item
  | .error _ => []

/-- No worker runs off the vector of its item. -/
def Config.ItemsFit (c : Config) : Prop := ∀ item ∈ c.items, item.Fits c.build

/-- No chunk is the last one of the stream. -/
def Unfinished (rs : List DecodeResult) : Prop := ∀ r ∈ rs, r.finalBlock = false

/-- The items of a list, decoded in order. -/
inductive Chain (items : List Item) : List DecodeResult → Prop
  | nil : Chain items []
  | snoc {rs : List DecodeResult} {item : Item} {r : DecodeResult} (hchain : Chain items rs)
      (hopen : Unfinished rs) (hitem : items[rs.length]? = some item)
      (hwork : Unbounded.Work item (.ok r)) : Chain items (rs ++ [r])

/-- The job for the chunk after these. -/
def jobAt (before : List DecodeResult) (r : DecodeResult) : ResolveJob :=
  ⟨before.length, r.chunk, tailChain (before.map DecodeResult.chunk), r.finalBlock,
    r.memberBoundaries⟩

/-- What the chunks of a chain resolve to. -/
inductive Resolves : List DecodeResult → List DecodeResult → Prop
  | nil : Resolves [] []
  | snoc {rs ds : List DecodeResult} {r d : DecodeResult} (hresolves : Resolves rs ds)
      (hjob : resolveJob (jobAt rs r) = .ok d) : Resolves (rs ++ [r]) (ds ++ [d])

/-- Check the members of chunks, in order. -/
def checkAll (crc : Checksum) (ds : List DecodeResult) : Except Error CurMember :=
  ds.foldlM (fun m d => checkPieces crc d.chunk.bytes 0 d.memberBoundaries m) ⟨[], 0⟩

/-- The bytes that are sent for resolved chunks. -/
def sentBytes (ds : List DecodeResult) : List (List UInt8) := ds.map fun d => d.chunk.bytes

/-- The members that end in a sequence of chunks, and the bytes of the one that goes on. -/
def cutAll (ds : List DecodeResult) : List (List UInt8 × Trailer) × List UInt8 :=
  ds.foldl (fun s d =>
    let r := cut s.2 d.chunk.bytes 0 d.memberBoundaries
    (s.1 ++ r.1, r.2)) ([], [])

/-- What an error of the threads behind the dispatcher comes from: decoding an item, resolving a
chunk of the chain, or the checks of a member. -/
inductive Fails (c : Config) : Error → Prop
  | decode {item : Item} {e : Error} (hitem : item ∈ c.items)
      (hwork : Unbounded.Work item (.error e)) :
      Fails c e
  | resolve {rs : List DecodeResult} {r : DecodeResult} {e : Error}
      (hchain : Chain c.items (rs ++ [r])) (hjob : resolveJob (jobAt rs r) = .error e) : Fails c e
  | check {rs ds : List DecodeResult} {e : Error} (hchain : Chain c.items rs)
      (hresolves : Resolves rs ds) (hcheck : checkAll c.crc ds = .error e) : Fails c e

section Chains

variable {items : List Item} {rs rs' ds ds' : List DecodeResult} {r d : DecodeResult}

/-- The members go on behind a chunk that is not the last one. -/
theorem unfinished_snoc (hopen : Unfinished rs) :
    Unfinished (rs ++ [r]) ↔ r.finalBlock = false := by
  constructor
  · exact fun h => h r (by simp)
  · intro h r' hr'
    rcases List.mem_append.mp hr' with hr' | hr'
    · exact hopen r' hr'
    · rwa [List.mem_singleton.mp hr']

/-- A chain has no more chunks than items. -/
theorem Chain.length_le (h : Chain items rs) : rs.length ≤ items.length := by
  cases h with
  | nil => exact Nat.zero_le _
  | snoc _ _ hitem _ =>
    have := (List.getElem?_eq_some_iff.mp hitem).1
    rw [List.length_append, List.length_singleton]
    omega

/-- The last chunk of a chain. -/
theorem chain_snoc_iff : Chain items (rs ++ [r]) ↔ Chain items rs ∧ Unfinished rs ∧
    ∃ item, items[rs.length]? = some item ∧ Unbounded.Work item (.ok r) := by
  constructor
  · intro h
    generalize hall : rs ++ [r] = all at h
    cases h with
    | nil => simp at hall
    | snoc hchain hopen hitem hwork =>
      obtain ⟨rfl, hr⟩ := List.append_inj' hall rfl
      cases hr
      exact ⟨hchain, hopen, _, hitem, hwork⟩
  · rintro ⟨hchain, hopen, _, hitem, hwork⟩
    exact .snoc hchain hopen hitem hwork

/-- A shorter chain is the beginning of a longer one. -/
theorem Chain.prefix_of_le (h : Chain items rs) (h' : Chain items rs')
    (hle : rs.length ≤ rs'.length) : rs <+: rs' := by
  induction h' generalizing rs with
  | nil => rw [List.length_eq_zero_iff.mp (Nat.le_zero.mp hle)]
  | @snoc rs' item r' hchain' hopen' hitem' hwork' ih =>
    rw [List.length_append, List.length_singleton] at hle
    rcases Nat.lt_or_ge rs'.length rs.length with hlt | hge
    · cases h with
      | nil => exact absurd hlt (Nat.not_lt_zero _)
      | @snoc rs item r hchain hopen hitem hwork =>
        rw [List.length_append, List.length_singleton] at hle hlt
        have hlength : rs.length = rs'.length := by omega
        obtain rfl : rs = rs' := (ih hchain hlength.le).eq_of_length hlength
        rw [hitem] at hitem'
        cases hitem'
        rw [hwork.unique hwork']
    · exact (ih h hge).trans (List.prefix_append _ _)

/-- There is one chain of each length. -/
theorem Chain.unique (h : Chain items rs) (h' : Chain items rs')
    (hlength : rs.length = rs'.length) :
    rs = rs' :=
  (h.prefix_of_le h' hlength.le).eq_of_length hlength

/-- Only the last item is the final region. -/
theorem Tiled.last_region {body : List UInt8} {id start : ℕ} {sent : List Sent}
    (h : Tiled body id start sent) {i : ℕ} {s : Sent} (hs : sent[i]? = some s)
    (hregion : s.item.isFinalRegion = true) : i + 1 = sent.length := by
  induction h generalizing i with
  | last _ =>
    have hlt := (List.getElem?_eq_some_iff.mp hs).1
    rw [List.length_singleton] at hlt ⊢
    omega
  | cut hcut _ ih =>
    cases i with
    | zero =>
      rw [List.getElem?_cons_zero] at hs
      cases hs
      rw [hcut.region] at hregion
      cases hregion
    | succ i =>
      rw [List.getElem?_cons_succ] at hs
      rw [List.length_cons, ih hs]

/-- Only the final region ends the stream. -/
theorem ItemRun.isFinalRegion {room pos : ℕ} {item : Item} {cells : List ℕ} {e : ChunkEnd}
    (h : ItemRun room item pos cells e) (hfinal : e.finalBlock = true) :
    item.isFinalRegion = true := by
  induction h with
  | full _ => cases hfinal
  | part _ _ _ => cases hfinal
  | last _ _ _ _ _ => exact hfinal
  | next _ _ _ _ _ _ ih => exact ih hfinal

/-- The last chunk of the stream is that of the last item. -/
theorem Chain.length_of_final {c : Config} (hfind : Answers c.find) (hreads : ∀ r ∈ c.reads, r ≠ [])
    (h : Chain c.items (rs ++ [r])) (hfinal : r.finalBlock = true) :
    (rs ++ [r]).length = c.items.length := by
  obtain ⟨-, -, item, hitem, hwork⟩ := chain_snoc_iff.mp h
  obtain ⟨r', hrun, rfl⟩ := hwork.itemRun
  unfold Config.items at hitem ⊢
  cases hdispatched : c.dispatched with
  | error e =>
    rw [hdispatched] at hitem
    cases hitem
  | ok res =>
    obtain ⟨k, sent⟩ := res
    rw [hdispatched, List.getElem?_map] at hitem
    obtain ⟨s, hs, rfl⟩ := Option.map_eq_some_iff.mp hitem
    have hlast := (Config.tiled hfind hreads hdispatched).2.last_region hs
      (hrun.isFinalRegion hfinal)
    simp only [List.length_append, List.length_singleton, List.length_map]
    exact hlast

/-- There are as many resolved chunks as chunks. -/
theorem Resolves.length_eq (h : Resolves rs ds) : ds.length = rs.length := by
  induction h with
  | nil => rfl
  | snoc _ _ ih => rw [List.length_append, List.length_append, ih]; rfl

/-- The last chunk is resolved with the tail of those before it. -/
theorem resolves_snoc_iff : Resolves (rs ++ [r]) ds ↔
    ∃ ds' d, ds = ds' ++ [d] ∧ Resolves rs ds' ∧ resolveJob (jobAt rs r) = .ok d := by
  constructor
  · intro h
    generalize hall : rs ++ [r] = all at h
    cases h with
    | nil => simp at hall
    | snoc hresolves hjob =>
      obtain ⟨rfl, hr⟩ := List.append_inj' hall rfl
      cases hr
      exact ⟨_, _, rfl, hresolves, hjob⟩
  · rintro ⟨ds', d, rfl, hresolves, hjob⟩
    exact .snoc hresolves hjob

/-- The chunks determine what they are resolved to. -/
theorem Resolves.unique (h : Resolves rs ds) (h' : Resolves rs ds') : ds = ds' := by
  induction h generalizing ds' with
  | nil => exact (List.length_eq_zero_iff.mp h'.length_eq).symm
  | snoc _ hjob ih =>
    obtain ⟨ds'', d', rfl, hresolves', hjob'⟩ := resolves_snoc_iff.mp h'
    rw [hjob] at hjob'
    cases hjob'
    rw [ih hresolves']

/-- The last chunk is checked behind the others. -/
theorem checkAll_snoc {crc : Checksum} : checkAll crc (ds ++ [d]) =
    checkAll crc ds >>= checkPieces crc d.chunk.bytes 0 d.memberBoundaries := by
  rw [checkAll, List.foldlM_append, checkAll]
  simp only [List.foldlM_cons, List.foldlM_nil, bind_pure]

/-- The last chunk is sent behind the others. -/
theorem sentBytes_snoc : sentBytes (ds ++ [d]) = sentBytes ds ++ [d.chunk.bytes] := by
  rw [sentBytes, sentBytes, List.map_append, List.map_singleton]

/-- The last chunk is cut behind the others. -/
theorem cutAll_snoc : cutAll (ds ++ [d]) =
    ((cutAll ds).1 ++ (cut (cutAll ds).2 d.chunk.bytes 0 d.memberBoundaries).1,
      (cut (cutAll ds).2 d.chunk.bytes 0 d.memberBoundaries).2) := by
  rw [cutAll, List.foldl_append]
  rfl

/-- A resolved chunk keeps what its job says about it, and its length. -/
theorem resolveJob_ok {job : ResolveJob} (h : resolveJob job = .ok d) :
    d.finalBlock = job.finalBlock ∧ d.memberBoundaries = job.memberBoundaries ∧
      d.chunk.bytes.length = job.chunk.bytes.length := by
  unfold resolveJob resolveMarkers at h
  cases hfill : fillMarkers job.prevTail job.chunk.markers job.chunk.bytes with
  | error e =>
    rw [hfill] at h
    cases h
  | ok bytes =>
    rw [hfill] at h
    cases h
    refine ⟨rfl, rfl, ?_⟩
    rw [(fillMarkers_eq_ok_iff.mp hfill).2]
    exact applyMarkers_length _ _ _

end Chains

/-! ## The members of a chain -/

/-- The boundaries of a chunk stand in order inside its bytes. -/
def Cuttable (d : DecodeResult) : Prop := Offsets d.chunk.bytes.length 0 d.memberBoundaries

section Members

variable {items : List Item} {rs ds : List DecodeResult} {r d : DecodeResult} {crc : Checksum}

/-- Checking the pieces of a chunk is checking the members that it completes. -/
theorem checkPieces_eq {bytes : List UInt8} {cursor k : ℕ} {boundaries : List MemberBoundary}
    (own : List UInt8) : checkPieces crc bytes cursor boundaries ⟨own, k⟩ =
      checkMembers crc 0 k (cut own bytes cursor boundaries).1 >>= fun _ =>
        .ok ⟨(cut own bytes cursor boundaries).2, k + boundaries.length⟩ := by
  induction boundaries generalizing own cursor k with
  | nil => rfl
  | cons mb boundaries ih =>
    simp only [checkPieces, cut, checkMembers, List.length_cons, Nat.zero_add, bind_assoc]
    cases validateMember mb.crcExpected mb.isizeExpected
      (crc.hash (own ++ (bytes.drop cursor).take (mb.byteOffsetInChunk - cursor)))
      (own ++ (bytes.drop cursor).take (mb.byteOffsetInChunk - cursor)).length k
      mb.trailerInputByte with
    | error e => rfl
    | ok u =>
      have hrest := @ih mb.byteOffsetInChunk (k + 1) []
      rw [show k + (boundaries.length + 1) = k + 1 + boundaries.length by omega]
      exact hrest

/-- Checking the chunks is checking the members that they complete. -/
theorem checkAll_eq (ds : List DecodeResult) : checkAll crc ds =
    checkMembers crc 0 0 (cutAll ds).1 >>= fun _ =>
      .ok ⟨(cutAll ds).2, (cutAll ds).1.length⟩ := by
  induction ds using List.reverseRecOn with
  | nil => rfl
  | append_singleton ds d ih =>
    rw [checkAll_snoc, cutAll_snoc, checkMembers_append, List.length_append, Mmap.cut_length, ih]
    simp only [bind_assoc]
    cases checkMembers crc 0 0 (cutAll ds).1 with
    | error e => rfl
    | ok u =>
      rw [Nat.zero_add]
      exact checkPieces_eq (cutAll ds).2

/-- The chunks pass the checks exactly if the members that they complete do. -/
theorem checkAll_iff {m : CurMember} : checkAll crc ds = .ok m ↔
    (∀ seg ∈ (cutAll ds).1, Passes crc seg) ∧ m = ⟨(cutAll ds).2, (cutAll ds).1.length⟩ := by
  rw [checkAll_eq, ← @checkMembers_ok_iff crc 0 0]
  cases checkMembers crc 0 0 (cutAll ds).1 with
  | error e => simp [bind, Except.bind]
  | ok u => simp [bind, Except.bind, eq_comm]

/-- The chunks fail the checks with the error of the members that they complete. -/
theorem checkAll_error {e : Error} (h : checkAll crc ds = .error e) :
    checkMembers crc 0 0 (cutAll ds).1 = .error e := by
  rw [checkAll_eq] at h
  cases hcheck : checkMembers crc 0 0 (cutAll ds).1 with
  | error e' =>
    rw [hcheck] at h
    cases h
    rfl
  | ok u =>
    rw [hcheck] at h
    cases h

/-- Cutting a sequence of chunks loses no byte. -/
theorem cutAll_flatten (h : ∀ d ∈ ds, Cuttable d) :
    ((cutAll ds).1.map Prod.fst).flatten ++ (cutAll ds).2 = (sentBytes ds).flatten := by
  induction ds using List.reverseRecOn with
  | nil => rfl
  | append_singleton ds d ih =>
    have hds := ih fun d hd => h d (List.mem_append_left _ hd)
    have hcut := cut_flatten (cutAll ds).2 (h d (by simp))
    rw [cutAll_snoc, List.map_append, List.flatten_append, List.append_assoc, hcut,
      ← List.append_assoc, hds, List.drop_zero, sentBytes_snoc, List.flatten_append]
    simp

/-- The chunks of a chain are results of its items. -/
theorem Chain.exists_work (h : Chain items rs) (hr : r ∈ rs) :
    ∃ item ∈ items, Unbounded.Work item (.ok r) := by
  induction h with
  | nil => cases hr
  | snoc _ _ hitem hwork ih =>
    rcases List.mem_append.mp hr with hr | hr
    · exact ih hr
    · rw [List.mem_singleton.mp hr]
      exact ⟨_, List.mem_of_getElem? hitem, hwork⟩

/-- The boundaries of the chunks of a chain stand in order. -/
theorem Resolves.cuttable (hresolves : Resolves rs ds)
    (h : ∀ r ∈ rs, ∃ item, Unbounded.Work item (.ok r)) : ∀ d ∈ ds, Cuttable d := by
  induction hresolves with
  | nil => simp
  | @snoc rs ds r d hresolves hjob ih =>
    rw [List.forall_mem_append] at h ⊢
    refine ⟨ih h.1, fun d' hd' => ?_⟩
    obtain ⟨item, hwork⟩ := h.2 r List.mem_cons_self
    obtain ⟨r', hrun, rfl⟩ := hwork.itemRun
    obtain ⟨-, hboundaries, hlength⟩ := resolveJob_ok hjob
    rw [List.mem_singleton.mp hd', Cuttable, hboundaries, hlength]
    simp only [jobAt, decodedTo, chunkOf, List.length_map]
    exact hrun.offsets

end Members

end Streaming

end Pipeline

end RustyRapidgzip
