import RustyRapidgzip.Deflate.Frame
import RustyRapidgzip.Pipeline.Chunk

/-!
# Chunks of a body

A body is a sequence of members, each a stream of blocks and a trailer. A chunk that is
decoded from a true block boundary holds a part of that sequence, and what remains of the
body starts where the chunk ends. If no copy reaches before its own member, the bytes of
the chunk are the next bytes of the body's output, and the next tail is the end of them.
-/

namespace RustyRapidgzip

open LsbBits Reference Lz

namespace Pipeline

/-- A body from a bit position on: the tokens and trailers of its members. -/
inductive BodyParse (body : List UInt8) : ℕ → List (List Token × Trailer) → Prop
  | last {pos : ℕ} {ts : List Token} {rest : List Bool} {trailer : Trailer}
      (hstream : Stream 0 ((bits body).drop pos) ts rest)
      (htrailer : trailerAt body (8 * body.length - rest.length) = .ok trailer)
      (hnext : nextMember body trailer = .ok none) : BodyParse body pos [(ts, trailer)]
  | next {pos start : ℕ} {ts : List Token} {rest : List Bool} {trailer : Trailer}
      {members : List (List Token × Trailer)}
      (hstream : Stream 0 ((bits body).drop pos) ts rest)
      (htrailer : trailerAt body (8 * body.length - rest.length) = .ok trailer)
      (hnext : nextMember body trailer = .ok (some start))
      (hrest : BodyParse body start members) : BodyParse body pos ((ts, trailer) :: members)

/-- The members expand: the first one after the bytes of it that are known already, the
others after nothing. -/
inductive Expands : List UInt8 → List (List Token × Trailer) → List (List UInt8 × Trailer) → Prop
  | nil {own : List UInt8} : Expands own [] []
  | cons {own out : List UInt8} {ts : List Token} {trailer : Trailer}
      {members : List (List Token × Trailer)} {outs : List (List UInt8 × Trailer)}
      (hexpand : expand id own ts = some (own ++ out)) (hrest : Expands [] members outs) :
      Expands own ((ts, trailer) :: members) ((out, trailer) :: outs)

/-- The whole outputs of the members, of which the first one is known in part. -/
def completed (own : List UInt8) : List (List UInt8 × Trailer) → List (List UInt8 × Trailer)
  | [] => []
  | (out, trailer) :: outs => (own ++ out, trailer) :: outs

/-- Cut the bytes of a chunk at its boundaries, starting at `cursor`: the members that end
in it, the first one with the bytes known before, and the bytes of the one that goes on. -/
def cut (own bytes : List UInt8) (cursor : ℕ) :
    List MemberBoundary → List (List UInt8 × Trailer) × List UInt8
  | [] => ([], own ++ bytes.drop cursor)
  | mb :: boundaries =>
    let r := cut [] bytes mb.byteOffsetInChunk boundaries
    ((own ++ (bytes.drop cursor).take (mb.byteOffsetInChunk - cursor), mb.toTrailer) :: r.1, r.2)

section Parse

variable {body : List UInt8} {pos endBitHint room : ℕ} {ts : List Token} {rest mid : List Bool}
  {trailer : Trailer} {members : List (List Token × Trailer)}

/-- A suffix of the stream is what follows a position. -/
theorem eq_drop_of_suffix (h : mid <:+ (bits body).drop pos) :
    mid = (bits body).drop (8 * body.length - mid.length) := by
  have h' := (List.suffix_iff_eq_drop.mp (h.trans (List.drop_suffix _ _)))
  rwa [bits_length] at h'

/-- Before a trailer there is room for every decoder. -/
theorem room_of_trailerAt (hle : rest.length ≤ 8 * body.length)
    (htrailer : trailerAt body (8 * body.length - rest.length) = .ok trailer) :
    64 ≤ rest.length := by
  have h := (trailerAt_ok htrailer).2
  omega

/-- Blocks end within the body. -/
theorem blocks_length_le {room : ℕ} {stop : List Bool → Bool} {f : Bool}
    (h : Blocks room stop ((bits body).drop pos) f ts rest) : rest.length ≤ 8 * body.length := by
  have hlt := h.length_lt
  rw [List.length_drop, bits_length] at hlt
  omega

/-- A body has a member. -/
theorem BodyParse.ne_nil (h : BodyParse body pos members) : members ≠ [] := by
  cases h <;> simp

/-- The position determines the members. -/
theorem BodyParse.unique {members' : List (List Token × Trailer)} (h : BodyParse body pos members)
    (h' : BodyParse body pos members') : members = members' := by
  induction h generalizing members' with
  | last hstream htrailer hnext =>
    cases h' with
    | last hstream' htrailer' _ =>
      obtain ⟨-, rfl, rfl⟩ := Blocks.unique hstream hstream'
      rw [htrailer] at htrailer'
      cases htrailer'
      rfl
    | next hstream' htrailer' hnext' _ =>
      obtain ⟨-, rfl, rfl⟩ := Blocks.unique hstream hstream'
      rw [htrailer] at htrailer'
      cases htrailer'
      rw [hnext] at hnext'
      cases hnext'
  | next hstream htrailer hnext _ ih =>
    cases h' with
    | last hstream' htrailer' hnext' =>
      obtain ⟨-, rfl, rfl⟩ := Blocks.unique hstream hstream'
      rw [htrailer] at htrailer'
      cases htrailer'
      rw [hnext] at hnext'
      cases hnext'
    | next hstream' htrailer' hnext' hrest' =>
      obtain ⟨-, rfl, rfl⟩ := Blocks.unique hstream hstream'
      rw [htrailer] at htrailer'
      cases htrailer'
      rw [hnext] at hnext'
      cases hnext'
      rw [ih hrest']

/-- What follows a member. -/
def Follows (body : List UInt8) (trailer : Trailer) (members : List (List Token × Trailer)) :
    Prop :=
  (members = [] ∧ nextMember body trailer = .ok none) ∨
    ∃ start, nextMember body trailer = .ok (some start) ∧ BodyParse body start members

/-- The first member, its trailer and what follows it. -/
theorem bodyParse_cons_iff : BodyParse body pos ((ts, trailer) :: members) ↔
    ∃ rest, Stream 0 ((bits body).drop pos) ts rest ∧
      trailerAt body (8 * body.length - rest.length) = .ok trailer ∧
      Follows body trailer members := by
  constructor
  · intro h
    cases h with
    | last hstream htrailer hnext => exact ⟨_, hstream, htrailer, Or.inl ⟨rfl, hnext⟩⟩
    | next hstream htrailer hnext hrest =>
      exact ⟨_, hstream, htrailer, Or.inr ⟨_, hnext, hrest⟩⟩
  · rintro ⟨rest, hstream, htrailer, ⟨rfl, hnext⟩ | ⟨start, hnext, hrest⟩⟩
    · exact .last hstream htrailer hnext
    · exact .next hstream htrailer hnext hrest

/-- The first member ends before the hint, or its first part does and the body goes on with
the rest of it. -/
theorem BodyParse.split (endBitHint : ℕ) (h : BodyParse body pos ((ts, trailer) :: members)) :
    (∃ rest, Blocks 48 (stopAt body endBitHint) ((bits body).drop pos) true ts rest ∧
      trailerAt body (8 * body.length - rest.length) = .ok trailer ∧
      Follows body trailer members) ∨
    ∃ ts₁ ts₂ mid, ts = ts₁ ++ ts₂ ∧
      Blocks 48 (stopAt body endBitHint) ((bits body).drop pos) false ts₁ mid ∧
      BodyParse body (8 * body.length - mid.length) ((ts₂, trailer) :: members) := by
  obtain ⟨rest, hstream, htrailer, hfollows⟩ := bodyParse_cons_iff.mp h
  have hroom := room_of_trailerAt (blocks_length_le hstream) htrailer
  have hstream48 := hstream.of_rest (show 48 ≤ rest.length by omega)
  rcases hstream48.split (stopAt body endBitHint) (fun _ => rfl) with
    hfinal | ⟨ts₁, mid, ts₂, hpart, htail, rfl⟩
  · exact Or.inl ⟨rest, hfinal, htrailer, hfollows⟩
  · refine Or.inr ⟨ts₁, ts₂, mid, rfl, hpart, bodyParse_cons_iff.mpr ⟨rest, ?_, htrailer, hfollows⟩⟩
    rw [← eq_drop_of_suffix hpart.suffix]
    exact htail.mono (Nat.zero_le _)

/-- Decoding a chunk is deterministic. -/
theorem ChunkRun.unique {room' : ℕ} {first : Bool} {cells : List ℕ} {r r' : ChunkEnd}
    (h : ChunkRun room body endBitHint first pos cells r)
    (h' : ChunkRun room' body endBitHint first pos cells r') : r = r' := by
  induction h generalizing r' with
  | full hpos =>
    cases h' with
    | full _ => rfl
    | part hpos' _ _ => omega
    | last hpos' _ _ _ _ => omega
    | next hpos' _ _ _ _ _ => omega
  | part hpos hblocks hadds =>
    cases h' with
    | full hpos' => omega
    | part _ hblocks' hadds' =>
      obtain ⟨-, rfl, rfl⟩ := hblocks.unique hblocks'
      rw [hadds.unique hadds']
    | last _ hblocks' _ _ _ => cases (hblocks.unique hblocks').1
    | next _ hblocks' _ _ _ _ => cases (hblocks.unique hblocks').1
  | last hpos hblocks hadds htrailer hnext =>
    cases h' with
    | full hpos' => omega
    | part _ hblocks' _ => cases (hblocks.unique hblocks').1
    | last _ hblocks' hadds' htrailer' _ =>
      obtain ⟨-, rfl, rfl⟩ := hblocks.unique hblocks'
      rw [htrailer] at htrailer'
      cases htrailer'
      rw [hadds.unique hadds']
    | next _ hblocks' _ htrailer' hnext' _ =>
      obtain ⟨-, rfl, rfl⟩ := hblocks.unique hblocks'
      rw [htrailer] at htrailer'
      cases htrailer'
      rw [hnext] at hnext'
      cases hnext'
  | next hpos hblocks hadds htrailer hnext _ ih =>
    cases h' with
    | full hpos' => omega
    | part _ hblocks' _ => cases (hblocks.unique hblocks').1
    | last _ hblocks' _ htrailer' hnext' =>
      obtain ⟨-, rfl, rfl⟩ := hblocks.unique hblocks'
      rw [htrailer] at htrailer'
      cases htrailer'
      rw [hnext] at hnext'
      cases hnext'
    | next _ hblocks' hadds' htrailer' hnext' hrun' =>
      obtain ⟨-, rfl, rfl⟩ := hblocks.unique hblocks'
      rw [htrailer] at htrailer'
      cases htrailer'
      rw [hnext] at hnext'
      cases hnext'
      obtain rfl := hadds.unique hadds'
      rw [ih hrun']

end Parse

/-! ## The bytes of a chunk -/

section Bytes

variable {body : List UInt8} {pos endBitHint : ℕ} {first : Bool} {cells : List ℕ}
  {tail own history bytes : List UInt8}

/-- Where a decoder stands in a chunk: at its first member, behind the history, or at a later
member, of which no byte is known yet. -/
def Context (first : Bool) (cells : List ℕ) (tail own bytes : List UInt8) : Prop :=
  cells.map (resolveCell tail) = bytes.map some ∧
    (first = true → cells = [] ∧ ∃ history, own <:+ history ∧ tail = lastWindow history) ∧
    (first = false → own = [])

/-- Behind a whole window every copy has a source. -/
theorem expand_of_window {α : Type} {lit : UInt8 → α} {out : List α} {ts : List Token}
    (hts : ∀ t ∈ ts, CopyBounds t) (hout : U16_WINDOW ≤ out.length) :
    ∃ res, expand lit out ts = some res :=
  expand_isSome _ (fun t ht => (hts t ht).bounded) hout

/-- Behind a window of markers every token expands. -/
theorem expand_markerPrefix {ts : List Token} (hts : ∀ t ∈ ts, CopyBounds t) :
    ∃ res, expand UInt8.toNat markerPrefix ts = some res :=
  expand_of_window hts markerPrefix_length.ge

/-- The output of a member is added to the chunk, as far as it is new. -/
theorem adds_of_expand (hctx : Context first cells tail own bytes) {ts : List Token}
    (hts : ∀ t ∈ ts, CopyBounds t) {out : List UInt8}
    (hexpand : expand id own ts = some (own ++ out)) :
    ∃ cells', Adds first cells ts cells' ∧
      cells'.map (resolveCell tail) = (bytes ++ out).map some := by
  obtain ⟨hbytes, hfirst, hlater⟩ := hctx
  cases first with
  | true =>
    obtain ⟨rfl, history, ⟨older, rfl⟩, htail⟩ := hfirst rfl
    rw [htail]
    obtain rfl : bytes = [] := by simpa using hbytes.symm
    obtain ⟨res, hres⟩ := expand_markerPrefix hts
    obtain ⟨cells', rfl⟩ := expand_extends hres
    have hbehind : expand id (older ++ own) ts = some (older ++ own ++ out) := by
      rw [List.append_assoc]
      exact expand_append_left older hexpand
    have hcells := (Speculative.expand_resolveCell _ hts hres out).mp hbehind
    exact ⟨cells', ⟨rfl, hres⟩, hcells⟩
  | false =>
    obtain rfl := hlater rfl
    have h := expand_append_left (cells.map narrow) hexpand
    rw [List.append_nil, List.nil_append] at h
    refine ⟨_, ⟨out, h, rfl⟩, ?_⟩
    rw [List.map_append, hbytes, List.map_append, List.map_map]
    congr 1
    exact List.map_congr_left fun b _ => resolveCell_toNat tail b

/-- A copy that expands in two parts. -/
theorem expand_parts {own out : List UInt8} {ts₁ ts₂ : List Token}
    (h : expand id own (ts₁ ++ ts₂) = some (own ++ out)) :
    ∃ out₁ out₂, out = out₁ ++ out₂ ∧ expand id own ts₁ = some (own ++ out₁) ∧
      expand id (own ++ out₁) ts₂ = some (own ++ out₁ ++ out₂) := by
  rw [expand_append, Option.bind_eq_some_iff] at h
  obtain ⟨mid, hmid, hres⟩ := h
  obtain ⟨out₁, rfl⟩ := expand_extends hmid
  obtain ⟨out₂, heq⟩ := expand_extends hres
  rw [List.append_assoc] at heq
  obtain rfl := List.append_cancel_left heq
  exact ⟨out₁, out₂, rfl, hmid, by rw [hres, List.append_assoc]⟩

/-- What a chunk does to the output: the members completed in it, and what remains of the
body. -/
structure Advances (body : List UInt8) (tail own bytes : List UInt8)
    (outs : List (List UInt8 × Trailer)) (r : ChunkEnd) (more own' : List UInt8)
    (outs' : List (List UInt8 × Trailer)) : Prop where
  bytes_eq : r.cells.map (resolveCell tail) = (bytes ++ more).map some
  completes : ∃ segments,
    cut own (bytes ++ more) bytes.length (r.members.map Prod.snd) = (segments, own') ∧
      completed own outs = segments ++ completed own' outs'
  goes_on : r.finalBlock = false →
    ∃ members', BodyParse body r.endBit members' ∧ Expands own' members' outs'
  ends : r.finalBlock = true → outs' = [] ∧ own' = []

/-- From a true block boundary on, a chunk is decoded and holds the next bytes. -/
theorem exists_chunkRun (endBitHint : ℕ) {members : List (List Token × Trailer)}
    {outs : List (List UInt8 × Trailer)} (hbody : BodyParse body pos members)
    (hexpands : Expands own members outs) (hctx : Context first cells tail own bytes) :
    ∃ r more own' outs', ChunkRun 48 body endBitHint first pos cells r ∧
      Advances body tail own bytes outs r more own' outs' := by
  induction members generalizing pos first cells own bytes outs with
  | nil => exact absurd rfl hbody.ne_nil
  | cons member members ih =>
    obtain ⟨ts, trailer⟩ := member
    by_cases hfull : endBitHint ≤ pos
    · refine ⟨_, [], own, outs, .full hfull, ?_⟩
      refine ⟨by simpa using hctx.1, ⟨[], ?_, rfl⟩, fun _ => ⟨_, hbody, hexpands⟩, by simp⟩
      simp [cut]
    cases hexpands with
    | @cons _ out _ _ _ outs hexpand hrest =>
    rcases hbody.split endBitHint with
      ⟨rest, hblocks, htrailer, hfollows⟩ | ⟨ts₁, ts₂, mid, rfl, hblocks, hbody'⟩
    swap
    · obtain ⟨out₁, out₂, rfl, hfirst, hsecond⟩ := expand_parts hexpand
      obtain ⟨cells', hadds, hcells⟩ := adds_of_expand hctx hblocks.bounds hfirst
      refine ⟨_, out₁, own ++ out₁, _, .part (by omega) hblocks hadds, hcells, ⟨[], ?_, ?_⟩,
        fun _ => ⟨_, hbody', .cons hsecond hrest⟩, by simp⟩
      · simp [cut]
      · simp [completed]
    obtain ⟨cells', hadds, hcells⟩ := adds_of_expand hctx hblocks.bounds hexpand
    have hlength : cells'.length = bytes.length + out.length := by
      simpa using congrArg List.length hcells
    have htake (more : List UInt8) :
        ((bytes ++ (out ++ more)).drop bytes.length).take (cells'.length - bytes.length) = out := by
      rw [List.drop_left, hlength, Nat.add_sub_cancel_left, List.take_left]
    rcases hfollows with ⟨rfl, hnext⟩ | ⟨start, hnext, hbody'⟩
    · cases hrest
      refine ⟨_, out, [], [], .last (by omega) hblocks hadds htrailer hnext, hcells,
        ⟨[(own ++ out, trailer)], ?_, ?_⟩, by simp, by simp⟩
      · have h := htake []
        rw [List.append_nil] at h
        simp only [List.map_cons, List.map_nil, cut, List.nil_append, h]
        rw [List.drop_of_length_le (by rw [List.length_append]; omega)]
      · simp [completed]
    · obtain ⟨r, more, own', outs', hrun, hadvances⟩ :=
        @ih start false cells' [] (bytes ++ out) outs
        hbody' hrest ⟨hcells, by simp, by simp⟩
      obtain ⟨segments, hcut, hcompleted⟩ := hadvances.completes
      have hbytes := hadvances.bytes_eq
      rw [List.append_assoc] at hcut hbytes
      refine ⟨_, out ++ more, own', outs', .next (by omega) hblocks hadds htrailer hnext hrun,
        hbytes, ⟨(own ++ out, trailer) :: segments, ?_, ?_⟩, hadvances.goes_on, hadvances.ends⟩
      · rw [List.length_append, ← hlength] at hcut
        simp only [List.map_cons, cut, htake, hcut]
      · have hempty : completed [] outs = outs := by
          cases outs <;> simp [completed]
        rw [hempty] at hcompleted
        simp [completed, hcompleted]

end Bytes

end Pipeline

end RustyRapidgzip
