import RustyRapidgzip.Pipeline.Integrity

/-!
# Members behind each other

A worker decodes the later members of a chunk behind the bytes of the chunk, and stage A hands the
tail of all earlier output to the first one. Where no later member copies a byte that its chunk
does not know yet, the bytes that are sent are the members of the body, each one decoded behind
the output of all those before it.
-/

namespace RustyRapidgzip

open LsbBits Reference Lz Crc Threads Transition

namespace Pipeline

/-- The members expand, each one behind the output of all those before it. -/
inductive ExpandsBehind :
    List UInt8 → List (List Token × Trailer) → List (List UInt8 × Trailer) → Prop
  | nil {history : List UInt8} : ExpandsBehind history [] []
  | cons {history out : List UInt8} {ts : List Token} {trailer : Trailer}
      {members : List (List Token × Trailer)} {outs : List (List UInt8 × Trailer)}
      (hexpand : expand id history ts = some (history ++ out))
      (hrest : ExpandsBehind (history ++ out) members outs) :
      ExpandsBehind history ((ts, trailer) :: members) ((out, trailer) :: outs)

section Own

variable {history : List UInt8} {members : List (List Token × Trailer)}
  {outs outs' : List (List UInt8 × Trailer)}

/-- Members that expand on their own expand behind any history. -/
theorem Expands.behind (history : List UInt8) (h : Expands [] members outs) :
    ExpandsBehind history members outs := by
  induction members generalizing history outs with
  | nil =>
    cases h
    exact .nil
  | cons m members ih =>
    cases h with
    | cons hexpand hrest =>
      have hbehind := expand_append_left history hexpand
      rw [List.append_nil] at hbehind
      exact .cons hbehind (ih _ hrest)

/-- Members that expand on their own expand to the same behind the others. -/
theorem Expands.eq_behind (h : Expands [] members outs) (h' : ExpandsBehind history members outs') :
    outs = outs' := by
  induction h' generalizing outs with
  | nil =>
    cases h
    rfl
  | @cons history out ts trailer members outs' hexpand hrest ih =>
    cases h with
    | @cons _ out' _ _ _ outs hexpand' hrest' =>
      have hbehind := expand_append_left history hexpand'
      rw [List.append_nil, hexpand, Option.some.injEq] at hbehind
      obtain rfl := List.append_cancel_left hbehind
      rw [ih hrest']

end Own

/-- The tokens of members. -/
def memberTokens (members : List (List Token × Trailer)) : List Token :=
  (members.map Prod.fst).flatten

/-- How many bytes tokens make. -/
def outputSize (ts : List Token) : ℕ := (ts.map Token.size).sum

/-- The members that end in a chunk. -/
def ChunkEnd.parsed (r : ChunkEnd) : List (List Token × Trailer) :=
  r.members.map fun m => (m.1, m.2.toTrailer)

/-- All tokens of a chunk. -/
def ChunkEnd.tokens (r : ChunkEnd) : List Token := memberTokens r.parsed ++ r.tail

/-- No later member of the chunk copies a byte that is not known yet: the cells are those that all
tokens of the chunk make together. -/
def ChunkEnd.Known (r : ChunkEnd) : Prop :=
  expand UInt8.toNat markerPrefix r.tokens = some (markerPrefix ++ r.cells)

/-- The boundaries stand behind the bytes of the members, of which the first starts at `base`. -/
def Marks : ℕ → List (List Token × Trailer) → List MemberBoundary → Prop
  | _, [], [] => True
  | base, (ts, trailer) :: members, mb :: boundaries =>
    mb.toTrailer = trailer ∧ mb.byteOffsetInChunk = base + outputSize ts ∧
      Marks mb.byteOffsetInChunk members boundaries
  | _, _, _ => False

/-- Tokens of a member that has begun, in front of the members that follow. -/
def resume (begun : List Token) : List (List Token × Trailer) → List (List Token × Trailer)
  | [] => []
  | (ts, trailer) :: members => (begun ++ ts, trailer) :: members

section Marks

variable {base k : ℕ} {begun ts us : List Token} {bytes : List UInt8}
  {members members' : List (List Token × Trailer)} {boundaries boundaries' : List MemberBoundary}

/-- No members have no tokens. -/
@[simp] theorem memberTokens_nil : memberTokens [] = [] := rfl

/-- The first member's tokens come first. -/
@[simp] theorem memberTokens_cons (m : List Token × Trailer) :
    memberTokens (m :: members) = m.1 ++ memberTokens members := rfl

/-- The tokens of members, one group behind the other. -/
theorem memberTokens_append :
    memberTokens (members ++ members') = memberTokens members ++ memberTokens members' := by
  rw [memberTokens, List.map_append, List.flatten_append]
  rfl

/-- Tokens make the bytes of their parts. -/
theorem outputSize_append : outputSize (ts ++ us) = outputSize ts + outputSize us := by
  rw [outputSize, List.map_append, List.sum_append]
  rfl

/-- Boundaries that stand behind their members still do behind `k` more bytes. -/
theorem Marks.shift (h : Marks base members boundaries) :
    Marks (k + base) members (shiftBoundaries k boundaries) := by
  induction members generalizing base boundaries with
  | nil =>
    cases boundaries with
    | nil => trivial
    | cons mb boundaries => cases h
  | cons m members ih =>
    cases boundaries with
    | nil => cases h
    | cons mb boundaries =>
      obtain ⟨htrailer, hoffset, hrest⟩ := h
      exact ⟨htrailer, by simp only [hoffset, Nat.add_assoc], ih hrest⟩

/-- The boundaries of members, one group behind the other. -/
theorem Marks.append (h : Marks base members boundaries)
    (h' : Marks (base + outputSize (memberTokens members)) members' boundaries') :
    Marks base (members ++ members') (boundaries ++ boundaries') := by
  induction members generalizing base boundaries with
  | nil =>
    cases boundaries with
    | nil => exact h'
    | cons mb boundaries => cases h
  | cons m members ih =>
    cases boundaries with
    | nil => cases h
    | cons mb boundaries =>
      obtain ⟨htrailer, hoffset, hrest⟩ := h
      refine ⟨htrailer, hoffset, ih hrest ?_⟩
      rwa [memberTokens_cons, outputSize_append, ← Nat.add_assoc, ← hoffset] at h'

/-- A member that has begun before its chunk ends where the chunk's boundary stands. -/
theorem Marks.resume (h : Marks 0 members boundaries) :
    Marks base (resume begun members) (shiftBoundaries (base + outputSize begun) boundaries) := by
  cases members with
  | nil =>
    cases boundaries with
    | nil => trivial
    | cons mb boundaries => cases h
  | cons m members =>
    cases boundaries with
    | nil => cases h
    | cons mb boundaries =>
      obtain ⟨htrailer, hoffset, hrest⟩ := h
      refine ⟨htrailer, ?_, hrest.shift⟩
      simp only [hoffset, outputSize_append]
      omega

/-- The bytes of tokens that expand to a part of the output. -/
theorem expand_take (hbase : base ≤ bytes.length)
    (hexpand : expand id (bytes.take base) (ts ++ us) = some bytes) :
    base + outputSize ts ≤ bytes.length ∧
      expand id (bytes.take base) ts = some (bytes.take (base + outputSize ts)) ∧
        expand id (bytes.take (base + outputSize ts)) us = some bytes := by
  rw [expand_append, Option.bind_eq_some_iff] at hexpand
  obtain ⟨mid, hts, hus⟩ := hexpand
  have hlength := expand_length hts
  have hprefix := expand_extends hus
  rw [List.length_take, Nat.min_eq_left hbase] at hlength
  obtain rfl : mid = bytes.take (base + outputSize ts) := by
    rw [List.prefix_iff_eq_take.mp hprefix, hlength]
    rfl
  exact ⟨hlength ▸ hprefix.length_le, hts, hus⟩

/-- Tokens that expand together expand member by member, and the boundaries cut the output there. -/
theorem expandsBehind_of_marks (h : Marks base members boundaries) (hbase : base ≤ bytes.length)
    (hexpand : expand id (bytes.take base) (memberTokens members) = some bytes) :
    ExpandsBehind (bytes.take base) members (cut [] bytes base boundaries).1 ∧
      (cut [] bytes base boundaries).2 = [] := by
  induction members generalizing base boundaries with
  | nil =>
    cases boundaries with
    | nil =>
      rw [memberTokens_nil, expand_nil, Option.some.injEq] at hexpand
      refine ⟨.nil, ?_⟩
      rw [cut, List.nil_append, List.drop_eq_nil_iff, ← hexpand, List.length_take]
      exact Nat.min_le_left _ _
    | cons mb boundaries => cases h
  | cons m members ih =>
    cases boundaries with
    | nil => cases h
    | cons mb boundaries =>
      obtain ⟨ts, trailer⟩ := m
      obtain ⟨rfl, hoffset, hrest⟩ := h
      rw [memberTokens_cons] at hexpand
      obtain ⟨hle, hfirst, hothers⟩ := expand_take hbase hexpand
      rw [← hoffset] at hle hfirst hothers
      have hsplit : bytes.take base ++
          (bytes.drop base).take (mb.byteOffsetInChunk - base) =
            bytes.take mb.byteOffsetInChunk := by
        rw [← List.take_add, Nat.add_sub_cancel' (by omega)]
      obtain ⟨hexpands, hnone⟩ := ih hrest hle hothers
      refine ⟨.cons ?_ ?_, hnone⟩
      · rw [List.nil_append, hsplit]
        exact hfirst
      · rwa [List.nil_append, hsplit]

end Marks

section Runs

variable {body history : List UInt8} {room endBitHint pos : ℕ} {first : Bool} {cells : List ℕ}
  {r : ChunkEnd}

/-- The copies of a chunk are copies of the format. -/
theorem ChunkRun.copyBounds (h : ChunkRun room body endBitHint first pos cells r) :
    ∀ t ∈ r.tokens, CopyBounds t := by
  induction h with
  | full _ => simp [ChunkEnd.tokens, ChunkEnd.parsed]
  | part _ hblocks _ => simpa [ChunkEnd.tokens, ChunkEnd.parsed] using hblocks.bounds
  | last _ hblocks _ _ _ => simpa [ChunkEnd.tokens, ChunkEnd.parsed] using hblocks.bounds
  | next _ hblocks _ _ _ _ ih =>
    intro t ht
    rw [ChunkEnd.tokens, ChunkEnd.parsed, List.map_cons, memberTokens_cons, List.append_assoc,
      List.mem_append] at ht
    exact ht.elim (hblocks.bounds t) (ih t)

/-- A member adds a cell for each byte that its tokens make. -/
theorem Adds.length_eq {cells' : List ℕ} {ts : List Token} (h : Adds first cells ts cells') :
    cells'.length = cells.length + outputSize ts := by
  cases first with
  | true =>
    obtain ⟨rfl, hexpand⟩ := h
    have hlength := expand_length hexpand
    rw [List.length_append] at hlength
    rw [List.length_nil, Nat.zero_add]
    exact Nat.add_left_cancel hlength
  | false =>
    obtain ⟨more, hexpand, rfl⟩ := h
    have hlength := expand_length hexpand
    rw [List.length_append, List.length_map] at hlength
    rw [List.length_append, List.length_map]
    exact hlength

/-- The boundaries of a chunk stand behind the bytes of its members. -/
theorem ChunkRun.marks (h : ChunkRun room body endBitHint first pos cells r) :
    Marks cells.length r.parsed (r.members.map Prod.snd) := by
  induction h with
  | full _ => trivial
  | part _ _ _ => trivial
  | last _ _ hadds _ _ => exact ⟨rfl, hadds.length_eq, trivial⟩
  | next _ _ hadds _ _ _ ih => exact ⟨rfl, hadds.length_eq, ih⟩

/-- A member that goes on behind the blocks of a part of it. -/
theorem bodyParse_join {ts us : List Token} {rest : List Bool} {trailer : Trailer}
    {members : List (List Token × Trailer)}
    (hblocks : Blocks room (stopAt body endBitHint) ((bits body).drop pos) false ts rest)
    (hparse : BodyParse body (8 * body.length - rest.length) ((us, trailer) :: members)) :
    BodyParse body pos ((ts ++ us, trailer) :: members) := by
  obtain ⟨rest', hstream, htrailer, hfollows⟩ := bodyParse_cons_iff.mp hparse
  rw [← eq_drop_of_suffix hblocks.suffix] at hstream
  exact bodyParse_cons_iff.mpr ⟨rest',
    Blocks.join (fun _ => rfl) (hblocks.mono (Nat.zero_le _)) rfl hstream, htrailer, hfollows⟩

/-- A member of a chunk with more members behind it. -/
theorem bodyParse_next {start : ℕ} {ts : List Token} {rest : List Bool} {trailer : Trailer}
    {members : List (List Token × Trailer)}
    (hblocks : Blocks room (stopAt body endBitHint) ((bits body).drop pos) true ts rest)
    (htrailer : trailerAt body (8 * body.length - rest.length) = .ok trailer)
    (hnext : nextMember body trailer = .ok (some start)) (hparse : BodyParse body start members) :
    BodyParse body pos ((ts, trailer) :: members) :=
  .next ((hblocks.mono (Nat.zero_le _)).stream (fun _ => false) (fun _ => rfl) rfl) htrailer hnext
    hparse

/-- A chunk that ends the body holds the members from its start on. -/
theorem ChunkRun.bodyParse_parsed (h : ChunkRun room body endBitHint first pos cells r)
    (hfinal : r.finalBlock = true) : BodyParse body pos r.parsed ∧ r.tail = [] := by
  induction h with
  | full _ => cases hfinal
  | part _ _ _ => cases hfinal
  | last _ hblocks _ htrailer hnext =>
    exact ⟨.last ((hblocks.mono (Nat.zero_le _)).stream (fun _ => false) (fun _ => rfl) rfl)
      htrailer hnext, rfl⟩
  | next _ hblocks _ htrailer hnext _ ih =>
    exact ⟨bodyParse_next hblocks htrailer hnext (ih hfinal).1, (ih hfinal).2⟩

/-- A chunk and the members behind it are the members from its start on. -/
theorem ChunkRun.bodyParse_append (h : ChunkRun room body endBitHint first pos cells r)
    (hopen : r.finalBlock = false) {us : List Token} {trailer : Trailer}
    {members : List (List Token × Trailer)}
    (hparse : BodyParse body r.endBit ((us, trailer) :: members)) :
    BodyParse body pos (r.parsed ++ (r.tail ++ us, trailer) :: members) := by
  induction h with
  | full _ => exact hparse
  | part _ hblocks _ => exact bodyParse_join hblocks hparse
  | last _ _ _ _ _ => cases hopen
  | next _ hblocks _ htrailer hnext _ ih =>
    exact bodyParse_next hblocks htrailer hnext (ih hopen hparse)

/-- Tokens that expand on their own add to a chunk what they make behind the unknown history. -/
theorem Adds.expand_markerPrefix {cells' : List ℕ} {ts : List Token}
    (h : Adds first cells ts cells') (hts : first = false → ∃ out, expand id [] ts = some out) :
    expand UInt8.toNat (markerPrefix ++ cells) ts = some (markerPrefix ++ cells') := by
  cases first with
  | true =>
    obtain ⟨rfl, hexpand⟩ := h
    rwa [List.append_nil]
  | false =>
    obtain ⟨more, hmore, rfl⟩ := h
    obtain ⟨out, hout⟩ := hts rfl
    have hbehind := expand_append_left (cells.map narrow) hout
    rw [List.append_nil, hmore, Option.some.injEq] at hbehind
    obtain rfl := List.append_cancel_left hbehind
    have hmap := map_expand UInt8.toNat id [] ts
    rw [hout] at hmap
    have hcells := expand_append_left (markerPrefix ++ cells) hmap.symm
    rw [List.map_nil, List.append_nil, List.append_assoc] at hcells
    exact hcells

/-- In the chunks of a body whose members expand on their own, all copies are known. -/
theorem ChunkRun.expand_tokens (h : ChunkRun room body endBitHint first pos cells r)
    {own : List UInt8} {members : List (List Token × Trailer)}
    {outs : List (List UInt8 × Trailer)} (hparse : BodyParse body pos members)
    (hexpands : Expands own members outs) (hown : first = false → own = []) :
    expand UInt8.toNat (markerPrefix ++ cells) r.tokens = some (markerPrefix ++ r.cells) := by
  induction h generalizing own members outs with
  | full _ => simp [ChunkEnd.tokens, ChunkEnd.parsed]
  | part _ hblocks hadds =>
    cases hexpands with
    | nil => exact absurd rfl hparse.ne_nil
    | @cons _ out ts trailer members outs hexpand hrest =>
    rcases hparse.split endBitHint with ⟨_, hblocks', -, -⟩ | ⟨ts₁, ts₂, _, rfl, hblocks', -⟩
    · cases (hblocks.unique hblocks').1
    obtain ⟨-, rfl, -⟩ := hblocks.unique hblocks'
    rw [ChunkEnd.tokens, ChunkEnd.parsed, List.map_nil, memberTokens_nil, List.nil_append]
    refine hadds.expand_markerPrefix fun hfirst => ?_
    rw [hown hfirst, expand_append, Option.bind_eq_some_iff] at hexpand
    obtain ⟨mid, hmid, -⟩ := hexpand
    exact ⟨mid, hmid⟩
  | last _ hblocks hadds _ _ =>
    cases hexpands with
    | nil => exact absurd rfl hparse.ne_nil
    | @cons _ out ts trailer members outs hexpand hrest =>
    rcases hparse.split endBitHint with ⟨_, hblocks', -, -⟩ | ⟨ts₁, ts₂, _, rfl, hblocks', -⟩
    swap
    · cases (hblocks.unique hblocks').1
    obtain ⟨-, rfl, -⟩ := hblocks.unique hblocks'
    simp only [ChunkEnd.tokens, ChunkEnd.parsed, List.map_cons, List.map_nil, memberTokens_cons,
      memberTokens_nil, List.append_nil]
    refine hadds.expand_markerPrefix fun hfirst => ?_
    rw [hown hfirst] at hexpand
    exact ⟨_, hexpand⟩
  | next _ hblocks hadds htrailer hnext _ ih =>
    cases hexpands with
    | nil => exact absurd rfl hparse.ne_nil
    | @cons _ out ts trailer members outs hexpand hrest =>
    rcases hparse.split endBitHint with
      ⟨_, hblocks', htrailer', hfollows⟩ | ⟨ts₁, ts₂, _, rfl, hblocks', -⟩
    swap
    · cases (hblocks.unique hblocks').1
    obtain ⟨-, rfl, rfl⟩ := hblocks.unique hblocks'
    rw [htrailer, Except.ok.injEq] at htrailer'
    subst htrailer'
    rcases hfollows with ⟨-, hnone⟩ | ⟨start, hnext', hparse'⟩
    · rw [hnext] at hnone
      cases hnone
    · rw [hnext, Except.ok.injEq, Option.some.injEq] at hnext'
      subst hnext'
      have hfirst := hadds.expand_markerPrefix fun hfirst => ⟨_, hown hfirst ▸ hexpand⟩
      rw [ChunkEnd.tokens, ChunkEnd.parsed, List.map_cons, memberTokens_cons, List.append_assoc,
        expand_append, hfirst, Option.bind_some]
      exact ih hparse' hrest fun _ => rfl

end Runs

namespace Mmap

section Chains

variable {crc : Checksum} {body : List UInt8} {boundaries : List ℕ} {t : ThreadConfig}
  {rs : List WorkResult} {ds : List ResolveDone}

/-- In the chunks of a chain no later member copies a byte that is not known yet. -/
def KnownChunks (body : List UInt8) (rs : List WorkResult) : Prop :=
  ∀ before r endBitHint, before ++ [r.result before.length] <+: rs →
    ChunkRun 0 body endBitHint true (chainEnd before) [] r → r.Known

/-- Where a chain stands in a body of any kind: the members that have ended and the tokens of the
one that has begun make the bytes that are sent. -/
structure Behind (body : List UInt8) (rs : List WorkResult) (bytes : List UInt8)
    (done : List (List Token × Trailer)) (begun : List Token) : Prop where
  marks : Marks 0 done (boundariesFrom 0 rs)
  expands : expand id [] (memberTokens done ++ begun) = some bytes
  tail_eq : tailChain (rs.map WorkResult.chunk) = lastWindow bytes
  parses : Unfinished rs → ∀ us trailer members,
    BodyParse body (chainEnd rs) ((us, trailer) :: members) →
      BodyParse body 0 (done ++ (begun ++ us, trailer) :: members)
  ends : ¬Unfinished rs → BodyParse body 0 done ∧ begun = []

/-- A resolved chunk is that of its job without the markers. -/
theorem resolveMarkers_of_resolveJob {job : ResolveJob} {d : ResolveDone}
    (h : resolveJob crc job = .ok d) : resolveMarkers job.chunk job.prevTail = .ok d.chunk := by
  unfold resolveJob at h
  split at h
  · cases h
  next hresolve =>
    cases h
    exact hresolve

/-- A resolved chunk holds what its tokens make behind all bytes before it. -/
theorem expand_of_resolveJob {history : List UInt8} {r : ChunkEnd} {d : ResolveDone}
    {endBitHint pos : ℕ} (hrun : ChunkRun 0 body endBitHint true pos [] r) (hknown : r.Known)
    (hnear : NearMarkers 0 r.cells)
    (htail : tailChain (rs.map WorkResult.chunk) = lastWindow history)
    (hjob : resolveJob crc (jobAt rs (r.result rs.length)) = .ok d) :
    expand id history r.tokens = some (history ++ d.chunk.bytes) ∧
      tailChain ((rs ++ [r.result rs.length]).map WorkResult.chunk) =
        lastWindow (history ++ d.chunk.bytes) := by
  have hresolve := resolveMarkers_of_resolveJob hjob
  simp only [jobAt, htail, ChunkEnd.result] at hresolve
  rcases resolveMarkers_chunkOf (lastWindow history) hnear with
    ⟨bytes, hbytes, hok⟩ | ⟨-, msg, herr⟩
  swap
  · rw [hresolve] at herr
    cases herr
  rw [hresolve, Except.ok.injEq] at hok
  rw [hok] at hresolve ⊢
  refine ⟨(Speculative.expand_resolveCell history hrun.copyBounds hknown bytes).mpr hbytes, ?_⟩
  have hordered := ordered_chunkOf hnear
  rw [List.map_append, List.map_singleton, tailChain_snoc, htail]
  exact buildPrevTailFast_eq hordered (resolveMarkers_of_lastWindow hordered hresolve)

/-- The next chunk of a chain. -/
theorem Behind.snoc {bytes : List UInt8} {done : List (List Token × Trailer)} {begun : List Token}
    (h : Behind body rs bytes done begun) (hopen : Unfinished rs) {r : ChunkEnd} {d : ResolveDone}
    {endBitHint : ℕ} (hrun : ChunkRun 0 body endBitHint true (chainEnd rs) [] r)
    (hknown : r.Known) (hnear : NearMarkers 0 r.cells)
    (hlength : bytes.length = (rs.map fun r => r.chunk.bytes.length).sum)
    (hjob : resolveJob crc (jobAt rs (r.result rs.length)) = .ok d) :
    Behind body (rs ++ [r.result rs.length]) (bytes ++ d.chunk.bytes)
      (done ++ resume begun r.parsed) (if r.parsed = [] then begun ++ r.tail else r.tail) := by
  obtain ⟨hexpand, htail⟩ := expand_of_resolveJob hrun hknown hnear h.tail_eq hjob
  have htokens : memberTokens (resume begun r.parsed) ++
      (if r.parsed = [] then begun ++ r.tail else r.tail) = begun ++ r.tokens := by
    rw [ChunkEnd.tokens]
    cases r.parsed with
    | nil => simp [resume]
    | cons m members => simp [resume]
  refine ⟨?_, ?_, htail, ?_, ?_⟩
  · rw [boundariesFrom_snoc, Nat.zero_add, ← hlength]
    have hbytes := expand_length h.expands
    rw [List.length_nil, Nat.zero_add] at hbytes
    have hmarks := @Marks.resume (outputSize (memberTokens done)) begun _ _ hrun.marks
    rw [← outputSize_append, show outputSize (memberTokens done ++ begun) = bytes.length from
      hbytes.symm] at hmarks
    apply h.marks.append
    rw [Nat.zero_add]
    exact hmarks
  · rw [memberTokens_append, List.append_assoc, htokens, ← List.append_assoc, expand_append,
      h.expands, Option.bind_some]
    exact hexpand
  · intro hopen' us trailer members hparse
    rw [chainEnd_snoc] at hparse
    have hchunk := hrun.bodyParse_append ((unfinished_snoc hopen).mp hopen') hparse
    rw [List.append_assoc]
    revert hchunk
    cases r.parsed with
    | nil =>
      intro hchunk
      rw [if_pos rfl, resume, List.nil_append, List.append_assoc]
      exact h.parses hopen _ _ _ hchunk
    | cons m parsed =>
      intro hchunk
      rw [if_neg (List.cons_ne_nil _ _), resume]
      exact h.parses hopen _ _ _ hchunk
  · intro hend
    rw [unfinished_snoc hopen, Bool.not_eq_false] at hend
    obtain ⟨hparse, htail⟩ := hrun.bodyParse_parsed hend
    rw [htail]
    revert hparse
    cases r.parsed with
    | nil => exact fun hparse => absurd rfl hparse.ne_nil
    | cons m parsed =>
      intro hparse
      rw [if_neg (List.cons_ne_nil _ _), resume]
      exact ⟨h.parses hopen _ _ _ hparse, rfl⟩

/-- A chain that resolves is made of members behind each other. -/
theorem Chain.behind (hchain : Chain (Unbounded.memberConfig crc body boundaries t) rs)
    (hresolves : Resolves (Unbounded.memberConfig crc body boundaries t) rs ds)
    (hnear : NearChunks body rs) (hknown : KnownChunks body rs) :
    ∃ done begun, Behind body rs (sentBytes ds).flatten done begun := by
  induction hresolves with
  | nil =>
    exact ⟨[], [], trivial, rfl, lastWindow_nil.symm, fun _ us trailer members hparse => hparse,
      fun h => absurd (by simp [Unfinished]) h⟩
  | @snoc rs ds r d hresolves hjob ih =>
    have hprefix : rs <+: rs ++ [r] := List.prefix_append _ _
    obtain ⟨done, begun, hbehind⟩ := ih (hchain.of_prefix hprefix)
      (fun before r hint hpre => hnear before r hint (hpre.trans hprefix))
      (fun before r hint hpre => hknown before r hint (hpre.trans hprefix))
    obtain ⟨hint, r', hrun, rfl⟩ := hchain.chunkRun
    have hnext := hbehind.snoc hchain.unfinished hrun (hknown rs r' _ List.prefix_rfl hrun)
      (hnear rs r' _ List.prefix_rfl hrun) (length_sentBytes hresolves) hjob
    rw [← sentBytes_snoc] at hnext
    exact ⟨_, _, hnext⟩

/-- What a call accepts is made of members that pass their checks behind each other. -/
theorem Succeeds.exists_behind {r : WorkResult} {bc : ℕ}
    (h : Succeeds (Unbounded.memberConfig crc body boundaries t) rs r ds bc)
    (hnear : NearChunks body (rs ++ [r])) (hknown : KnownChunks body (rs ++ [r])) :
    ∃ members outs, BodyParse body 0 members ∧ ExpandsBehind [] members outs ∧
      (∀ m ∈ outs, Passes crc m) ∧ (sentBytes ds).flatten = (outs.map Prod.fst).flatten := by
  obtain ⟨done, begun, hbehind⟩ := h.chain.behind h.resolves hnear hknown
  obtain ⟨hparse, rfl⟩ := hbehind.ends fun hopen => by
    have hfalse := hopen r (List.mem_append_right rs List.mem_cons_self)
    rw [h.final] at hfalse
    cases hfalse
  have hexpand := hbehind.expands
  rw [List.append_nil] at hexpand
  obtain ⟨hexpands, hnone⟩ := expandsBehind_of_marks hbehind.marks (Nat.zero_le _) hexpand
  have hcuttable := h.chain.cuttable h.resolves
  rw [← (cutAll_eq_cut h.resolves hcuttable).2] at hexpands hnone
  obtain ⟨m, hstitch⟩ := h.checks
  have hflatten := cutAll_flatten hcuttable
  rw [hnone, List.append_nil] at hflatten
  exact ⟨done, _, hparse, hexpands, ((stitchAll_iff h.resolves hcuttable).mp hstitch).1,
    hflatten.symm⟩

/-- In a valid body every chunk knows what its later members copy. -/
theorem Chain.knownChunks {members : List (List Token × Trailer)}
    {outs : List (List UInt8 × Trailer)} (hparse : BodyParse body 0 members)
    (hexpands : Expands [] members outs)
    (hchain : Chain (Unbounded.memberConfig crc body boundaries t) rs)
    (hnear : NearChunks body rs) : KnownChunks body rs := by
  intro before r hint hpre hrun
  have hbefore : before <+: rs := (List.prefix_append _ _).trans hpre
  obtain ⟨ds, halong⟩ := (hchain.of_prefix hbefore).along hparse hexpands
    fun before' r' hint' hpre' => hnear before' r' hint' (hpre'.trans hbefore)
  obtain ⟨outs', -, hopen, -⟩ := halong.left
  obtain ⟨members', hparse', hexpands'⟩ := hopen (hchain.of_prefix hpre).unfinished
  have h := hrun.expand_tokens hparse' hexpands' nofun
  rwa [List.append_nil] at h

end Chains

end Mmap

end Pipeline

end RustyRapidgzip
