import RustyRapidgzip.Deflate.SpeculativeCorrect
import RustyRapidgzip.Gzip.Concat
import RustyRapidgzip.Pipeline.Members
import RustyRapidgzip.Pipeline.Streaming

/-!
# Decoding a slice of a body

An item holds the bytes of the body from its first block to a few bytes behind its last one.
Where it was cut at the start of a block, decoding it is decoding the body between the two
blocks: the members and the trailers in it lie inside the slice, and the padding leaves the
decoder the bits that it wants to see behind a block.
-/

namespace RustyRapidgzip

open LsbBits Reference Lz Crc

namespace Pipeline

/-! ## The blocks of a body -/

/-- The block after the one at a position: it follows at once, or behind the trailer and the next
header where a member ends. -/
inductive NextBlock (body : List UInt8) (pos : ℕ) : ℕ → Prop
  | block {ts : List Token} {rest : List Bool}
      (hblock : Block 0 ((bits body).drop pos) false ts rest) :
      NextBlock body pos (8 * body.length - rest.length)
  | member {ts : List Token} {rest : List Bool} {trailer : Trailer} {start : ℕ}
      (hblock : Block 0 ((bits body).drop pos) true ts rest)
      (htrailer : trailerAt body (8 * body.length - rest.length) = .ok trailer)
      (hnext : nextMember body trailer = .ok (some start)) : NextBlock body pos start

/-- One block leads to another one. -/
abbrev LeadsTo (body : List UInt8) : ℕ → ℕ → Prop := Relation.ReflTransGen (NextBlock body)

/-- A block of the body starts here. -/
def BlockStart (body : List UInt8) (pos : ℕ) : Prop := LeadsTo body 0 pos

section Blocks

variable {body : List UInt8} {pos stop : ℕ}

/-- The next block lies behind. -/
theorem NextBlock.lt (h : NextBlock body pos stop) : pos < stop := by
  have hlt {f : Bool} {ts : List Token} {rest : List Bool}
      (hblock : Block 0 ((bits body).drop pos) f ts rest) :
      pos < 8 * body.length - rest.length := by
    have := hblock.length_lt
    rw [List.length_drop, bits_length] at this
    omega
  cases h with
  | block hblock => exact hlt hblock
  | member hblock htrailer hnext =>
    have hend := hlt hblock
    have hbyte := (trailerAt_ok htrailer).1
    have hstart := (nextMember_some hnext).1
    omega

/-- There is one next block at most. -/
theorem rightUnique_nextBlock (body : List UInt8) : Relator.RightUnique (NextBlock body) := by
  intro pos stop stop' h h'
  cases h with
  | block hblock =>
    cases h' with
    | block hblock' =>
      obtain ⟨-, -, rfl⟩ := hblock.unique hblock'
      rfl
    | member hblock' _ _ => cases (hblock.unique hblock').1
  | member hblock htrailer hnext =>
    cases h' with
    | block hblock' => cases (hblock.unique hblock').1
    | member hblock' htrailer' hnext' =>
      obtain ⟨-, -, rfl⟩ := hblock.unique hblock'
      rw [htrailer] at htrailer'
      cases htrailer'
      rw [hnext] at hnext'
      cases hnext'
      rfl

/-- The blocks that follow lie behind. -/
theorem LeadsTo.le (h : LeadsTo body pos stop) : pos ≤ stop := by
  induction h with
  | refl => exact le_rfl
  | tail _ hlast ih => exact ih.trans hlast.lt.le

/-- Of two blocks the first one leads to the second one. -/
theorem BlockStart.leadsTo (h : BlockStart body pos) (h' : BlockStart body stop)
    (hlt : pos < stop) :
    LeadsTo body pos stop := by
  rcases Relation.ReflTransGen.total_of_right_unique (rightUnique_nextBlock body) h h' with
    hforth | hback
  · exact hforth
  · have hle := LeadsTo.le hback
    omega

/-- A block that leads further leads to its next block first. -/
theorem LeadsTo.next {mid : ℕ} (h : LeadsTo body pos stop) (hlt : pos < stop)
    (hnext : NextBlock body pos mid) : LeadsTo body mid stop := by
  rcases Relation.ReflTransGen.cases_head h with rfl | ⟨mid', hnext', hrest⟩
  · exact absurd hlt (lt_irrefl _)
  · rwa [rightUnique_nextBlock body hnext hnext']

/-- Blocks that are decoded up to a block that they lead to stop there, or at the end of a member
that comes before it. -/
theorem leadsTo_of_blocks {room : ℕ} {f : Bool} {ts : List Token} {bs rest : List Bool}
    (h : Blocks room (stopAt body stop) bs f ts rest) (hbs : bs = (bits body).drop pos)
    (hleads : LeadsTo body pos stop) (hlt : pos < stop) :
    (f = false → 8 * body.length - rest.length = stop) ∧
      (f = true → ∃ trailer start, trailerAt body (8 * body.length - rest.length) = .ok trailer ∧
        nextMember body trailer = .ok (some start) ∧ LeadsTo body start stop) := by
  induction h generalizing pos with
  | final hblock =>
    subst hbs
    refine ⟨nofun, fun _ => ?_⟩
    have hblock' := hblock.mono (Nat.zero_le _)
    rcases Relation.ReflTransGen.cases_head hleads with rfl | ⟨mid, hnext, hrest⟩
    · exact absurd hlt (lt_irrefl _)
    cases hnext with
    | block hblock'' => cases (hblock'.unique hblock'').1
    | member hblock'' htrailer hnext =>
      obtain ⟨-, -, rfl⟩ := hblock'.unique hblock''
      exact ⟨_, _, htrailer, hnext, hrest⟩
  | stop hblock hstop =>
    subst hbs
    refine ⟨fun _ => ?_, nofun⟩
    have hle := LeadsTo.le (hleads.next hlt (.block (hblock.mono (Nat.zero_le _))))
    exact Nat.le_antisymm hle (of_decide_eq_true hstop)
  | @more bs mid rest f ts us hblock hstop _ ih =>
    subst hbs
    have hmid := eq_drop_of_suffix (hblock.frame.choose_spec.1 ▸ List.suffix_append _ _)
    exact ih hmid (hleads.next hlt (.block (hblock.mono (Nat.zero_le _))))
      (Nat.lt_of_not_le (of_decide_eq_false hstop))

end Blocks

/-! ## Slices -/

/-- A slice of a body, between two places. -/
structure Slice (body : List UInt8) (base stop : ℕ) (slice : List UInt8) : Prop where
  bytes_eq : slice = (body.take stop).drop base
  base_le : base ≤ stop
  stop_le : stop ≤ body.length

section Slices

variable {body slice : List UInt8} {base stop pos : ℕ}

/-- A slice is as long as its places are apart. -/
theorem Slice.length_eq (h : Slice body base stop slice) : slice.length = stop - base := by
  have hle := h.stop_le
  rw [h.bytes_eq, List.length_drop, List.length_take]
  omega

/-- The bits of the body from a place in the slice on are those of the slice, and the bits behind
it. -/
theorem Slice.drop_bits (h : Slice body base stop slice) {n : ℕ} (hn : n ≤ 8 * slice.length) :
    (bits body).drop (8 * base + n) = (bits slice).drop n ++ bits (body.drop stop) := by
  have hbase := h.base_le
  have hstop := h.stop_le
  have hsplit : body.drop base = slice ++ body.drop stop := by
    have hle : base ≤ (body.take stop).length := by
      rw [List.length_take]
      omega
    calc body.drop base
      _ = (body.take stop ++ body.drop stop).drop base := by rw [List.take_append_drop]
      _ = slice ++ body.drop stop := by rw [List.drop_append_of_le_length hle, ← h.bytes_eq]
  rw [← List.drop_drop, ← bits_drop, hsplit, bits_append,
    List.drop_append_of_le_length (by rwa [bits_length])]

/-- A piece of the slice is a piece of the body. -/
theorem Slice.take_drop (h : Slice body base stop slice) {a n : ℕ} (hn : a + n ≤ slice.length) :
    (slice.drop a).take n = (body.drop (base + a)).take n := by
  have hlength := h.length_eq
  have hbase := h.base_le
  rw [h.bytes_eq, List.drop_drop, List.drop_take, List.take_take, Nat.min_eq_left (by omega)]

/-- Blocks of the body that end in the slice, with room behind them, are blocks of the slice. -/
theorem Slice.blocks (h : Slice body base stop slice) {room n hint : ℕ} {f : Bool}
    {ts : List Token} {rest : List Bool} (hn : n ≤ 8 * slice.length)
    (hblocks : Blocks room (stopAt body (8 * base + hint)) ((bits body).drop (8 * base + n)) f ts
      rest) (hroom : 8 * (body.length - stop) + 48 ≤ rest.length) :
    ∃ rest', Blocks 48 (stopAt slice hint) ((bits slice).drop n) f ts rest' ∧
      8 * body.length - rest.length = 8 * base + (8 * slice.length - rest'.length) := by
  have hlength := h.length_eq
  have hbase := h.base_le
  have hstop := h.stop_le
  rw [h.drop_bits hn] at hblocks
  obtain ⟨used, hused, hframe⟩ := hblocks.frame
  have hbehind : (bits (body.drop stop)).length = 8 * (body.length - stop) := by
    rw [bits_length, List.length_drop]
  have htotal := congrArg List.length hused
  simp only [List.length_append, List.length_drop, bits_length] at htotal
  obtain ⟨rest', hrest', rfl⟩ : ∃ rest', (bits slice).drop n = used ++ rest' ∧
      rest = rest' ++ bits (body.drop stop) := by
    rcases List.append_eq_append_iff.mp hused with ⟨more, hmore, hrest⟩ | ⟨more, hmore, hrest⟩
    · have hle := congrArg List.length hrest
      rw [List.length_append, hbehind] at hle
      omega
    · exact ⟨more, hmore, hrest⟩
  rw [List.length_append, hbehind] at hroom
  have hslice := hframe rest' (stopAt slice hint) (by rw [List.length_append, hbehind]; omega)
    fun u hu => by
      have hle := hu.length_le
      have hlen := congrArg List.length hrest'
      simp only [List.length_append, List.length_drop, bits_length] at hlen
      simp only [stopAt, List.length_append, hbehind]
      congr 1
      apply propext
      omega
  rw [← hrest'] at hslice
  have hle := congrArg List.length hrest'
  rw [List.length_drop, bits_length, List.length_append] at hle
  refine ⟨rest', hslice.of_rest (by omega), ?_⟩
  rw [List.length_append, hbehind]
  omega

/-- A trailer of the body that lies in the slice is a trailer of the slice. -/
theorem Slice.trailerAt (h : Slice body base stop slice) {endBit : ℕ} {trailer : Trailer}
    (htrailer : Pipeline.trailerAt body (8 * base + endBit) = .ok trailer)
    (hroom : trailer.trailerInputByte + 8 ≤ stop) : ∃ trailer',
      Pipeline.trailerAt slice endBit = .ok trailer' ∧
        trailer = { trailer' with trailerInputByte := base + trailer'.trailerInputByte } := by
  have hlength := h.length_eq
  obtain ⟨hbyte, -⟩ := trailerAt_ok htrailer
  have hsame : (8 * base + endBit + 7) / 8 = base + (endBit + 7) / 8 := by omega
  have hfits : (endBit + 7) / 8 + 8 ≤ slice.length := by omega
  unfold Pipeline.trailerAt at htrailer ⊢
  simp only at htrailer ⊢
  split at htrailer
  · cases htrailer
  rw [if_neg (by omega)]
  cases htrailer
  refine ⟨_, rfl, ?_⟩
  rw [hsame, h.take_drop (by omega), h.take_drop (by omega), ← Nat.add_assoc]

/-- A member of the body that starts in the slice follows its trailer there. -/
theorem Slice.nextMember (h : Slice body base stop slice) {trailer trailer' : Trailer} {start : ℕ}
    (htrailer : trailer.trailerInputByte = base + trailer'.trailerInputByte)
    (hnext : Pipeline.nextMember body trailer = .ok (some start)) (hstart : start ≤ 8 * stop) :
    ∃ start', Pipeline.nextMember slice trailer' = .ok (some start') ∧
      start = 8 * base + start' := by
  have hlength := h.length_eq
  obtain ⟨-, headerLen, hparse, rfl⟩ := nextMember_iff.mp hnext
  rw [htrailer] at hparse hstart
  have hfits : trailer'.trailerInputByte + 8 + headerLen ≤ slice.length := by omega
  have htake := h.take_drop hfits
  have hparse' : Gzip.parseHeader (slice.drop (trailer'.trailerInputByte + 8)) = .ok headerLen := by
    apply Gzip.parseHeader_local hparse
    rw [Nat.add_assoc, ← htake]
    exact List.take_prefix _ _
  have hpos : 0 < headerLen := by
    obtain ⟨hten, -⟩ := Gzip.parseHeader_bounds hparse'
    omega
  refine ⟨8 * (trailer'.trailerInputByte + 8 + headerLen), nextMember_iff.mpr ⟨?_, headerLen,
    hparse', rfl⟩, by omega⟩
  rw [Ne, List.drop_eq_nil_iff]
  omega

end Slices

end Pipeline

end RustyRapidgzip
