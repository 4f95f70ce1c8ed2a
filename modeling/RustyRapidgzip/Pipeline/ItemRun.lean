import RustyRapidgzip.Pipeline.Pieces
import RustyRapidgzip.Pipeline.Streaming

/-!
# What decoding an item gives

A worker of the streaming decoder decodes the members of an item into one chunk, each of them
behind an unknown history of its own. The bits of the item determine the chunk and its
boundaries, and nothing that is left in the worker's buffer can change them.
-/

namespace RustyRapidgzip

open LsbBits Reference Lz

namespace Pipeline

namespace Streaming

/-- The boundary that a worker records for a trailer of its item. -/
def Item.boundary (item : Item) (trailer : Trailer) (byteOffsetInChunk : ℕ) : MemberBoundary where
  crcExpected := trailer.crcExpected
  isizeExpected := trailer.isizeExpected
  trailerInputByte := item.baseByte + trailer.trailerInputByte
  byteOffsetInChunk := byteOffsetInChunk

/-- What tokens make of the unknown history. -/
def Marks (ts : List Token) (cells : List ℕ) : Prop :=
  expand UInt8.toNat markerPrefix ts = some (markerPrefix ++ cells)

/-- Decoding an item, from a member of it on. The end counts from the first bit of the body. -/
inductive ItemRun (room : ℕ) (item : Item) : ℕ → List ℕ → ChunkEnd → Prop
  | full {pos : ℕ} {cells : List ℕ} (hpos : item.endBitHint ≤ pos) :
      ItemRun room item pos cells ⟨[], [], 8 * item.baseByte + pos, false, cells⟩
  | part {pos : ℕ} {cells more : List ℕ} {ts : List Token} {rest : List Bool}
      (hpos : pos < item.endBitHint)
      (hblocks : Blocks room (stopAt item.bytes item.endBitHint) ((bits item.bytes).drop pos) false
        ts rest) (hmarks : Marks ts more) :
      ItemRun room item pos cells
        ⟨[], ts, 8 * item.baseByte + (8 * item.bytes.length - rest.length), false, cells ++ more⟩
  | last {pos : ℕ} {cells more : List ℕ} {ts : List Token} {rest : List Bool} {trailer : Trailer}
      (hpos : pos < item.endBitHint)
      (hblocks : Blocks room (stopAt item.bytes item.endBitHint) ((bits item.bytes).drop pos) true
        ts rest) (hmarks : Marks ts more)
      (htrailer : trailerAt item.bytes (8 * item.bytes.length - rest.length) = .ok trailer)
      (hnext : nextMember item.bytes trailer = .ok none) :
      ItemRun room item pos cells
        ⟨[(ts, item.boundary trailer (cells ++ more).length)], [],
          8 * item.baseByte + 8 * item.bytes.length, item.isFinalRegion, cells ++ more⟩
  | next {pos start : ℕ} {cells more : List ℕ} {ts : List Token} {rest : List Bool}
      {trailer : Trailer} {r : ChunkEnd} (hpos : pos < item.endBitHint)
      (hblocks : Blocks room (stopAt item.bytes item.endBitHint) ((bits item.bytes).drop pos) true
        ts rest) (hmarks : Marks ts more)
      (htrailer : trailerAt item.bytes (8 * item.bytes.length - rest.length) = .ok trailer)
      (hnext : nextMember item.bytes trailer = .ok (some start))
      (hrun : ItemRun room item start (cells ++ more) r) :
      ItemRun room item pos cells
        { r with members := (ts, item.boundary trailer (cells ++ more).length) :: r.members }

/-- The result of an item that was decoded to this end. -/
def decodedTo (item : Item) (r : ChunkEnd) : DecodeResult :=
  ⟨item.id, chunkOf r.cells, r.finalBlock, r.members.map Prod.snd⟩

section Spec

variable {item : Item} {room pos : ℕ} {cells : List ℕ} {r : ChunkEnd} {scratch : List ℕ}

/-- The tokens determine the cells. -/
theorem Marks.unique {ts : List Token} {more more' : List ℕ} (h : Marks ts more)
    (h' : Marks ts more') : more = more' := by
  unfold Marks at h h'
  rw [h] at h'
  exact List.append_cancel_left (Option.some.inj h')

/-- The bits of an item determine its end. -/
theorem ItemRun.unique {room' : ℕ} {r' : ChunkEnd} (h : ItemRun room item pos cells r)
    (h' : ItemRun room' item pos cells r') : r = r' := by
  induction h generalizing r' with
  | full hpos =>
    cases h' with
    | full _ => rfl
    | part hpos' _ _ => omega
    | last hpos' _ _ _ _ => omega
    | next hpos' _ _ _ _ _ => omega
  | part hpos hblocks hmarks =>
    cases h' with
    | full hpos' => omega
    | part _ hblocks' hmarks' =>
      obtain ⟨-, rfl, rfl⟩ := hblocks.unique hblocks'
      rw [hmarks.unique hmarks']
    | last _ hblocks' _ _ _ => cases (hblocks.unique hblocks').1
    | next _ hblocks' _ _ _ _ => cases (hblocks.unique hblocks').1
  | last hpos hblocks hmarks htrailer hnext =>
    cases h' with
    | full hpos' => omega
    | part _ hblocks' _ => cases (hblocks.unique hblocks').1
    | last _ hblocks' hmarks' htrailer' _ =>
      obtain ⟨-, rfl, rfl⟩ := hblocks.unique hblocks'
      rw [htrailer] at htrailer'
      cases htrailer'
      rw [hmarks.unique hmarks']
    | next _ hblocks' _ htrailer' hnext' _ =>
      obtain ⟨-, rfl, rfl⟩ := hblocks.unique hblocks'
      rw [htrailer] at htrailer'
      cases htrailer'
      rw [hnext] at hnext'
      cases hnext'
  | next hpos hblocks hmarks htrailer hnext _ ih =>
    cases h' with
    | full hpos' => omega
    | part _ hblocks' _ => cases (hblocks.unique hblocks').1
    | last _ hblocks' _ htrailer' hnext' =>
      obtain ⟨-, rfl, rfl⟩ := hblocks.unique hblocks'
      rw [htrailer] at htrailer'
      cases htrailer'
      rw [hnext] at hnext'
      cases hnext'
    | next _ hblocks' hmarks' htrailer' hnext' hrun' =>
      obtain ⟨-, rfl, rfl⟩ := hblocks.unique hblocks'
      rw [htrailer] at htrailer'
      cases htrailer'
      rw [hnext] at hnext'
      cases hnext'
      obtain rfl := hmarks.unique hmarks'
      rw [ih hrun']

/-- The boundaries of an item stand in order inside its chunk. -/
theorem ItemRun.offsets (h : ItemRun room item pos cells r) :
    Offsets r.cells.length cells.length (r.members.map Prod.snd) := by
  induction h with
  | full _ => exact le_rfl
  | part _ _ _ =>
    rw [List.length_append]
    exact Nat.le_add_right _ _
  | last _ _ _ _ _ =>
    refine ⟨?_, le_rfl⟩
    simp only [Item.boundary, List.length_append]
    exact Nat.le_add_right _ _
  | next _ _ _ _ _ _ ih =>
    refine ⟨?_, ih⟩
    simp only [Item.boundary, List.length_append]
    exact Nat.le_add_right _ _

/-- A member of an item ends with a trailer, and then the item ends or the next member follows, or
the framing is broken. -/
theorem endItemMember_cases {γ : Type} (item : Item) (len : ℕ) (s : ItemState γ) :
    (∃ err, endItemMember item len s = .error err ∧ err ≠ .deflate .outOfFuel ∧
      ∀ trailer next, trailerAt item.bytes s.pos = .ok trailer →
        nextMember item.bytes trailer ≠ .ok next) ∨
    (∃ trailer, trailerAt item.bytes s.pos = .ok trailer ∧
      nextMember item.bytes trailer = .ok none ∧
      endItemMember item len s = .ok (.inr (item.isFinalRegion, { s with
        memberBoundaries := s.memberBoundaries ++
          [item.boundary trailer len] }))) ∨
    ∃ trailer start, trailerAt item.bytes s.pos = .ok trailer ∧
      nextMember item.bytes trailer = .ok (some start) ∧
      endItemMember item len s = .ok (.inl { s with
        pos := start
        memberBoundaries := s.memberBoundaries ++
          [item.boundary trailer len] }) := by
  unfold endItemMember trailerAt
  simp only
  by_cases hroom : item.bytes.length < (s.pos + 7) / 8 + 8
  · rw [if_pos hroom, if_pos hroom]
    exact Or.inl ⟨_, rfl, by simp, by simp⟩
  rw [if_neg hroom, if_neg hroom]
  unfold nextMember
  by_cases hend : item.bytes.length ≤ (s.pos + 7) / 8 + 8
  · refine Or.inr (Or.inl ⟨_, rfl, by simp only [if_pos hend], ?_⟩)
    cases item.isFinalRegion with
    | true => simp only [if_pos hend, true_and, Item.boundary]
    | false => simp only [if_pos hend, Bool.false_eq_true, false_and, if_false, Item.boundary]
  · have hmore : ¬(item.isFinalRegion = true ∧
        item.bytes.length ≤ (s.pos + 7) / 8 + 8) := fun h => hend h.2
    simp only [if_neg hend, if_neg hmore]
    cases hparse : Gzip.parseHeader (item.bytes.drop ((s.pos + 7) / 8 + 8)) with
    | error err =>
      refine Or.inl ⟨.gzip err, rfl, by simp, ?_⟩
      rintro _ next ⟨⟩ hnext
      simp only [if_neg hend, hparse] at hnext
      cases hnext
    | ok headerLen =>
      refine Or.inr (Or.inr ⟨_, ((s.pos + 7) / 8 + 8 + headerLen) * 8, rfl, ?_, rfl⟩)
      simp only [if_neg hend, hparse]
      rfl

/-- What the member loop of an item returns. -/
def ItemLoopSpec (item : Item) (pos : ℕ) (cells : List ℕ) (boundaries : List MemberBoundary) :
    Except Error (Bool × ItemState SpeculativeChunk) → Prop
  | .error err => err ≠ .deflate .outOfFuel ∧ ∀ r, ¬ItemRun 48 item pos cells r
  | .ok (finalBlock, s) => ∃ r, ItemRun 0 item pos cells r ∧ finalBlock = r.finalBlock ∧
      s.chunk = chunkOf r.cells ∧ s.memberBoundaries = boundaries ++ r.members.map Prod.snd

/-- The member loop of an item, whatever the worker's buffer holds. -/
theorem itemLoopSpec_iterate {fuel : ℕ} {boundaries : List MemberBoundary}
    (hfuel : 8 * item.bytes.length - pos < fuel) :
    ItemLoopSpec item pos cells boundaries (Loop.iterate (.deflate .outOfFuel)
      (Unbounded.itemRound item scratch) fuel ⟨pos, chunkOf cells, boundaries⟩) := by
  induction fuel generalizing pos cells boundaries with
  | zero => omega
  | succ fuel ih =>
    by_cases hfull : item.endBitHint ≤ pos
    · have hround : Unbounded.itemRound item scratch ⟨pos, chunkOf cells, boundaries⟩ =
          .ok (.inr (false, ⟨pos, chunkOf cells, boundaries⟩)) := by
        unfold Unbounded.itemRound
        rw [if_pos hfull]
      rw [Loop.iterate_break hround]
      exact ⟨_, .full hfull, rfl, rfl, by simp⟩
    have huntil := Speculative.untilSpecOnto_decodeUntilU16 item.bytes pos item.endBitHint cells
      scratch
    cases hdecode : Unbounded.decodeUntilU16 item.bytes pos item.endBitHint (chunkOf cells)
      scratch with
    | error err =>
      have hround : Unbounded.itemRound item scratch ⟨pos, chunkOf cells, boundaries⟩ =
          .error (.deflate err) := by
        unfold Unbounded.itemRound
        simp only [if_neg hfull, hdecode]
        rfl
      rw [hdecode] at huntil
      rw [Loop.iterate_fail hround]
      have hnone {f : Bool} {ts : List Token} {rest : List Bool} : ¬Blocks 48
          (stopAt item.bytes item.endBitHint) ((bits item.bytes).drop pos) f ts rest := by
        intro hblocks
        have hlt := hblocks.length_lt
        rw [List.length_drop, bits_length] at hlt
        exact huntil.2 f ts rest (by omega) hblocks
      refine ⟨by simpa using huntil.1, fun r hrun => ?_⟩
      cases hrun with
      | full hpos => exact hfull hpos
      | part _ hblocks _ => exact hnone hblocks
      | last _ hblocks _ _ _ => exact hnone hblocks
      | next _ hblocks _ _ _ _ => exact hnone hblocks
    | ok r =>
      obtain ⟨⟨e, f⟩, chunk⟩ := r
      rw [hdecode] at huntil
      obtain ⟨-, ts, rest, more, hblocks, he, hmarks, rfl⟩ := huntil
      have hlt := hblocks.length_lt
      rw [List.length_drop, bits_length] at hlt
      obtain rfl : e = 8 * item.bytes.length - rest.length := by omega
      cases f with
      | false =>
        have hround : Unbounded.itemRound item scratch ⟨pos, chunkOf cells, boundaries⟩ =
            .ok (.inr (false, ⟨8 * item.bytes.length - rest.length, chunkOf (cells ++ more),
              boundaries⟩)) := by
          unfold Unbounded.itemRound
          simp only [if_neg hfull, hdecode]
          rfl
        rw [Loop.iterate_break hround]
        exact ⟨_, .part (by omega) hblocks hmarks, rfl, rfl, by simp⟩
      | true =>
        have hbytes : (chunkOf (cells ++ more)).bytes.length = (cells ++ more).length :=
          List.length_map _
        have hround : Unbounded.itemRound item scratch ⟨pos, chunkOf cells, boundaries⟩ =
            endItemMember item (cells ++ more).length
              ⟨8 * item.bytes.length - rest.length, chunkOf (cells ++ more),
              boundaries⟩ := by
          unfold Unbounded.itemRound
          simp only [if_neg hfull, hdecode]
          rw [← hbytes]
          rfl
        have hunique {r : ChunkEnd} (hrun : ItemRun 48 item pos cells r) : ∃ trailer next,
            trailerAt item.bytes (8 * item.bytes.length - rest.length) = .ok trailer ∧
              nextMember item.bytes trailer = .ok next ∧ ∀ start, next = some start →
                ∃ r', ItemRun 48 item start (cells ++ more) r' := by
          cases hrun with
          | full hpos => exact absurd hpos hfull
          | part _ hblocks' _ => cases (hblocks.unique hblocks').1
          | last _ hblocks' hmarks' htrailer hnext =>
            obtain ⟨-, rfl, rfl⟩ := hblocks.unique hblocks'
            exact ⟨_, none, htrailer, hnext, by simp⟩
          | next _ hblocks' hmarks' htrailer hnext hrun' =>
            obtain ⟨-, rfl, rfl⟩ := hblocks.unique hblocks'
            obtain rfl := Marks.unique hmarks hmarks'
            refine ⟨_, some _, htrailer, hnext, ?_⟩
            rintro _ ⟨⟩
            exact ⟨_, hrun'⟩
        rcases endItemMember_cases item (cells ++ more).length
          ⟨8 * item.bytes.length - rest.length, chunkOf (cells ++ more), boundaries⟩ with
          ⟨err, herr, hfuel', hnone⟩ | ⟨trailer, htrailer, hnext, hok⟩ |
          ⟨trailer, start, htrailer, hnext, hok⟩
        · rw [herr] at hround
          rw [Loop.iterate_fail hround]
          refine ⟨hfuel', fun r hrun => ?_⟩
          obtain ⟨trailer, next, htrailer, hnext, -⟩ := hunique hrun
          exact hnone trailer next htrailer hnext
        · rw [hok] at hround
          rw [Loop.iterate_break hround]
          exact ⟨_, .last (by omega) hblocks hmarks htrailer hnext, rfl, rfl, by simp⟩
        · rw [hok] at hround
          have hbyte := (trailerAt_ok htrailer).1
          have hstart := nextMember_some hnext
          simp only at hbyte
          have hrest := @ih start (cells ++ more)
            (boundaries ++ [item.boundary trailer (cells ++ more).length]) (by omega)
          rw [Loop.iterate_continue hround]
          revert hrest
          cases Loop.iterate (.deflate .outOfFuel) (Unbounded.itemRound item scratch) fuel
            ⟨start, chunkOf (cells ++ more),
              boundaries ++ [item.boundary trailer (cells ++ more).length]⟩ with
          | error err =>
            rintro ⟨herr, hnone⟩
            refine ⟨herr, fun r hrun => ?_⟩
            obtain ⟨trailer', next, htrailer', hnext', htail⟩ := hunique hrun
            rw [htrailer] at htrailer'
            cases htrailer'
            rw [hnext] at hnext'
            cases hnext'
            obtain ⟨r', hrun'⟩ := htail start rfl
            exact hnone r' hrun'
          | ok res =>
            obtain ⟨finalBlock, s⟩ := res
            rintro ⟨r, hrun, hfinal, hchunk, hboundaries⟩
            exact ⟨_, .next (by omega) hblocks hmarks htrailer hnext hrun, hfinal, hchunk,
              by simp [hboundaries]⟩

/-- What decoding an item returns. -/
def ItemSpec (item : Item) : Except Error DecodeResult → Prop
  | .error err => err ≠ .deflate .outOfFuel ∧ ∀ r, ¬ItemRun 48 item item.startBit [] r
  | .ok d => ∃ r, ItemRun 0 item item.startBit [] r ∧ d = decodedTo item r

/-- What the decoder of an item decodes. -/
theorem itemSpec_decodeItem (item : Item) (scratch : List ℕ) :
    ItemSpec item (Unbounded.decodeItem item scratch) := by
  have hspec : ItemLoopSpec item item.startBit [] [] (Loop.iterate (.deflate .outOfFuel)
      (Unbounded.itemRound item scratch) (8 * item.bytes.length + 1)
      ⟨item.startBit, chunkOf [], []⟩) :=
    itemLoopSpec_iterate (by omega)
  unfold Unbounded.decodeItem
  rw [show (⟨[], []⟩ : SpeculativeChunk) = chunkOf [] from rfl]
  revert hspec
  cases Loop.iterate (.deflate .outOfFuel) (Unbounded.itemRound item scratch)
    (8 * item.bytes.length + 1)
    ⟨item.startBit, chunkOf [], []⟩ with
  | error err => exact id
  | ok res =>
    obtain ⟨finalBlock, s⟩ := res
    rintro ⟨r, hrun, rfl, hchunk, hboundaries⟩
    refine ⟨r, hrun, ?_⟩
    simp only [decodedTo, hchunk, hboundaries, List.nil_append]

/-- What a worker makes of an item is a run over it. -/
theorem Unbounded.Work.itemRun {d : DecodeResult} (h : Unbounded.Work item (.ok d)) :
    ∃ r, ItemRun 0 item item.startBit [] r ∧ d = decodedTo item r := by
  obtain ⟨scratch, h⟩ := h
  have hspec := itemSpec_decodeItem item scratch
  rwa [h] at hspec

/-- What the buffer of a worker holds does not change a result. -/
theorem Unbounded.Work.unique {d d' : DecodeResult} (h : Unbounded.Work item (.ok d))
    (h' : Unbounded.Work item (.ok d')) :
    d = d' := by
  obtain ⟨r, hrun, rfl⟩ := h.itemRun
  obtain ⟨r', hrun', rfl⟩ := h'.itemRun
  rw [hrun.unique hrun']

/-- An item that can be decoded with room behind it does not fail. -/
theorem Unbounded.Work.of_itemRun {res : Except Error DecodeResult}
    (h : ItemRun 48 item item.startBit [] r)
    (hwork : Unbounded.Work item res) : res = .ok (decodedTo item r) := by
  obtain ⟨scratch, rfl⟩ := hwork
  have hspec := itemSpec_decodeItem item scratch
  cases hres : Unbounded.decodeItem item scratch with
  | error err =>
    rw [hres] at hspec
    exact absurd h (hspec.2 r)
  | ok d =>
    rw [hres] at hspec
    obtain ⟨r', hrun, rfl⟩ := hspec
    rw [h.unique hrun]

end Spec

end Streaming

end Pipeline

end RustyRapidgzip
