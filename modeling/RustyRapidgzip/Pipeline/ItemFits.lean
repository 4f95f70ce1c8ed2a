import RustyRapidgzip.Deflate.ShortInput
import RustyRapidgzip.Pipeline.ItemRun

/-!
# Items that fit

A worker of the streaming decoder decodes every member of an item speculatively, and hands off to
the preload kernel in each. It decodes an item as it would over an unbounded output, unless some
member of it runs off the chunk's vector.
-/

namespace RustyRapidgzip

open LsbBits Stop

namespace Pipeline

namespace Streaming

/-- The loop's state without the capacity. -/
def ItemState.unbounded (s : ItemState VecChunk) : ItemState SpeculativeChunk :=
  ⟨s.pos, s.chunk.unbounded, s.memberBoundaries⟩

/-- The member that the loop comes to next fits behind the bytes of the chunk. -/
def NextFits (build : Build) (capacity : ℕ → ℕ) (item : Item) (scratch : List ℕ)
    (s : ItemState VecChunk) : Prop :=
  s.pos < item.endBitHint →
    Speculative.UntilFits build (capacity s.memberBoundaries.length) item.bytes s.pos
      item.endBitHint s.chunk scratch

/-- Every member of the item fits that the loop comes to. -/
def MembersFit (build : Build) (capacity : ℕ → ℕ) (item : Item) (scratch : List ℕ) : Prop :=
  ∀ s, Comes (itemRound build capacity item scratch)
      ⟨item.startBit, VecChunk.fresh item.reserveBytes, []⟩ s →
    NextFits build capacity item scratch s

/-- The item fits, whatever buffers the worker has. -/
def Item.Fits (build : Build) (item : Item) : Prop :=
  ∀ capacity scratch, MembersFit build capacity item scratch

section Tracks

variable {build : Build} {capacity : ℕ → ℕ} {item : Item} {scratch : List ℕ}

/-- The end of a member does not look at the capacity. -/
theorem endItemMember_unbounded (item : Item) (len : ℕ) (s : ItemState VecChunk) :
    endItemMember item len s.unbounded =
      (endItemMember item len s).map
        (Sum.map ItemState.unbounded (Prod.map id ItemState.unbounded)) := by
  unfold endItemMember
  rw [show s.unbounded.pos = s.pos from rfl]
  simp only
  split
  · rfl
  split
  · rfl
  split
  · rfl
  cases Gzip.parseHeader (item.bytes.drop ((s.pos + 7) / 8 + 8)) <;> rfl

/-- A round does what it does over an unbounded output, unless it faults. -/
theorem tracks_itemRound (s : ItemState VecChunk) :
    Tracks (Sum.map ItemState.unbounded (Prod.map id ItemState.unbounded))
      (itemRound build capacity item scratch s)
      (Unbounded.itemRound item scratch s.unbounded) := by
  unfold itemRound Unbounded.itemRound
  rw [show s.unbounded.pos = s.pos from rfl]
  by_cases hfull : item.endBitHint ≤ s.pos
  · rw [if_pos hfull, if_pos hfull]
    exact .ok (Sum.inr (false, s))
  rw [if_neg hfull, if_neg hfull]
  refine ((Speculative.tracks_decodeUntilU16 item.bytes s.pos item.endBitHint s.chunk
    scratch).map_error Error.deflate).bind ?_
  rintro ⟨⟨endBit, hitBfinal⟩, chunk⟩ -
  cases hitBfinal with
  | false => exact .ok (Sum.inr (false, ItemState.mk endBit chunk s.memberBoundaries))
  | true =>
    have hend := endItemMember_unbounded item chunk.bytes.bytes.length
      (ItemState.mk endBit chunk s.memberBoundaries)
    have htracks := tracks_lift (Sum.map ItemState.unbounded (Prod.map id ItemState.unbounded))
      (endItemMember item chunk.bytes.bytes.length
        (ItemState.mk endBit chunk s.memberBoundaries))
    rwa [← hend] at htracks

/-- A round faults exactly where the next member does not fit. -/
theorem itemRound_eq_fault_iff (s : ItemState VecChunk) :
    itemRound build capacity item scratch s = .error .fault ↔
      ¬NextFits build capacity item scratch s := by
  unfold itemRound NextFits
  by_cases hfull : item.endBitHint ≤ s.pos
  · rw [if_pos hfull]
    exact ⟨nofun, fun h => absurd (fun hpos => absurd hfull (Nat.not_le.mpr hpos)) h⟩
  rw [if_neg hfull, bind_eq_fault, mapError_eq_fault, Speculative.decodeUntilU16_eq_fault_iff]
  simp only [Nat.not_le.mp hfull, forall_const]
  apply or_iff_left
  rintro ⟨⟨⟨endBit, hitBfinal⟩, chunk⟩, -, hrest⟩
  cases hitBfinal with
  | false => cases hrest
  | true => exact lift_ne_fault _ hrest

/-- A worker decodes an item as over an unbounded output, unless it faults. -/
theorem tracks_decodeItem (item : Item) :
    Tracks id (decodeItem build capacity item scratch) (Unbounded.decodeItem item scratch) := by
  unfold decodeItem Unbounded.decodeItem
  exact (tracks_iterate (fun s => tracks_itemRound s) (8 * item.bytes.length + 1)
    ⟨item.startBit, VecChunk.fresh item.reserveBytes, []⟩).bind fun a _ =>
      .ok (DecodeResult.mk item.id a.2.chunk.unbounded a.1 a.2.memberBoundaries)

/-- The rounds do not run out. -/
theorem iterate_itemRound_ne_outOfFuel (item : Item) (scratch : List ℕ) :
    Loop.iterate (.deflate .outOfFuel) (Unbounded.itemRound item scratch)
        (8 * item.bytes.length + 1)
        (ItemState.unbounded ⟨item.startBit, VecChunk.fresh item.reserveBytes, []⟩) ≠
      .error (.deflate .outOfFuel) := by
  intro h
  have hspec : ItemLoopSpec item item.startBit [] [] (Loop.iterate (.deflate .outOfFuel)
      (Unbounded.itemRound item scratch) (8 * item.bytes.length + 1)
      ⟨item.startBit, chunkOf [], []⟩) := itemLoopSpec_iterate (by omega)
  rw [show (⟨item.startBit, chunkOf [], []⟩ : ItemState SpeculativeChunk) =
    ItemState.unbounded ⟨item.startBit, VecChunk.fresh item.reserveBytes, []⟩ from rfl, h] at hspec
  exact hspec.1 rfl

/-- A worker runs off the item's vector exactly where some member does not fit. -/
theorem decodeItem_eq_fault_iff (item : Item) :
    decodeItem build capacity item scratch = .error .fault ↔
      ¬MembersFit build capacity item scratch := by
  have hloop := Tracks.iterate_eq_fault_iff
    (fun s => @tracks_itemRound build capacity _ _ s)
    (iterate_itemRound_ne_outOfFuel item scratch)
  have hfault : (∃ s, Comes (itemRound build capacity item scratch)
        ⟨item.startBit, VecChunk.fresh item.reserveBytes, []⟩ s ∧
      itemRound build capacity item scratch s = .error .fault) ↔
      ¬MembersFit build capacity item scratch := by
    simp only [itemRound_eq_fault_iff, MembersFit, not_forall, exists_prop]
  rw [← hfault, ← hloop]
  exact bind_eq_fault_of_total fun _ => ok_ne_fault _

/-- The items of a short slice fit. -/
theorem Item.fits_of_short (build : Build) (hshort : item.bytes.length ≤ 63) : item.Fits build :=
  fun _ _ _ _ _ => Speculative.untilFits_of_short build _ hshort _ _ _ _

/-- What is decoded without a fault is what is decoded over an unbounded output. -/
theorem work_of_eq_lift {r : Except Error DecodeResult}
    (h : decodeItem build capacity item scratch = lift r) : Unbounded.Work item r := by
  have htracks := @tracks_decodeItem build capacity scratch item
  rw [h] at htracks
  refine ⟨scratch, ?_⟩
  cases r with
  | ok d => exact htracks.ok_eq rfl
  | error e => exact htracks.error_eq rfl

/-- An item that fits is decoded as over an unbounded output. -/
theorem Item.Fits.work {r : Except Error DecodeResult} (hfits : item.Fits build)
    (h : Work build item r) : Unbounded.Work item r := by
  rcases h with ⟨_, _, hrun⟩ | ⟨⟨capacity, scratch, hfault⟩, -⟩
  · exact work_of_eq_lift hrun
  · exact absurd (hfits capacity scratch) ((decodeItem_eq_fault_iff item).mp hfault)

/-- What a worker hands on carries the number of its item. -/
theorem Work.id_eq {d : DecodeResult} (h : Work build item (.ok d)) : d.id = item.id := by
  rcases h with ⟨_, _, hrun⟩ | ⟨-, hid⟩
  · obtain ⟨r, -, rfl⟩ := (work_of_eq_lift hrun).itemRun
    rfl
  · exact hid d rfl

/-- A worker hands on something for every item. -/
theorem Work.total (build : Build) (item : Item) : ∃ r, Work build item r := by
  cases hrun : decodeItem build (fun _ => 0) item [] with
  | ok d => exact ⟨.ok d, Or.inl ⟨_, [], hrun⟩⟩
  | error e =>
    cases e with
    | fault => exact ⟨.error (.io ""), Or.inr ⟨⟨_, [], hrun⟩, nofun⟩⟩
    | error e => exact ⟨.error e, Or.inl ⟨_, [], hrun⟩⟩

end Tracks

end Streaming

end Pipeline

end RustyRapidgzip
