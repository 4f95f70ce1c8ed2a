import RustyRapidgzip.Pipeline.ItemRun
import RustyRapidgzip.Pipeline.Slices
import RustyRapidgzip.Pipeline.Tail

/-!
# Items that start at blocks

An item that starts at a block of the body and was cut at another one, or that goes to the end of
the body, holds what the body holds there: it is decoded, its chunk resolves to the next bytes of
the members, and it ends where the next item starts.
-/

namespace RustyRapidgzip

open LsbBits Reference Lz

namespace Pipeline

namespace Streaming

/-- From a place in it an item goes on to the block of the body that it was cut at, with the first
bits of this one behind it, or to the end of the body. -/
def Fits (body : List UInt8) (item : Item) (stop pos : ℕ) : Prop :=
  (item.isFinalRegion = false ∧
    LeadsTo body (8 * item.baseByte + pos) (8 * item.baseByte + item.endBitHint) ∧
    8 * item.baseByte + item.endBitHint + 48 ≤ 8 * stop) ∨
  (item.isFinalRegion = true ∧ stop = body.length ∧ 8 * body.length < item.endBitHint)

section Fits

variable {body : List UInt8} {item : Item} {stop pos : ℕ} {own tail history : List UInt8}
  {cells : List ℕ} {bytes out : List UInt8} {ts : List Token} {rest : List Bool}

/-- The output of a member behind its own bytes, with the history that a worker does not know. -/
theorem marks_of_expand (hown : own <:+ history) (htail : tail = lastWindow history)
    (hts : ∀ t ∈ ts, CopyBounds t) (hexpand : expand id own ts = some (own ++ out)) :
    ∃ more, Marks ts more ∧ more.map (resolveCell tail) = out.map some := by
  have hctx : Context true [] tail own [] := ⟨rfl, fun _ => ⟨rfl, history, hown, htail⟩, nofun⟩
  obtain ⟨more, hadds, hmore⟩ := adds_of_expand hctx hts hexpand
  exact ⟨more, hadds.2, hmore⟩

/-- The part of a member that an item holds, where it was cut inside the member. -/
theorem Fits.part (hfits : Fits body item stop pos) (hpos : pos < item.endBitHint)
    (hblocks : Blocks 48 (stopAt body (8 * item.baseByte + item.endBitHint))
      ((bits body).drop (8 * item.baseByte + pos)) false ts rest) :
    item.isFinalRegion = false ∧
      8 * body.length - rest.length = 8 * item.baseByte + item.endBitHint ∧
      8 * item.baseByte + item.endBitHint + 48 ≤ 8 * stop := by
  rcases hfits with ⟨hregion, hleads, hroom⟩ | ⟨-, -, hhint⟩
  · exact ⟨hregion, (leadsTo_of_blocks hblocks rfl hleads (by omega)).1 rfl, hroom⟩
  · have hstop := stop_of_blocks hblocks rfl
    rw [stopAt, decide_eq_true_eq] at hstop
    omega

/-- What follows a member that ends before the item does: the next one, which the item goes on
with, or the end of the body. -/
theorem Fits.follows (hfits : Fits body item stop pos) (hpos : pos < item.endBitHint)
    (hblocks : Blocks 48 (stopAt body (8 * item.baseByte + item.endBitHint))
      ((bits body).drop (8 * item.baseByte + pos)) true ts rest) {trailer : Trailer}
    (htrailer : trailerAt body (8 * body.length - rest.length) = .ok trailer)
    {members : List (List Token × Trailer)} (hfollows : Follows body trailer members)
    (hstop : stop ≤ body.length) : trailer.trailerInputByte + 8 ≤ stop ∧
      ((members = [] ∧ nextMember body trailer = .ok none ∧ item.isFinalRegion = true ∧
          stop = body.length) ∨
        ∃ start, nextMember body trailer = .ok (some start) ∧ BodyParse body start members ∧
          start ≤ 8 * stop ∧ ∀ start', start = 8 * item.baseByte + start' →
            Fits body item stop start') := by
  rcases hfits with ⟨hregion, hleads, hroom⟩ | ⟨hregion, rfl, hhint⟩
  · obtain ⟨trailer', start, htrailer', hnext, hleads'⟩ :=
      (leadsTo_of_blocks hblocks rfl hleads (by omega)).2 rfl
    rw [htrailer] at htrailer'
    cases htrailer'
    have hle := hleads'.le
    have hstart := (nextMember_some hnext).1
    rcases hfollows with ⟨-, hnone⟩ | ⟨_, hnext', hbody⟩
    · rw [hnext] at hnone
      cases hnone
    · rw [hnext] at hnext'
      cases hnext'
      refine ⟨by omega, Or.inr ⟨start, hnext, hbody, by omega, ?_⟩⟩
      rintro start' rfl
      exact Or.inl ⟨hregion, hleads', hroom⟩
  · refine ⟨?_, ?_⟩
    · obtain ⟨hbyte, hroom⟩ := trailerAt_ok htrailer
      omega
    · rcases hfollows with ⟨rfl, hnone⟩ | ⟨start, hnext, hbody⟩
      · exact Or.inl ⟨rfl, hnone, hregion, rfl⟩
      · refine Or.inr ⟨start, hnext, hbody, (nextMember_some hnext).2, fun _ _ => ?_⟩
        exact Or.inr ⟨hregion, rfl, hhint⟩

/-- An item that starts at a block is decoded, and holds the next bytes. -/
theorem exists_itemRun (hslice : Slice body item.baseByte stop item.bytes)
    {members : List (List Token × Trailer)} {outs : List (List UInt8 × Trailer)}
    (hbody : BodyParse body (8 * item.baseByte + pos) members) (hexpands : Expands own members outs)
    (hown : own <:+ history) (htail : tail = lastWindow history)
    (hcells : cells.map (resolveCell tail) = bytes.map some) (hfits : Fits body item stop pos) :
    ∃ r more own' outs', ItemRun 48 item pos cells r ∧
      Advances body tail own bytes outs r more own' outs' ∧ r.finalBlock = item.isFinalRegion ∧
      (r.finalBlock = false → r.endBit = 8 * item.baseByte + item.endBitHint) := by
  induction members generalizing pos cells own bytes outs with
  | nil => exact absurd rfl hbody.ne_nil
  | cons member members ih =>
    obtain ⟨ts, trailer⟩ := member
    have hlength := hslice.length_eq
    have hbase := hslice.base_le
    have hstop := hslice.stop_le
    by_cases hfull : item.endBitHint ≤ pos
    · rcases hfits with ⟨hregion, hleads, -⟩ | ⟨-, -, hhint⟩
      · have hle := hleads.le
        refine ⟨_, [], own, outs, .full hfull, ⟨by simpa using hcells, ⟨[], ?_, rfl⟩,
          fun _ => ⟨_, hbody, hexpands⟩, fun h => absurd h Bool.false_ne_true⟩, hregion.symm,
          fun _ => ?_⟩
        · simp [cut]
        · simp only
          omega
      · have := pos_le_of_bodyParse hbody
        omega
    rw [Nat.not_le] at hfull
    cases hexpands with
    | @cons _ out _ _ _ outs hexpand hrest =>
    rcases hbody.split (8 * item.baseByte + item.endBitHint) with
      ⟨rest, hblocks, htrailer, hfollows⟩ | ⟨ts₁, ts₂, mid, rfl, hblocks, hbody'⟩
    swap
    · obtain ⟨hregion, hend, hroom⟩ := hfits.part hfull hblocks
      have hmid := blocks_length_le hblocks
      have hpos : pos ≤ 8 * item.bytes.length := by omega
      obtain ⟨mid', hblocks', hmid'⟩ := hslice.blocks hpos hblocks (by omega)
      obtain ⟨out₁, out₂, rfl, hfirst, hsecond⟩ := expand_parts hexpand
      obtain ⟨more, hmarks, hmore⟩ := marks_of_expand hown htail hblocks.bounds hfirst
      refine ⟨_, out₁, own ++ out₁, (out₂, trailer) :: outs, .part hfull hblocks' hmarks,
        ⟨?_, ⟨[], ?_, ?_⟩, fun _ => ?_, fun h => absurd h Bool.false_ne_true⟩, hregion.symm,
        fun _ => ?_⟩
      · simp [hcells, hmore]
      · simp [cut]
      · simp [completed]
      · refine ⟨_, ?_, .cons hsecond hrest⟩
        simp only
        rwa [← hmid']
      · simp only
        omega
    obtain ⟨htrailerRoom, hfollows'⟩ := hfits.follows hfull hblocks htrailer hfollows hstop
    have hrest' := blocks_length_le hblocks
    have hbyte := (trailerAt_ok htrailer).1
    have hpos : pos ≤ 8 * item.bytes.length := by
      have := hblocks.length_lt
      rw [List.length_drop, bits_length] at this
      omega
    obtain ⟨rest', hblocks', hend⟩ := hslice.blocks hpos hblocks (by omega)
    obtain ⟨more, hmarks, hmore⟩ := marks_of_expand hown htail hblocks.bounds hexpand
    rw [hend] at htrailer
    obtain ⟨trailer', htrailer', hsame⟩ := hslice.trailerAt htrailer htrailerRoom
    have hboundary (n : ℕ) : (item.boundary trailer' n).toTrailer = trailer := hsame.symm
    have hoffset (n : ℕ) : (item.boundary trailer' n).byteOffsetInChunk = n := rfl
    have hbyte' := congrArg Trailer.trailerInputByte hsame
    have hcells' : (cells ++ more).map (resolveCell tail) = (bytes ++ out).map some := by
      rw [List.map_append, List.map_append, hcells, hmore]
    have hlengthCells : (cells ++ more).length = bytes.length + out.length := by
      simpa using congrArg List.length hcells'
    have htake (later : List UInt8) : ((bytes ++ (out ++ later)).drop bytes.length).take
        ((cells ++ more).length - bytes.length) = out := by
      rw [List.drop_left, hlengthCells, Nat.add_sub_cancel_left, List.take_left]
    rcases hfollows' with ⟨rfl, hnext, hregion, rfl⟩ | ⟨start, hnext, hbody', hstart, hfits'⟩
    · cases hrest
      have hend := nextMember_none hnext
      have hnext' : nextMember item.bytes trailer' = .ok none := by
        refine nextMember_eq_none (List.drop_eq_nil_iff.mpr ?_)
        simp only at hbyte'
        omega
      refine ⟨_, out, [], [], .last hfull hblocks' hmarks htrailer' hnext',
        ⟨hcells', ⟨[(own ++ out, trailer)], ?_, ?_⟩, fun hfinal => ?_, fun _ => ⟨rfl, rfl⟩⟩, rfl,
        fun hfinal => ?_⟩
      · have h := htake []
        rw [List.append_nil] at h
        simp only [List.map_cons, List.map_nil, cut, hboundary, hoffset, List.nil_append, h]
        rw [List.drop_of_length_le (by rw [List.length_append]; omega)]
      · simp [completed]
      · rw [hregion] at hfinal
        cases hfinal
      · rw [hregion] at hfinal
        cases hfinal
    · obtain ⟨start', hnext', rfl⟩ := hslice.nextMember hbyte' hnext hstart
      obtain ⟨r, later, own', outs', hrun, hadvances, hfinal, hend⟩ := @ih start' [] (cells ++ more)
        (bytes ++ out) outs hbody' hrest (List.nil_suffix) hcells' (hfits' _ rfl)
      obtain ⟨segments, hcut, hcompleted⟩ := hadvances.completes
      have hbytes := hadvances.bytes_eq
      rw [List.append_assoc] at hcut hbytes
      refine ⟨_, out ++ later, own', outs', .next hfull hblocks' hmarks htrailer' hnext' hrun,
        ⟨hbytes, ⟨(own ++ out, trailer) :: segments, ?_, ?_⟩, hadvances.goes_on, hadvances.ends⟩,
          hfinal,
        hend⟩
      · rw [List.length_append, ← hlengthCells] at hcut
        simp only [List.map_cons, cut, hboundary, hoffset, htake, hcut]
      · have hempty : completed [] outs = outs := by
          cases outs <;> simp [completed]
        rw [hempty] at hcompleted
        simp [completed, hcompleted]

end Fits

end Streaming

end Pipeline

end RustyRapidgzip
