import RustyRapidgzip.Backend.Member
import RustyRapidgzip.Deflate.Frame
import RustyRapidgzip.Deflate.ShortInput

/-!
# The libdeflate backend

libdeflate decodes a stream to its final block and reports the bytes it used up. A member
that ends before the hint is taken from it; any other one is decoded again by the preload
kernel, which can stop between blocks. On a valid member nothing of this shows, as long as the
preload kernel does not run off its vector: alone, it has the vector as it was, and behind the
backend the one that has grown for the member.
-/

namespace RustyRapidgzip

open LsbBits Reference Lz FastInflate

namespace Backend

namespace Libdeflate

/-- The results of a call. The last one stands for every other code. -/
inductive Decompressed where
  | success (inUsed : ℕ) (made : List UInt8)
  | insufficientSpace
  | badData

/-- `libdeflate_deflate_decompress_ex`: the input and the room of the output. -/
abbrev Engine : Type := List UInt8 → ℕ → Decompressed

/-- One call, for the member at a byte. -/
def attempt (engine : Engine) (bytePos : ℕ) (input : List UInt8) (room : ℕ) : Attempt :=
  match engine input room with
  | .success inUsed made => .success ((bytePos + inUsed) * 8) made
  | .insufficientSpace => .overflow
  | .badData => .failure "libdeflate decode failed"

/-- Decode the member at a byte-aligned bit. -/
def decodeMember (grow : Reserve) (engine : Engine) (rounds : ℕ) (body : List UInt8)
    (startBit endBitHint : ℕ) (out : OutVec) : Except DeflateError (Outcome × OutVec) :=
  Backend.decodeMember grow (attempt engine) rounds body startBit endBitHint out

/-- Decode a later member of a chunk. -/
def decodeSubsequentMember (build : Build) (engine : Engine) (rounds : ℕ) (body : List UInt8)
    (pos endBitHint : ℕ) (out : OutVec) :
    Except (Stop DeflateError) ((ℕ × Bool) × OutVec) :=
  Backend.decodeSubsequentMember build (decodeMember build.grow engine rounds) body pos endBitHint
    out

/-- The engine decodes a stream of `input` that makes `made` and ends in its first `used`
bytes: with room for the output it succeeds, with less it says so. -/
def Decodes (engine : Engine) (input : List UInt8) (used : ℕ) (made : List UInt8) : Prop :=
  ∀ room, engine input room =
    if made.length ≤ room then .success used made else .insufficientSpace

/-- The engine that follows the format. -/
def reference : Engine := fun input room =>
  match Reference.inflate input [] with
  | none => .badData
  | some (e, made) =>
    if made.length ≤ room then .success ((e + 7) / 8) made else .insufficientSpace

/-- An engine that decodes by the reference meets the documentation. -/
theorem decodes_reference {input made : List UInt8} {e : ℕ}
    (h : Reference.inflate input [] = some (e, made)) :
    Decodes reference input ((e + 7) / 8) made := by
  intro room
  simp only [reference, h]

/-- An attempt succeeds exactly where its room holds the output. -/
theorem attempt_eq {engine : Engine} {input made : List UInt8} {used : ℕ} (bytePos : ℕ)
    (h : Decodes engine input used made) (room : ℕ) : attempt engine bytePos input room =
      if made.length ≤ room then .success ((bytePos + used) * 8) made else .overflow := by
  unfold attempt
  rw [h room]
  by_cases hroom : made.length ≤ room
  · rw [if_pos hroom, if_pos hroom]
  · rw [if_neg hroom, if_neg hroom]

/-- An attempt needs as much room as the output has. -/
theorem needs_attempt {engine : Engine} {input made : List UInt8} {used : ℕ} (bytePos : ℕ)
    (h : Decodes engine input used made) :
    Needs (attempt engine bytePos input) id made.length where
  success room hroom := ⟨_, _, (attempt_eq bytePos h room).trans (if_pos hroom)⟩
  overflow room hroom := (attempt_eq bytePos h room).trans (if_neg (Nat.not_le.mpr hroom))

end Libdeflate

/-! ## Valid members -/

section Valid

variable {body o : List UInt8} {pos e : ℕ}

/-- The blocks of a valid member, with the trailer behind them. -/
theorem blocks_of_inflate (hpos : pos % 8 = 0)
    (hvalid : Reference.inflate (body.drop (pos / 8)) [] = some (e, o))
    (htrailer : pos / 8 + (e + 7) / 8 + 8 ≤ body.length) :
    ∃ ts rest, Blocks 48 (fun _ => false) ((bits body).drop pos) true ts rest ∧
      expand id [] ts = some o ∧ pos + e + rest.length = 8 * body.length ∧ 48 ≤ rest.length := by
  obtain ⟨ts, rest, hstream, hexpand, he⟩ := inflate_iff.mp hvalid
  rw [bits_drop, show 8 * (pos / 8) = pos by omega] at hstream
  rw [List.length_drop] at he
  have hrest : pos + e + rest.length = 8 * body.length := by omega
  have hroom : 48 ≤ rest.length := by omega
  exact ⟨ts, rest, hstream.of_rest hroom, hexpand, hrest, hroom⟩

/-- Over an unbounded output the preload kernel decodes a valid member, up to its end or to a block
end at or past the hint and before it. -/
theorem preload_of_inflate (hpos : pos % 8 = 0)
    (hvalid : Reference.inflate (body.drop (pos / 8)) [] = some (e, o))
    (htrailer : pos / 8 + (e + 7) / 8 + 8 ≤ body.length) (endBitHint : ℕ) (out : List UInt8) :
    Unbounded.decodeMemberU8Preload body pos endBitHint out = .ok ((pos + e, true), out ++ o) ∨
      ∃ mid made,
        Unbounded.decodeMemberU8Preload body pos endBitHint out = .ok ((mid, false), made) ∧
          endBitHint ≤ mid ∧ mid < pos + e := by
  obtain ⟨ts, rest, hblocks, hexpand, hend, hroom⟩ := blocks_of_inflate hpos hvalid htrailer
  have hspec := memberSpec_memberWith Unbounded.decodesBlocks_decodeOneBlockPreload body pos
    endBitHint out
  have hexpand' := expand_append_left out hexpand
  rw [List.append_nil] at hexpand'
  rcases hblocks.split (stopAt body endBitHint) (fun _ => rfl) with
    hfinal | ⟨ts₁, mid, ts₂, hpart, htail, rfl⟩
  · left
    have hwhole : MemberSpec 48 48 body pos endBitHint out (.ok ((pos + e, true), out ++ o)) :=
      ⟨by omega, ts, rest, hfinal, hend, hexpand'⟩
    exact hwhole.transfer hspec (Or.inl le_rfl)
  · right
    have hstop := stop_of_blocks hpart rfl
    rw [stopAt, decide_eq_true_eq] at hstop
    have hlt := htail.length_lt
    have hle := hpart.length_lt
    rw [List.length_drop, bits_length] at hle
    rw [expand_append, Option.bind_eq_some_iff] at hexpand'
    obtain ⟨made, hmade, -⟩ := hexpand'
    refine ⟨8 * body.length - mid.length, made, ?_, hstop, by omega⟩
    have hwhole : MemberSpec 48 48 body pos endBitHint out
        (.ok ((8 * body.length - mid.length, false), made)) :=
      ⟨by omega, ts₁, mid, hpart, by omega, hmade⟩
    exact hwhole.transfer hspec (Or.inl le_rfl)

end Valid

/-- Where a chunk goes on after a member: at the block end, or at the byte after the final
block. -/
def continueAt (body : List UInt8) (newEnd : ℕ) (hitBfinal : Bool) : Except DeflateError ℕ := do
  let br ← (BitReader.new body).seekToBit newEnd
  .ok (if hitBfinal then br.byteAlign.tellBit else br.tellBit)

/-- The next member starts behind the one that was decoded. -/
theorem continueAt_eq {body : List UInt8} {newEnd : ℕ} (h : newEnd ≤ 8 * body.length)
    (hitBfinal : Bool) : continueAt body newEnd hitBfinal =
      .ok (if hitBfinal then (newEnd + 7) / 8 * 8 else newEnd) := by
  obtain ⟨br, hseek, hreads, -⟩ := (BitReader.new body).seekToBit_ok
    (show newEnd ≤ 8 * (BitReader.new body).input.length from h)
  have hreads' : br.Reads body newEnd := hreads
  simp only [continueAt, bind, Except.bind, hseek, hreads'.tellBit_eq,
    hreads'.byteAlign.tellBit_eq]

namespace Libdeflate

/-- The backend and the preload kernel alone give the same bytes, the same flag and the same place
to go on from. -/
def SameResult (build : Build) (engine : Engine) (rounds : ℕ) (body : List UInt8)
    (pos endBitHint : ℕ) (out : OutVec) : Prop :=
  ∃ end₁ end₂ hitBfinal out₁ out₂ next,
    decodeSubsequentMember build engine rounds body pos endBitHint out =
      .ok ((end₁, hitBfinal), out₁) ∧
    Preload.decodeMemberU8Preload build body pos endBitHint out =
      .ok ((end₂, hitBfinal), out₂) ∧
    out₁.bytes = out₂.bytes ∧
    continueAt body end₁ hitBfinal = .ok next ∧ continueAt body end₂ hitBfinal = .ok next

section Same

variable {build : Build} {engine : Engine} {body o : List UInt8} {pos endBitHint e rounds : ℕ}
  {out : OutVec}

/-- What the backend does with a valid member: it takes it from the engine, or hands it to the
preload kernel with the vector that has grown for it. -/
theorem decodeSubsequentMember_eq (build : Build) (endBitHint : ℕ) (out : OutVec)
    (hbyte : pos / 8 < body.length) {used : ℕ}
    (hengine : Decodes engine (body.drop (pos / 8)) used o)
    (hrounds : o.length < rounds) :
    decodeSubsequentMember build engine rounds body pos endBitHint out =
      if endBitHint < (pos / 8 + used) * 8 then
        Preload.decodeMemberU8Preload build body pos endBitHint (grown build.grow out o.length)
      else .ok (((pos / 8 + used) * 8, true), commit (grown build.grow out o.length) o) := by
  have hroom := Nat.find_spec (exists_le_roomAt build.grow out o.length)
  have hover : ∀ i < firstRetry build.grow out o.length,
      attempt engine (pos / 8) (body.drop (pos / 8)) (roomAt build.grow out i) = .overflow := by
    intro i hi
    exact (needs_attempt (pos / 8) hengine).overflow _
      (Nat.lt_of_not_le (Nat.find_min (exists_le_roomAt build.grow out o.length) hi))
  have hfirst := firstRetry_le build.grow out o.length
  have hdecode := decodeMember_retry build.grow (attempt engine) endBitHint out hbyte hover
    ((attempt_eq (pos / 8) hengine _).trans (if_pos hroom))
    (show firstRetry build.grow out o.length < rounds by omega)
  simp only [decodeSubsequentMember, Backend.decodeSubsequentMember, decodeMember, hdecode]
  by_cases hhint : endBitHint < (pos / 8 + used) * 8
  · rw [if_pos hhint, if_pos hhint]
    rfl
  · rw [if_neg hhint, if_neg hhint]
    rfl

/-- Where both decoders have room, they give the same. -/
theorem sameResult_of_memberFits (hpos : pos % 8 = 0)
    (hvalid : Reference.inflate (body.drop (pos / 8)) [] = some (e, o))
    (hengine : Decodes engine (body.drop (pos / 8)) ((e + 7) / 8) o)
    (htrailer : pos / 8 + (e + 7) / 8 + 8 ≤ body.length) (hrounds : o.length < rounds)
    (halone : Preload.MemberFits build body pos endBitHint out)
    (hgrown : endBitHint < (pos / 8 + (e + 7) / 8) * 8 →
      Preload.MemberFits build body pos endBitHint (grown build.grow out o.length)) :
    SameResult build engine rounds body pos endBitHint out := by
  have hbackend := decodeSubsequentMember_eq build endBitHint out (by omega) hengine hrounds
  have hpreload := preload_of_inflate hpos hvalid htrailer endBitHint out.bytes
  by_cases hhint : endBitHint < (pos / 8 + (e + 7) / 8) * 8
  · -- the member goes on past the hint, and both times the preload kernel decodes it
    rw [if_pos hhint] at hbackend
    have hsame {newEnd : ℕ} {hitBfinal : Bool} {res : List UInt8}
        (hend : newEnd ≤ 8 * body.length)
        (hok : Unbounded.decodeMemberU8Preload body pos endBitHint out.bytes =
          .ok ((newEnd, hitBfinal), res)) :
        SameResult build engine rounds body pos endBitHint out := by
      obtain ⟨out₂, halone', hbytes₂⟩ := Preload.exists_of_memberFits halone hok
      rw [← @grown_bytes build.grow out o.length] at hok
      obtain ⟨out₁, hgrown', hbytes₁⟩ := Preload.exists_of_memberFits (hgrown hhint) hok
      exact ⟨newEnd, newEnd, hitBfinal, out₁, out₂, _, hbackend.trans hgrown', halone',
        hbytes₁.trans hbytes₂.symm, continueAt_eq hend _, continueAt_eq hend _⟩
    rcases hpreload with hok | ⟨mid, made, hok, -, hmid⟩
    · exact hsame (by omega) hok
    · exact hsame (by omega) hok
  · rw [if_neg hhint] at hbackend
    rcases hpreload with hok | ⟨mid, made, -, hstop, hmid⟩
    · obtain ⟨out₂, halone', hbytes₂⟩ := Preload.exists_of_memberFits halone hok
      refine ⟨_, _, true, _, out₂, _, hbackend, halone', ?_, continueAt_eq (by omega) true, ?_⟩
      · rw [hbytes₂, commit, OutVec.ofBytes_bytes, grown_bytes]
      · rw [continueAt_eq (by omega) true]
        simp only [if_true, Except.ok.injEq]
        omega
    · -- every block end before the final one is before the hint
      omega

end Same

/-- On a valid member with its trailer, the backend and the preload kernel alone give the same
exactly where the member fits: in the vector as it is, for the kernel alone, and in the vector that
has grown for the member, if it goes on past the hint. -/
theorem decodeSubsequentMember_preload_iff (build : Build) (engine : Engine) (body : List UInt8)
    (pos endBitHint : ℕ) (out : OutVec) (e : ℕ) (o : List UInt8) (rounds : ℕ)
    (hpos : pos % 8 = 0)
    (hvalid : Reference.inflate (body.drop (pos / 8)) [] = some (e, o))
    (hengine : Decodes engine (body.drop (pos / 8)) ((e + 7) / 8) o)
    (htrailer : pos / 8 + (e + 7) / 8 + 8 ≤ body.length) (hrounds : o.length < rounds) :
    SameResult build engine rounds body pos endBitHint out ↔
      Preload.MemberFits build body pos endBitHint out ∧
        (endBitHint < (pos / 8 + (e + 7) / 8) * 8 →
          Preload.MemberFits build body pos endBitHint (grown build.grow out o.length)) := by
  have hfault (v : OutVec) :=
    @Preload.decodeMemberU8Preload_eq_fault_iff build body pos endBitHint v
  constructor
  · rintro ⟨end₁, end₂, hitBfinal, out₁, out₂, next, hbackend, halone, -, -, -⟩
    constructor
    · by_contra hover
      rw [(hfault out).mpr hover] at halone
      cases halone
    · intro hhint
      by_contra hover
      rw [decodeSubsequentMember_eq build endBitHint out (by omega) hengine hrounds, if_pos hhint,
        (hfault _).mpr hover] at hbackend
      cases hbackend
  · rintro ⟨halone, hgrown⟩
    exact sameResult_of_memberFits hpos hvalid hengine htrailer hrounds halone hgrown

/-- The stream of the member that overruns. -/
theorem inflate_overrunMember :
    Reference.inflate Preload.overrunMember [] = some (240, List.replicate 4098 0) := by
  rw [inflate_iff]
  exact ⟨_, _, .final (Preload.overrunMember_block.mono (Nat.zero_le 48)),
    Preload.overrunMember_expand, rfl⟩

/-- The backend decodes the member into an empty vector, which grows to 16 MiB for it. The preload
kernel alone runs off the 4096 bytes that it reserves. -/
theorem overrunMember_differs :
    Reference.inflate Preload.overrunMember [] = some (240, List.replicate 4098 0) ∧
    (∃ out, decodeSubsequentMember narrow16 reference 4099 Preload.overrunMember 0 240
        (OutVec.ofBytes [] 0) = .ok ((240, true), out) ∧ out.bytes = List.replicate 4098 0) ∧
    Preload.decodeMemberU8Preload narrow16 Preload.overrunMember 0 240 (OutVec.ofBytes [] 0) =
      .error .fault ∧
    ¬SameResult narrow16 reference 4099 Preload.overrunMember 0 240 (OutVec.ofBytes [] 0) := by
  have hrounds : (List.replicate 4098 (0 : UInt8)).length < 4099 := by
    rw [List.length_replicate]
    decide
  have hbackend := decodeSubsequentMember_eq narrow16 240 (OutVec.ofBytes [] 0)
    (show 0 / 8 < Preload.overrunMember.length by decide) (decodes_reference inflate_overrunMember)
    hrounds
  have hfault := (Preload.decodeMemberU8Preload_eq_fault_iff Preload.overrunMember 0 240 _).mpr
    (Preload.overrunMember_cases 240).2.1
  refine ⟨inflate_overrunMember, ⟨_, hbackend.trans (if_neg (by decide)), ?_⟩, hfault, ?_⟩
  · rw [commit, OutVec.ofBytes_bytes, grown_bytes]
    rfl
  · rintro ⟨_, _, _, _, _, _, -, halone, -⟩
    rw [hfault] at halone
    cases halone

/-- A member that the backend takes from its engine, the same one where it goes on past the hint,
and one that overruns. -/
theorem decodeSubsequentMember_preload_iff_overrunMember :
    SameResult narrow16 reference 7 fixedCopy 0 40 (OutVec.ofBytes [7] 1) ∧
    SameResult narrow16 reference 7 fixedCopy 0 0 (OutVec.ofBytes [7] 1) ∧
    ¬SameResult narrow16 reference 4099 Preload.overrunMember 0 240 (OutVec.ofBytes [] 0) := by
  have hvalid := inflate_fixedCopy []
  have hbits : (bits fixedCopy).drop 0 = true :: true :: false :: (bits fixedCopy).drop 3 := by
    decide +kernel
  have hfits := Preload.memberFits_of_plain narrow16 hbits
  have hiff (endBitHint : ℕ) := decodeSubsequentMember_preload_iff narrow16 reference fixedCopy 0
    endBitHint (OutVec.ofBytes [7] 1) 38 _ 7 rfl hvalid (decodes_reference hvalid) (by decide)
    (by decide)
  have hover := decodeSubsequentMember_preload_iff narrow16 reference Preload.overrunMember 0 240
    (OutVec.ofBytes [] 0) 240 (List.replicate 4098 0) 4099 rfl inflate_overrunMember
    (decodes_reference inflate_overrunMember) (by decide)
    (by rw [List.length_replicate]; decide)
  exact ⟨(hiff 40).mpr ⟨hfits _ _, fun _ => hfits _ _⟩,
    (hiff 0).mpr ⟨hfits _ _, fun _ => hfits _ _⟩,
    fun h => (Preload.overrunMember_cases 240).2.1 (hover.mp h).1⟩

end Libdeflate

end Backend

end RustyRapidgzip
