import RustyRapidgzip.Deflate.PreloadMember
import RustyRapidgzip.Deflate.SpeculativeCorrect

/-!
# Speculative decoding into a vector

The speculative decoder starts with cells of 16 bits, which are pushed onto the chunk's vector.
Once the window holds no marker it hands off to the preload kernel, which writes into the vector
through a pointer, and may run off it.
-/

namespace RustyRapidgzip

open LsbBits Reference Lz Stop

/-- A chunk of speculatively decoded output, with its vector. -/
structure VecChunk where
  bytes : OutVec
  markers : List Marker

namespace VecChunk

/-- The chunk without the capacity of its vector. -/
def unbounded (chunk : VecChunk) : SpeculativeChunk := ⟨chunk.bytes.bytes, chunk.markers⟩

/-- A chunk whose vector has been extended. It does not shrink; what it has grown to depends on
the pushes, and on the buffer that it started as. -/
def ofChunk (chunk : SpeculativeChunk) (capacity : ℕ) : VecChunk :=
  ⟨OutVec.ofBytes chunk.bytes capacity, chunk.markers⟩

/-- An empty chunk with reserved bytes. -/
def fresh (capacity : ℕ) : VecChunk := ofChunk ⟨[], []⟩ capacity

/-- Without its capacity a chunk in a vector is the chunk. -/
@[simp] theorem ofChunk_unbounded (chunk : SpeculativeChunk) (capacity : ℕ) :
    (ofChunk chunk capacity).unbounded = chunk := rfl

/-- Without its capacity a fresh vector is an empty chunk. -/
@[simp] theorem fresh_unbounded (capacity : ℕ) : (fresh capacity).unbounded = ⟨[], []⟩ := rfl

end VecChunk

namespace Speculative

/-- Decode speculatively from a bit position up to the final block, or up to the first
block that ends at or after the hint. The result is the end bit, the flag and the chunk. The
vector has the given capacity when the cells are in it, or the one it had. -/
def decodeUntilU16 (build : Build) (capacity : ℕ) (input : List UInt8) (startBit endBitHint : ℕ)
    (chunk : VecChunk) (scratch : List ℕ) :
    Except (Stop DeflateError) ((ℕ × Bool) × VecChunk) := do
  let br ← lift ((BitReader.new input).seekToBit startBit)
  let ((ended, w), br) ← lift (phase1 endBitHint ⟨prepareScratch scratch, 0, 0, chunk.unbounded⟩ br)
  let chunk := VecChunk.ofChunk w.extractAll (max chunk.bytes.capacity capacity)
  match ended with
  | some finalBlock => .ok ((br.tellBit, finalBlock), chunk)
  | none => do
    let ((finalBlock, bytes), br) ← Preload.decodeBlocks build endBitHint chunk.bytes br
    .ok ((br.tellBit, finalBlock), { chunk with bytes := bytes })

/-- The blocks that the preload kernel is handed fit. -/
def UntilFits (build : Build) (capacity : ℕ) (input : List UInt8) (startBit endBitHint : ℕ)
    (chunk : VecChunk) (scratch : List ℕ) : Prop :=
  ∀ br w br', (BitReader.new input).seekToBit startBit = .ok br →
    phase1 endBitHint ⟨prepareScratch scratch, 0, 0, chunk.unbounded⟩ br = .ok ((none, w), br') →
    Preload.BlocksFit build endBitHint
      (VecChunk.ofChunk w.extractAll (max chunk.bytes.capacity capacity)).bytes br'

section Tracks

variable {build : Build} {capacity : ℕ}

/-- Speculative decoding does what it does over an unbounded output, unless it faults. -/
theorem tracks_decodeUntilU16 (input : List UInt8) (startBit endBitHint : ℕ) (chunk : VecChunk)
    (scratch : List ℕ) :
    Tracks (fun r => (r.1, r.2.unbounded))
      (decodeUntilU16 build capacity input startBit endBitHint chunk scratch)
      (Unbounded.decodeUntilU16 input startBit endBitHint chunk.unbounded scratch) := by
  unfold decodeUntilU16 Unbounded.decodeUntilU16
  simp only [bind, Except.bind]
  cases (BitReader.new input).seekToBit startBit with
  | error e => exact .error e
  | ok br =>
    simp only [lift_ok]
    cases phase1 endBitHint ⟨prepareScratch scratch, 0, 0, chunk.unbounded⟩ br with
    | error e => exact .error e
    | ok r =>
      obtain ⟨⟨ended, w⟩, br'⟩ := r
      cases ended with
      | some finalBlock =>
        exact .ok ((br'.tellBit, finalBlock),
          VecChunk.ofChunk w.extractAll (max chunk.bytes.capacity capacity))
      | none =>
        exact (Preload.tracks_decodeBlocks endBitHint (VecChunk.ofChunk w.extractAll
          (max chunk.bytes.capacity capacity)).bytes br').bind fun a _ =>
            .ok ((a.2.tellBit, a.1.1), VecChunk.mk a.1.2 w.extractAll.markers)

/-- Where the first phase ends, the reader stands at bits of the input. -/
theorem exists_at_of_phase1 {input : List UInt8} {endBitHint : ℕ} {chunk : SpeculativeChunk}
    {scratch : ℕ → ℕ} {br br' : BitReader} {bs : List Bool} {ended : Option Bool} {w : Window}
    (hat : br.At input bs)
    (h : phase1 endBitHint ⟨scratch, 0, 0, chunk⟩ br = .ok ((ended, w), br')) :
    ∃ bs', br'.At input bs' := by
  have hstart : (Window.mk scratch 0 0 ⟨[], []⟩).Behind markerPrefix :=
    ⟨[], by simp, Window.Holds.start _⟩
  have hfuel := hat.length_le
  have hphase := phase1Spec_iterate endBitHint hstart isCell_markerPrefix hat
    (show bs.length < 8 * br.input.length + 1 by rw [hat.input_eq]; omega)
  have honto : Window.mk scratch 0 0 chunk = (Window.mk scratch 0 0 ⟨[], []⟩).onto chunk := by
    simp [Window.onto, SpeculativeChunk.onto]
  rw [honto, phase1_onto, phase1] at h
  revert hphase h
  generalize Loop.iterate .outOfFuel (phase1Round endBitHint) (8 * br.input.length + 1)
    (Window.mk scratch 0 0 ⟨[], []⟩, br) = res
  rcases res with e | ⟨⟨_ | f, w'⟩, br₁⟩
  · intro h
    cases h
  · rintro h ⟨mid, _, -, -, hat₁, -⟩
    cases h
    exact ⟨mid, hat₁⟩
  · rintro h ⟨rest, _, -, -, hat₁⟩
    cases h
    exact ⟨rest, hat₁⟩

/-- Speculative decoding faults exactly where a block of the preload kernel does not fit. -/
theorem decodeUntilU16_eq_fault_iff (input : List UInt8) (startBit endBitHint : ℕ)
    (chunk : VecChunk) (scratch : List ℕ) :
    decodeUntilU16 build capacity input startBit endBitHint chunk scratch = .error .fault ↔
      ¬UntilFits build capacity input startBit endBitHint chunk scratch := by
  have hblocks {br br' : BitReader} {w : Window}
      (hseek : (BitReader.new input).seekToBit startBit = .ok br)
      (hphase : phase1 endBitHint ⟨prepareScratch scratch, 0, 0, chunk.unbounded⟩ br =
        .ok ((none, w), br')) :
      Preload.decodeBlocks build endBitHint
          (VecChunk.ofChunk w.extractAll (max chunk.bytes.capacity capacity)).bytes br' =
          .error .fault ↔
        ¬Preload.BlocksFit build endBitHint
          (VecChunk.ofChunk w.extractAll (max chunk.bytes.capacity capacity)).bytes br' := by
    obtain ⟨bs', hat'⟩ := exists_at_of_phase1 (BitReader.at_of_seekToBit hseek).2 hphase
    exact Preload.decodeBlocks_eq_fault_iff endBitHint _ hat'
  unfold decodeUntilU16 UntilFits
  rw [lift_bind_eq_fault]
  simp only [not_forall, exists_prop]
  constructor
  · rintro ⟨br, hseek, hrest⟩
    obtain ⟨⟨⟨ended, w⟩, br'⟩, hphase, hrest⟩ := lift_bind_eq_fault.mp hrest
    cases ended with
    | some finalBlock => exact absurd hrest (ok_ne_fault _)
    | none =>
      have hfault := (bind_eq_fault_of_total fun _ => ok_ne_fault _).mp hrest
      exact ⟨br, w, br', hseek, hphase, (hblocks hseek hphase).mp hfault⟩
  · rintro ⟨br, w, br', hseek, hphase, hover⟩
    refine ⟨br, hseek, lift_bind_eq_fault.mpr ⟨((none, w), br'), hphase, ?_⟩⟩
    exact (bind_eq_fault_of_total fun _ => ok_ne_fault _).mpr ((hblocks hseek hphase).mpr hover)

/-- Where the blocks fit, the decoder returns what it returns over an unbounded output. -/
theorem exists_of_untilFits {input : List UInt8} {startBit endBitHint : ℕ} {chunk : VecChunk}
    {scratch : List ℕ} {r : ℕ × Bool} {res : SpeculativeChunk}
    (hfits : UntilFits build capacity input startBit endBitHint chunk scratch)
    (h : Unbounded.decodeUntilU16 input startBit endBitHint chunk.unbounded scratch =
      .ok (r, res)) :
    ∃ chunk', decodeUntilU16 build capacity input startBit endBitHint chunk scratch =
      .ok (r, chunk') ∧ chunk'.unbounded = res := by
  have hne : decodeUntilU16 build capacity input startBit endBitHint chunk scratch ≠
      .error .fault :=
    fun hfault => (decodeUntilU16_eq_fault_iff input startBit endBitHint chunk scratch).mp hfault
      hfits
  obtain ⟨⟨_, chunk'⟩, hok, heq⟩ :=
    (tracks_decodeUntilU16 input startBit endBitHint chunk scratch).exists_ok hne h
  cases heq
  exact ⟨chunk', hok, rfl⟩

end Tracks

end Speculative

/-- The blocks from the bit position are valid, leave 48 bits, and expand behind the history to
less than 4 GiB. -/
def ValidShort (input : List UInt8) (startBit endBitHint : ℕ) (history : List UInt8) : Prop :=
  startBit ≤ 8 * input.length ∧ ∃ f ts rest out,
    Blocks 48 (stopAt input endBitHint) ((bits input).drop startBit) f ts rest ∧
      expand id history ts = some (history ++ out) ∧ out.length < 2 ^ 32

/-- What the plain decoder returns for such blocks. -/
theorem validShort_iff (input : List UInt8) (startBit endBitHint : ℕ) (history : List UInt8) :
    ValidShort input startBit endBitHint history ↔
      ∃ e f out, FastInflate.decodeMemberU8 input startBit endBitHint history =
        .ok ((e, f), history ++ out) ∧ out.length < 2 ^ 32 := by
  have hspec := memberSpec_memberWith FastInflate.decodesBlocks_decodeOneBlock input startBit
    endBitHint history
  rw [FastInflate.decodeMemberU8]
  revert hspec
  cases memberWith FastInflate.decodeOneBlock input startBit endBitHint history with
  | error e =>
    rintro ⟨-, hnone⟩
    constructor
    · rintro ⟨hle, f, ts, rest, out, hblocks, hout, -⟩
      rw [hnone f ts rest hle hblocks] at hout
      cases hout
    · rintro ⟨_, _, _, h, -⟩
      cases h
  | ok r =>
    obtain ⟨⟨e, f⟩, res⟩ := r
    rintro ⟨hle, ts, rest, hblocks, -, hres⟩
    constructor
    · rintro ⟨-, f', us, rest', out, hblocks', hout, hshort⟩
      obtain ⟨-, rfl, -⟩ := hblocks.unique hblocks'
      rw [hres] at hout
      cases hout
      exact ⟨e, f, out, rfl, hshort⟩
    · rintro ⟨_, _, out, h, hshort⟩
      cases h
      exact ⟨hle, f, ts, rest, out, hblocks, hres, hshort⟩

namespace Speculative

/-- Speculative decoding runs off the vector exactly where a block of the preload kernel does
not fit. With the resolution of its markers it is plain decoding with history exactly where the
blocks fit if the plain decoder returns less than 4 GiB. -/
theorem decodeUntilU16_resolveMarkers_iff (build : Build) (capacity : ℕ) (input : List UInt8)
    (startBit endBitHint : ℕ) (history : List UInt8) (scratch : List ℕ) :
    (decodeUntilU16 build capacity input startBit endBitHint (VecChunk.fresh 0) scratch =
        .error .fault ↔
      ¬UntilFits build capacity input startBit endBitHint (VecChunk.fresh 0) scratch) ∧
    (((∀ e f res, FastInflate.decodeMemberU8 input startBit endBitHint history =
          .ok ((e, f), res) →
        ∃ out, res = history ++ out ∧ (out.length < 2 ^ 32 →
          ∃ chunk, decodeUntilU16 build capacity input startBit endBitHint (VecChunk.fresh 0)
              scratch = .ok ((e, f), chunk) ∧
            resolveMarkers chunk.unbounded (lastWindow history) = .ok ⟨out, []⟩)) ∧
      (∀ e f chunk resolved,
        decodeUntilU16 build capacity input startBit endBitHint (VecChunk.fresh 0) scratch =
          .ok ((e, f), chunk) →
        resolveMarkers chunk.unbounded (lastWindow history) = .ok resolved →
        e + 64 ≤ 8 * input.length →
        ∃ res, FastInflate.decodeMemberU8 input startBit endBitHint history = .ok res)) ↔
      (ValidShort input startBit endBitHint history →
        UntilFits build capacity input startBit endBitHint (VecChunk.fresh 0) scratch)) := by
  have hfault := @decodeUntilU16_eq_fault_iff build capacity input startBit
    endBitHint (VecChunk.fresh 0) scratch
  obtain ⟨hplain, hback⟩ := unbounded_resolveMarkers input startBit endBitHint history scratch
  refine ⟨hfault, ?_, ?_⟩
  · rintro ⟨h, -⟩ hvalid
    obtain ⟨e, f, out, hok, hshort⟩ := (validShort_iff _ _ _ _).mp hvalid
    obtain ⟨out', heq, hrun⟩ := h e f _ hok
    obtain rfl := List.append_cancel_left heq
    obtain ⟨chunk, hchunk, -⟩ := hrun hshort
    by_contra hover
    rw [hfault.mpr hover] at hchunk
    cases hchunk
  · intro hfits
    constructor
    · intro e f res hok
      obtain ⟨out, rfl, hrun⟩ := hplain e f res hok
      refine ⟨out, rfl, fun hshort => ?_⟩
      obtain ⟨chunk, hchunk, hresolve⟩ := hrun hshort
      obtain ⟨chunk', hok', rfl⟩ := exists_of_untilFits
        (hfits ((validShort_iff _ _ _ _).mpr ⟨e, f, out, hok, hshort⟩)) hchunk
      exact ⟨chunk', hok', hresolve⟩
    · intro e f chunk resolved hrun
      exact hback e f chunk.unbounded resolved
        ((tracks_decodeUntilU16 input startBit endBitHint (VecChunk.fresh 0) scratch).ok_eq hrun)

end Speculative

end RustyRapidgzip
