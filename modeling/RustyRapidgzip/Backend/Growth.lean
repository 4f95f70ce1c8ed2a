import RustyRapidgzip.Backend.Isal
import RustyRapidgzip.Backend.Zlibrs
import RustyRapidgzip.Deflate.SafeCorrect
import RustyRapidgzip.Lib.Crc

/-!
# Outputs that outgrow the engines

The retry loop doubles a 64-bit reservation, and the engine sees it through 32 bits. zlib-rs
is shown at most `u32::MAX` bytes of room: from there on a retry shows it nothing more. ISA-L
is shown the low 32 bits, which fall back to less when the reservation passes 4 GiB. The
input is narrowed the same way, so that the end of a long member may be out of sight.
-/

namespace RustyRapidgzip

open LsbBits Reference Lz

namespace Backend

/-! ## zlib-rs -/

namespace Zlibrs

/-- The room the engine is shown. -/
def availOut (room : ℕ) : ℕ := min room U32_MAX

/-- The input the engine is shown. -/
def availIn (input : List UInt8) : ℕ := min input.length U32_MAX

/-- The engine on a member of `used` bytes that makes `made`. Where it is shown the whole
member it overflows exactly when the output is longer than its room, and otherwise ends the
stream; where it is shown less it does not end it. -/
structure Conforms (engine : Engine) (input : List UInt8) (used : ℕ) (made : List UInt8) :
    Prop where
  reset : engine.inflateReset2 = Z_OK
  finishes : used ≤ availIn input → ∀ avail, made.length ≤ avail →
    Finishes (engine.inflate (input.take (availIn input)) avail) used made
  overflows : used ≤ availIn input → ∀ avail < made.length,
    Overflows (engine.inflate (input.take (availIn input)) avail)
  cut : availIn input < used → ∀ avail,
    (engine.inflate (input.take (availIn input)) avail).ret ≠ Z_STREAM_END

/-- The clamped room climbs to every size it can hold. -/
theorem climbs_availOut (grow : Reserve) (out : OutVec) (size : ℕ) :
    Climbs grow availOut out size ↔ size < 2 ^ 32 := by
  constructor
  · rintro ⟨k, hroom, -⟩
    have hle : availOut (roomAt grow out k) ≤ U32_MAX := Nat.min_le_right _ _
    have hmax : U32_MAX = 2 ^ 32 - 1 := rfl
    omega
  · intro hsize
    have hexists : ∃ k, size ≤ availOut (roomAt grow out k) := by
      refine ⟨size, Nat.le_min.mpr ⟨le_roomAt grow out size, ?_⟩⟩
      have hmax : U32_MAX = 2 ^ 32 - 1 := rfl
      omega
    refine ⟨Nat.find hexists, Nat.find_spec hexists, fun i hi => ?_⟩
    have hless := Nat.lt_of_not_le (Nat.find_min hexists hi)
    have hsucc := roomAt_succ grow out i
    have hpos := roomAt_pos grow out i
    have hmax : U32_MAX = 2 ^ 32 - 1 := rfl
    unfold availOut at hless ⊢
    omega

/-- The loop makes progress on the members whose end it shows and whose output it can show
room for. -/
theorem progresses_iff (grow : Reserve) {engine : Engine} {body : List UInt8}
    {startBit used : ℕ} (endBitHint : ℕ) (out : OutVec) {made : List UInt8}
    (hbyte : startBit / 8 < body.length)
    (hengine : Conforms engine (body.drop (startBit / 8)) used made) :
    Progresses grow (attempt engine) availOut body startBit endBitHint out ↔
      used ≤ availIn (body.drop (startBit / 8)) ∧ made.length < 2 ^ 32 := by
  by_cases hshown : used ≤ availIn (body.drop (startBit / 8))
  · have hneeds : Needs (attempt engine (startBit / 8) (body.drop (startBit / 8))) availOut
        made.length :=
      ⟨fun room hroom => ⟨_, _, attempt_finishes hengine.reset (hengine.finishes hshown _ hroom)⟩,
        fun room hroom => attempt_overflows hengine.reset (hengine.overflows hshown _ hroom)⟩
    rw [Backend.progresses_iff hneeds hbyte, climbs_availOut]
    exact ⟨fun h => ⟨hshown, h⟩, fun h => h.2⟩
  · refine ⟨fun h => absurd h (not_progresses ?_), fun h => absurd h.1 hshown⟩
    intro room newEndBit made hsuccess
    exact hengine.cut (by omega) _ (ret_of_attempt hsuccess)

end Zlibrs

/-! ## ISA-L -/

namespace Isal

/-- The room the engine is shown. -/
def availOut (room : ℕ) : ℕ := room % 2 ^ 32

/-- The input the engine is shown. -/
def availIn (input : List UInt8) : ℕ := input.length % 2 ^ 32

/-- The engine on a member of `used` bytes that makes `made`. Where it is shown the whole
member it overflows exactly when the output is longer than its room, and otherwise finishes;
where it is shown less it does not finish. -/
structure Conforms (engine : Engine) (input : List UInt8) (used : ℕ) (made : List UInt8) :
    Prop where
  finishes : used ≤ availIn input → ∀ avail, made.length ≤ avail → ∃ taken buffered,
    Finishes (engine (input.take (availIn input)) avail) (availIn input) taken buffered made
  overflows : used ≤ availIn input → ∀ avail < made.length,
    Overflows (engine (input.take (availIn input)) avail)
  cut : availIn input < used → ∀ avail,
    (engine (input.take (availIn input)) avail).blockFinish = false

/-- The room that the engine is shown in the `k`-th retry, where vectors grow by doubling: the low
32 bits of the doubled memory, less the bytes that are in the vector. -/
def shownRoom (out : OutVec) (k : ℕ) : ℕ :=
  (2 ^ k * firstCapacity out - out.bytes.length) % 2 ^ 32

/-- Some of the doubled rooms holds `size` bytes, and those before it grow in their low 32 bits.
After 32 doublings the low bits stay as they are. -/
def ShownClimbs (out : OutVec) (size : ℕ) : Prop :=
  ∃ k < 33, size ≤ shownRoom out k ∧ ∀ i < k, shownRoom out i < shownRoom out (i + 1)

/-- The shown rooms are finitely many numbers. -/
instance (out : OutVec) (size : ℕ) : Decidable (ShownClimbs out size) :=
  inferInstanceAs (Decidable (∃ k < 33, size ≤ shownRoom out k ∧
    ∀ i < k, shownRoom out i < shownRoom out (i + 1)))

/-- With growth by doubling the shown rooms are given in closed form. -/
theorem climbs_amortized (out : OutVec) (size : ℕ) :
    Climbs amortized availOut out size ↔ ShownClimbs out size := by
  have hshown (k : ℕ) : availOut (roomAt amortized out k) = shownRoom out k := by
    rw [availOut, roomAt_amortized, shownRoom]
  have hlength := length_le_firstCapacity out
  have hconstant : shownRoom out 33 = shownRoom out 32 := by
    unfold shownRoom
    omega
  simp only [Climbs, hshown]
  constructor
  · rintro ⟨k, hsize, hclimbs⟩
    refine ⟨k, ?_, hsize, hclimbs⟩
    by_contra hlate
    have hgrows : shownRoom out 32 < shownRoom out 33 := hclimbs 32 (by omega)
    omega
  · rintro ⟨k, -, hsize, hclimbs⟩
    exact ⟨k, hsize, hclimbs⟩

/-- A call that is shown the whole member, and less room than its output, overflows. -/
theorem Conforms.attempt_overflows {engine : Engine} {input made : List UInt8} {used room : ℕ}
    (h : Conforms engine input used made) (hshown : used ≤ availIn input)
    (hroom : availOut room < made.length) (bytePos : ℕ) :
    attempt engine bytePos input room = .overflow :=
  Isal.attempt_overflows (h.overflows hshown _ hroom)

/-- The loop makes progress on the members whose end it shows and to whose output the room it
shows climbs. -/
theorem progresses_iff (grow : Reserve) {engine : Engine} {body : List UInt8}
    {startBit used : ℕ} (endBitHint : ℕ) (out : OutVec) {made : List UInt8}
    (hbyte : startBit / 8 < body.length) (hlen : (body.drop (startBit / 8)).length < 2 ^ 64)
    (hengine : Conforms engine (body.drop (startBit / 8)) used made) :
    Progresses grow (attempt engine) availOut body startBit endBitHint out ↔
      used ≤ availIn (body.drop (startBit / 8)) ∧ Climbs grow availOut out made.length := by
  by_cases hshown : used ≤ availIn (body.drop (startBit / 8))
  · have hneeds : Needs (attempt engine (startBit / 8) (body.drop (startBit / 8))) availOut
        made.length := by
      refine ⟨fun room hroom => ?_, fun room hroom =>
        hengine.attempt_overflows hshown hroom (startBit / 8)⟩
      obtain ⟨taken, buffered, hfinishes⟩ := hengine.finishes hshown _ hroom
      exact ⟨_, _, attempt_finishes (startBit / 8) hlen hfinishes⟩
    rw [Backend.progresses_iff hneeds hbyte]
    exact ⟨fun h => ⟨hshown, h⟩, fun h => h.2⟩
  · refine ⟨fun h => absurd h (not_progresses ?_), fun h => absurd h.1 hshown⟩
    intro room newEndBit made hsuccess
    have hfinish := finish_of_attempt hsuccess
    have hcut := hengine.cut (by omega) (room % 2 ^ 32)
    rw [availIn] at hcut
    rw [hfinish] at hcut
    cases hcut

end Isal

/-! ## Both backends -/

/-- A stream has a byte. -/
theorem byte_lt_of_inflate {body made : List UInt8} {bytePos e : ℕ}
    (h : Reference.inflate (body.drop bytePos) [] = some (e, made)) : bytePos < body.length := by
  by_contra hle
  rw [List.drop_of_length_le (by omega)] at h
  cases h

/-- A stream ends within the input. -/
theorem used_le_of_inflate {input made : List UInt8} {e : ℕ}
    (h : Reference.inflate input [] = some (e, made)) : (e + 7) / 8 ≤ input.length := by
  obtain ⟨ts, rest, -, -, he⟩ := inflate_iff.mp h
  omega

/-- When the retries of a valid member make progress. zlib-rs has to be shown the end of the
member, and its output has to be shorter than 4 GiB, however vectors grow. ISA-L has to be shown
the end, and where vectors grow by doubling, some doubled room has to hold the output before the
low 32 bits of the room fall back. -/
theorem retries_progress_iff (zlibrs : Zlibrs.Engine) (isal : Isal.Engine)
    (body : List UInt8) (startBit endBitHint : ℕ) (out : OutVec) (e : ℕ) (o : List UInt8)
    (hvalid : Reference.inflate (body.drop (startBit / 8)) [] = some (e, o))
    (hlen : (body.drop (startBit / 8)).length < 2 ^ 64)
    (hzlibrs : Zlibrs.Conforms zlibrs (body.drop (startBit / 8)) ((e + 7) / 8) o)
    (hisal : Isal.Conforms isal (body.drop (startBit / 8)) ((e + 7) / 8) o) :
    (∀ grow,
      Progresses grow (Zlibrs.attempt zlibrs) Zlibrs.availOut body startBit endBitHint out ↔
        (e + 7) / 8 ≤ Zlibrs.availIn (body.drop (startBit / 8)) ∧ o.length < 2 ^ 32) ∧
    (Progresses amortized (Isal.attempt isal) Isal.availOut body startBit endBitHint out ↔
      (e + 7) / 8 ≤ Isal.availIn (body.drop (startBit / 8)) ∧
        Isal.ShownClimbs out o.length) := by
  have hbyte := byte_lt_of_inflate hvalid
  constructor
  · exact fun grow => Zlibrs.progresses_iff grow endBitHint out hbyte hzlibrs
  · rw [Isal.progresses_iff amortized endBitHint out hbyte hlen hisal, Isal.climbs_amortized]

/-- An engine that decodes by the reference conforms. -/
theorem Zlibrs.conforms_reference {input made : List UInt8} {e : ℕ}
    (h : Reference.inflate input [] = some (e, made)) (hshort : input.length ≤ U32_MAX) :
    Conforms reference input ((e + 7) / 8) made := by
  have hused := used_le_of_inflate h
  have hin : availIn input = input.length := Nat.min_eq_left hshort
  have hshown : input.take (availIn input) = input := by rw [hin, List.take_length]
  refine ⟨rfl, fun _ avail hroom => ?_, fun _ avail hroom => ?_, fun hcut => by omega⟩
  · have href : reference.inflate input avail = ⟨Z_STREAM_END, (e + 7) / 8,
        8 * ((e + 7) / 8) - e, avail - made.length, made⟩ := by
      simp only [reference, h]
      exact if_pos hroom
    rw [hshown, href]
    have hmask : (8 * ((e + 7) / 8) - e) &&& 0x3f ≤ 8 * ((e + 7) / 8) - e := Nat.and_le_left
    exact ⟨rfl, by simp only; omega, rfl⟩
  · have href : reference.inflate input avail =
        ⟨Z_BUF_ERROR, input.length, 0, 0, made.take avail⟩ := by
      simp only [reference, h]
      exact if_neg (Nat.not_le.mpr hroom)
    rw [hshown, href]
    exact ⟨Or.inr rfl, rfl⟩

/-- An engine that decodes by the reference conforms. -/
theorem Isal.conforms_reference {input made : List UInt8} {e : ℕ}
    (h : Reference.inflate input [] = some (e, made)) (hshort : input.length < 2 ^ 32) :
    Conforms reference input ((e + 7) / 8) made := by
  have hused := used_le_of_inflate h
  have hin : availIn input = input.length := Nat.mod_eq_of_lt hshort
  have hshown : input.take (availIn input) = input := by rw [hin, List.take_length]
  refine ⟨fun _ avail hroom => ?_, fun _ avail hroom => ?_, fun hcut => by omega⟩
  · rw [hshown, hin]
    exact ⟨_, _, finishes_reference h hused hroom⟩
  · have href : reference input avail =
        ⟨ISAL_DECOMP_OK, false, input.length, 0, 0, made.take avail⟩ := by
      simp only [reference, h]
      exact if_neg (Nat.not_le.mpr hroom)
    rw [hshown, href]
    exact ⟨rfl, rfl, rfl⟩

/-! ## Members of stored blocks -/

/-- A stored block. -/
def storedBlock (final : Bool) (data : List UInt8) : List UInt8 :=
  [if final then 1 else 0, UInt8.ofNat (data.length % 256), UInt8.ofNat (data.length / 256),
    UInt8.ofNat (255 - data.length % 256), UInt8.ofNat (255 - data.length / 256)] ++ data

/-- The number of two bytes. -/
theorem leNat_pair {a b : ℕ} (ha : a < 256) (hb : b < 256) :
    leNat [UInt8.ofNat a, UInt8.ofNat b] = a + 256 * b := by
  simp [leNat, Nat.mod_eq_of_lt ha, Nat.mod_eq_of_lt hb]

/-- A stored block is one of the format. -/
theorem block_storedBlock (final : Bool) (data rest : List UInt8) (hlen : data.length < 65536) :
    Block 0 (bits (storedBlock final data ++ rest)) final (data.map Token.lit) (bits rest) := by
  have hbits : bits (storedBlock final data ++ rest) = final :: (List.replicate 7 false ++
      bits ((storedBlock final data).drop 1 ++ rest)) := by
    have hcons : storedBlock final data ++ rest =
        [if final then 1 else 0] ++ ((storedBlock final data).drop 1 ++ rest) := rfl
    rw [hcons, bits_append]
    cases final <;> rfl
  have hsizes : (storedBlock final data).drop 1 ++ rest =
      [UInt8.ofNat (data.length % 256), UInt8.ofNat (data.length / 256),
        UInt8.ofNat (255 - data.length % 256), UInt8.ofNat (255 - data.length / 256)] ++
        (data ++ rest) := by
    simp [storedBlock]
  have halign : alignBits (List.replicate 5 false ++
      bits ((storedBlock final data).drop 1 ++ rest)) =
      bits ((storedBlock final data).drop 1 ++ rest) := by
    have hmod : (List.replicate 5 false ++
        bits ((storedBlock final data).drop 1 ++ rest)).length % 8 = 5 := by
      rw [List.length_append, List.length_replicate, bits_length]
      omega
    rw [alignBits, hmod]
    rfl
  have hstored : readStored (List.replicate 5 false ++
      bits ((storedBlock final data).drop 1 ++ rest)) = some (data, bits rest) := by
    have hlow := leNat_pair (a := data.length % 256) (b := data.length / 256) (by omega) (by omega)
    have hhigh := leNat_pair (a := 255 - data.length % 256) (b := 255 - data.length / 256)
      (by omega) (by omega)
    have hfirst := SafeInflate.readBits_bytes ((storedBlock final data).drop 1 ++ rest) 2
    rw [hsizes] at hfirst halign ⊢
    rw [if_pos (by simp)] at hfirst
    have hsecond := SafeInflate.readBits_bytes ([UInt8.ofNat (255 - data.length % 256),
      UInt8.ofNat (255 - data.length / 256)] ++ (data ++ rest)) 2
    rw [if_pos (by simp)] at hsecond
    simp only [readStored, halign, bind, hfirst, Option.bind_some]
    simp only [List.cons_append, List.nil_append, List.take_succ_cons, List.take_zero,
      List.drop_succ_cons, List.drop_zero, hlow, hhigh] at hsecond ⊢
    simp only [hsecond, Option.bind_some]
    have hsize : data.length % 256 + 256 * (data.length / 256) = data.length := by omega
    rw [if_pos (by omega), SafeInflate.readBytes_bytes, hsize, if_pos (by simp), List.take_left,
      List.drop_left]
  have hflag : readBits 1 (bits (storedBlock final data ++ rest)) = some (final.toNat,
      List.replicate 7 false ++ bits ((storedBlock final data).drop 1 ++ rest)) := by
    rw [hbits]
    cases final <;> simp [readBits, ofLsb]
  have htype : readBits 2 (List.replicate 7 false ++
      bits ((storedBlock final data).drop 1 ++ rest)) = some (0, List.replicate 5 false ++
      bits ((storedBlock final data).drop 1 ++ rest)) := by
    simp [readBits, ofLsb, List.replicate]
  have hblock : Block 0 _ (final.toNat != 0) _ _ := Block.stored hflag htype hstored
  cases final <;> exact hblock

/-- Full stored blocks of zeros, and an empty final one. -/
def zeroStream : ℕ → List UInt8
  | 0 => storedBlock true []
  | k + 1 => storedBlock false (List.replicate 65535 0) ++ zeroStream k

/-- Each stored block has five bytes more than its data. -/
theorem zeroStream_length (k : ℕ) : (zeroStream k).length = 65540 * k + 5 := by
  induction k with
  | zero => rfl
  | succ k ih =>
    rw [zeroStream, storedBlock, List.length_append, List.length_append, List.length_replicate, ih]
    simp only [List.length_cons, List.length_nil]
    omega

/-- The stored blocks are a stream that makes zeros. -/
theorem stream_zeroStream (k : ℕ) (rest : List UInt8) :
    ∃ ts, Stream 0 (bits (zeroStream k ++ rest)) ts (bits rest) ∧ ∀ out : List UInt8,
      expand id out ts = some (out ++ List.replicate (65535 * k) 0) := by
  induction k with
  | zero =>
    have hblock := block_storedBlock true [] rest (by decide)
    exact ⟨_, .final hblock, fun out => by simp⟩
  | succ k ih =>
    obtain ⟨ts, hstream, hexpand⟩ := ih
    have hblock := block_storedBlock false (List.replicate 65535 0) (zeroStream k ++ rest)
      (by rw [List.length_replicate]; decide)
    rw [← List.append_assoc] at hblock
    refine ⟨_, .more hblock rfl hstream, fun out => ?_⟩
    rw [expand_append, expand_lits, Option.bind_some, hexpand, List.map_id, List.append_assoc,
      List.replicate_append_replicate, Nat.mul_succ, Nat.add_comm]

/-- The reference inflates the stored blocks to zeros. -/
theorem inflate_zeroStream (k : ℕ) (rest : List UInt8) :
    Reference.inflate (zeroStream k ++ rest) [] =
      some (8 * (65540 * k + 5), List.replicate (65535 * k) 0) := by
  obtain ⟨ts, hstream, hexpand⟩ := stream_zeroStream k rest
  rw [inflate_iff]
  refine ⟨ts, bits rest, hstream, hexpand [], ?_⟩
  rw [bits_length, List.length_append, zeroStream_length]
  omega

/-- Both engines decode the blocks as they are assumed to. -/
theorem conforms_zeroStream (k : ℕ) {trailer : List UInt8}
    (hshort : 65540 * k + 5 + trailer.length < 2 ^ 32) :
    Zlibrs.Conforms Zlibrs.reference (zeroStream k ++ trailer) ((8 * (65540 * k + 5) + 7) / 8)
        (List.replicate (65535 * k) 0) ∧
      Isal.Conforms Isal.reference (zeroStream k ++ trailer) ((8 * (65540 * k + 5) + 7) / 8)
        (List.replicate (65535 * k) 0) := by
  have hvalid := inflate_zeroStream k trailer
  have hlen : (zeroStream k ++ trailer).length < 2 ^ 32 := by
    rwa [List.length_append, zeroStream_length]
  exact ⟨Zlibrs.conforms_reference hvalid (Nat.le_pred_of_lt hlen),
    Isal.conforms_reference hvalid hlen⟩

/-- The whole member is shown to both engines. -/
theorem shown_zeroStream (k : ℕ) {trailer : List UInt8}
    (hshort : 65540 * k + 5 + trailer.length < 2 ^ 32) :
    (8 * (65540 * k + 5) + 7) / 8 ≤ Zlibrs.availIn (zeroStream k ++ trailer) ∧
      (8 * (65540 * k + 5) + 7) / 8 ≤ Isal.availIn (zeroStream k ++ trailer) := by
  have hmax : Zlibrs.U32_MAX = 2 ^ 32 - 1 := rfl
  rw [Zlibrs.availIn, Isal.availIn, List.length_append, zeroStream_length]
  omega

/-- When the retries of ISA-L make progress on the blocks. -/
theorem isal_progresses_zeroStream (k : ℕ) {trailer : List UInt8}
    (hshort : 65540 * k + 5 + trailer.length < 2 ^ 32) (endBitHint : ℕ) (out : OutVec) :
    Progresses amortized (Isal.attempt Isal.reference) Isal.availOut (zeroStream k ++ trailer) 0
      endBitHint out ↔ Isal.ShownClimbs out (65535 * k) := by
  have hlength : (zeroStream k ++ trailer).length = 65540 * k + 5 + trailer.length := by
    rw [List.length_append, zeroStream_length]
  have hiff := Isal.progresses_iff amortized endBitHint out
    (show 0 / 8 < (zeroStream k ++ trailer).length by omega)
    (show (zeroStream k ++ trailer).length < 2 ^ 64 by omega) (conforms_zeroStream k hshort).2
  rw [List.length_replicate, Isal.climbs_amortized] at hiff
  exact hiff.trans (and_iff_right (shown_zeroStream k hshort).2)

/-- The trailer of a member: its checksum and its size, as four bytes each. -/
def trailerOf (out : List UInt8) : List UInt8 :=
  (List.range 4).map (fun i => UInt8.ofNat (Crc.crc32.hash out / 256 ^ i)) ++
    (List.range 4).map fun i => UInt8.ofNat (out.length / 256 ^ i)

/-- A trailer has eight bytes. -/
theorem trailerOf_length (out : List UInt8) : (trailerOf out).length = 8 := by
  rw [trailerOf, List.length_append, List.length_map, List.length_map, List.length_range]

/-- A valid member of so many full stored blocks, and the empty final one. -/
def zeroMember (k : ℕ) : List UInt8 := zeroStream k ++ trailerOf (List.replicate (65535 * k) 0)

/-- The output of 32769 full stored blocks is longer than 2 GiB. From an empty vector the retries
of ISA-L do not make progress on them. -/
theorem retries_not_progress :
    Reference.inflate (zeroMember 32769) [] =
        some (8 * (65540 * 32769 + 5), List.replicate (65535 * 32769) 0) ∧
      ¬Progresses amortized (Isal.attempt Isal.reference) Isal.availOut (zeroMember 32769) 0
        (2 ^ 64 - 1) ⟨[], 0, le_rfl⟩ := by
  refine ⟨inflate_zeroStream 32769 _, fun hprogress => ?_⟩
  rw [zeroMember, isal_progresses_zeroStream 32769 (by rw [trailerOf_length]; decide)] at hprogress
  exact absurd hprogress (by decide +kernel)

/-- Behind a byte that is in the vector, 257 full stored blocks do not fit in the first room of
ISA-L, and the retry makes progress; 32769 of them never fit. -/
theorem retries_progress_iff_zeroMember :
    Isal.attempt Isal.reference 0 (zeroMember 257) (roomAt amortized ⟨[7], 1, le_rfl⟩ 0) =
        .overflow ∧
      Progresses amortized (Zlibrs.attempt Zlibrs.reference) Zlibrs.availOut (zeroMember 257) 0
        (2 ^ 64 - 1) ⟨[7], 1, le_rfl⟩ ∧
      Progresses amortized (Isal.attempt Isal.reference) Isal.availOut (zeroMember 257) 0
        (2 ^ 64 - 1) ⟨[7], 1, le_rfl⟩ ∧
      ¬Progresses amortized (Isal.attempt Isal.reference) Isal.availOut (zeroMember 32769) 0
        (2 ^ 64 - 1) ⟨[7], 1, le_rfl⟩ := by
  have hiff (k : ℕ) (hshort : 65540 * k + 5 + 8 < 2 ^ 32) := by
    have hshort' : 65540 * k + 5 + (trailerOf (List.replicate (65535 * k) 0)).length < 2 ^ 32 := by
      rwa [trailerOf_length]
    have hlength : (zeroMember k).length < 2 ^ 64 := by
      rw [zeroMember, List.length_append, zeroStream_length]
      omega
    have h := retries_progress_iff Zlibrs.reference Isal.reference (zeroMember k) 0 (2 ^ 64 - 1)
      ⟨[7], 1, le_rfl⟩ _ _ (inflate_zeroStream k _) hlength (conforms_zeroStream k hshort').1
      (conforms_zeroStream k hshort').2
    rw [List.length_replicate, Nat.zero_div, List.drop_zero] at h
    exact h
  have hshort : 65540 * 257 + 5 +
      (trailerOf (List.replicate (65535 * 257) 0)).length < 2 ^ 32 := by
    rw [trailerOf_length]
    decide
  obtain ⟨hzlibrs, hisal⟩ := hiff 257 (by decide)
  obtain ⟨hshownZ, hshownI⟩ := shown_zeroStream 257 hshort
  have hconforms := (conforms_zeroStream 257 hshort).2
  rw [← zeroMember] at hshownZ hshownI hconforms
  refine ⟨hconforms.attempt_overflows hshownI ?_ 0,
    (hzlibrs amortized).mpr ⟨hshownZ, by decide⟩, hisal.mpr ⟨hshownI, by decide +kernel⟩,
    fun hprogress => ?_⟩
  · rw [Isal.availOut, List.length_replicate, roomAt_amortized]
    decide
  · exact absurd ((hiff 32769 (by decide)).2.mp hprogress).2 (by decide +kernel)

end Backend

end RustyRapidgzip
