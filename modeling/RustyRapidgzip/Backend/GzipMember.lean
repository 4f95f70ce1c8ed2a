import RustyRapidgzip.Backend.Isal
import RustyRapidgzip.Backend.Libdeflate
import RustyRapidgzip.Backend.Zlibrs
import RustyRapidgzip.Lib.Kraft
import RustyRapidgzip.Pipeline.NoLoss

/-!
# BGZF blocks through an external engine

A BGZF block is a complete gzip member, so a build with an external engine hands it over as a
whole. The engine reads the header, decodes the stream and checks the trailer, in one call whose
room is the size that the last four bytes of the block declare. A block has no more than 64 KiB, so
that size is the true one if the block ends with its trailer. The engine has nothing before the
block to copy from; a build without an engine decodes behind the blocks of the batch before it.
The engines check a checksum of the header, and refuse codes that are not complete; the pure-Rust
decoder does neither, so that they are compared on members that are free of both.
-/

namespace RustyRapidgzip

open LsbBits Canonical Reference Lz Crc Pipeline

namespace Backend

/-- The size that a member declares in its last four bytes. -/
def isize (member : List UInt8) : ℕ := leNat (member.drop (member.length - 4))

/-- Decode one complete member with one call of an engine, which is given the member and the room:
the number of bytes it made, and the output with them. -/
def decodeGzipMember (call : List UInt8 → ℕ → Except String (List UInt8))
    (member out : List UInt8) : Except DeflateError (ℕ × List UInt8) :=
  if member.length < 18 then .error .unexpectedEof
  else
    match call member (isize member) with
    | .error msg => .error (.invalid msg)
    | .ok made => .ok (made.length, out ++ made)

namespace Libdeflate

/-- `libdeflate_gzip_decompress`: the input and the room of the output. `none` stands for every
code but success. -/
abbrev GzipEngine : Type := List UInt8 → ℕ → Option (List UInt8)

/-- The call for a whole member. -/
def gzipCall (engine : GzipEngine) (member : List UInt8) (room : ℕ) :
    Except String (List UInt8) :=
  match engine member room with
  | some made => .ok made
  | none => .error "libdeflate gzip decode failed"

/-- Decode one complete member. -/
def decodeGzipMember (engine : GzipEngine) (member out : List UInt8) :
    Except DeflateError (ℕ × List UInt8) :=
  Backend.decodeGzipMember (gzipCall engine) member out

end Libdeflate

namespace Isal

/-- The shim for whole members: its code, and the bytes made. The engine reads the header and
checks the trailer. -/
def rrgIsalInflateGzip (engine : Engine) (input : List UInt8) (outCap : ℕ) : ℤ × List UInt8 :=
  let s := engine (input.take (input.length % 2 ^ 32)) (outCap % 2 ^ 32)
  if s.ret ≠ ISAL_DECOMP_OK then (-1, [])
  else if s.blockFinish = false then
    if s.availOut = 0 then (2, []) else (-1, [])
  else (0, s.made)

/-- The call for a whole member. -/
def gzipCall (engine : Engine) (member : List UInt8) (room : ℕ) : Except String (List UInt8) :=
  let r := rrgIsalInflateGzip engine member room
  if r.1 = ISAL_SHIM_OK then .ok r.2 else .error "ISA-L gzip decode failed"

/-- Decode one complete member. -/
def decodeGzipMember (engine : Engine) (member out : List UInt8) :
    Except DeflateError (ℕ × List UInt8) :=
  Backend.decodeGzipMember (gzipCall engine) member out

end Isal

namespace Zlibrs

/-- The call for a whole member. -/
def gzipCall (engine : Engine) (member : List UInt8) (room : ℕ) : Except String (List UInt8) :=
  if engine.inflateReset2 ≠ Z_OK then .error "zlib-rs inflateReset2 failed"
  else
    let strm := engine.inflate (member.take (member.length % 2 ^ 32)) (room % 2 ^ 32)
    if strm.ret ≠ Z_STREAM_END then .error "zlib-rs gzip decode failed" else .ok strm.made

/-- Decode one complete member. -/
def decodeGzipMember (engine : Engine) (member out : List UInt8) :
    Except DeflateError (ℕ × List UInt8) :=
  Backend.decodeGzipMember (gzipCall engine) member out

end Zlibrs

/-- The engine that a build is compiled with. -/
inductive External where
  | libdeflate (engine : Libdeflate.GzipEngine)
  | isal (engine : Isal.Engine)
  | zlibrs (engine : Zlibrs.Engine)

/-- Decode one complete member with the engine of the build. -/
def External.decodeGzipMember : External → List UInt8 → List UInt8 →
    Except DeflateError (ℕ × List UInt8)
  | .libdeflate engine => Libdeflate.decodeGzipMember engine
  | .isal engine => Isal.decodeGzipMember engine
  | .zlibrs engine => Zlibrs.decodeGzipMember engine

/-- Decode the blocks of a batch, all into one buffer. -/
def External.decodeRanges (engine : External) (file : List UInt8) :
    List (ℕ × ℕ) → List UInt8 → Except Error (List UInt8)
  | [], out => .ok out
  | range :: ranges, out =>
    match engine.decodeGzipMember (Bgzf.slice file range) out with
    | .error e => .error (.deflate e)
    | .ok (_, out) => engine.decodeRanges file ranges out

/-- What a worker of the build sends for a batch. -/
def External.decodeBatch (engine : External) (file : List UInt8) (b : Bgzf.Batch) :
    Except Error (ℕ × List UInt8) :=
  match engine.decodeRanges file b.ranges [] with
  | .error e => .error e
  | .ok out => .ok (b.id, out)

/-! ## Engines for whole members -/

/-- The member of the format at the start of the input, if the room is enough for it. -/
def Made (crc : Checksum) (member : List UInt8) (room : ℕ) (made : List UInt8) : Prop :=
  made.length ≤ room ∧ ∃ n, Gzip.Member crc member [] n made

/-- An engine does with a member what the format says: it succeeds exactly where the format has a
member for which there is room, and makes its bytes. -/
def External.Decodes (crc : Checksum) (member : List UInt8) : External → Prop
  | .libdeflate engine => ∀ room < 2 ^ 32, ∀ made,
      engine member room = some made ↔ Made crc member room made
  | .isal engine => ∀ room < 2 ^ 32, ∀ made,
      ((engine member room).ret = Isal.ISAL_DECOMP_OK ∧ (engine member room).blockFinish = true ∧
        (engine member room).made = made) ↔ Made crc member room made
  | .zlibrs engine => engine.inflateReset2 = Zlibrs.Z_OK ∧ ∀ room < 2 ^ 32, ∀ made,
      ((engine.inflate member room).ret = Zlibrs.Z_STREAM_END ∧
        (engine.inflate member room).made = made) ↔ Made crc member room made

/-- A block of a stream, and the next one. -/
def NextInStream (bs next : List Bool) : Prop := ∃ ts, Block 0 bs false ts next

/-- The lengths of the code-length code that a dynamic block sends. -/
def sentClLengths (bs : List Bool) : Option (List ℕ) := do
  let (_, bs) ← readBits 5 bs
  let (_, bs) ← readBits 5 bs
  let (hclen, bs) ← readBits 4 bs
  let (cl, _) ← readClLengths (CODE_LENGTH_ORDER.take (hclen + 4)) (List.replicate 19 0) bs
  some cl

/-- The codes that a dynamic block sends are complete. The one for the distances may also have no
codeword, or a single one of one bit. -/
def CompleteCodes (bs : List Bool) : Prop :=
  (∀ cl, sentClLengths bs = some cl → kraftSum cl = 1) ∧
    ∀ lit dist rest, readTrees bs = some ((lit, dist), rest) →
      kraftSum lit = 1 ∧ (kraftSum dist = 1 ∨ used dist = 0 ∨ used dist = 1 ∧ 1 ∈ dist)

/-- A member of the format that all decoders read alike: its header has no checksum, and its blocks
send complete codes. Its copies and its trailer may still be wrong. -/
structure Standard (member : List UInt8) : Prop where
  frame : ∃ ts trailerStart, Gzip.Frame member ts trailerStart
  noChecksum : member.getD 3 0 &&& Gzip.FHCRC = 0
  completeCodes : ∀ headerLen, Gzip.parseHeader member = .ok headerLen →
    ∀ start, Relation.ReflTransGen NextInStream (bits (member.drop headerLen)) start →
      ∀ bfinal bs trees, readBits 1 start = some (bfinal, bs) → readBits 2 bs = some (2, trees) →
        CompleteCodes trees

section Calls

variable {crc : Checksum} {member out res made : List UInt8} {room k : ℕ}

/-- The call succeeds where the library does. -/
theorem Libdeflate.gzipCall_ok {engine : Libdeflate.GzipEngine} :
    gzipCall engine member room = .ok made ↔ engine member room = some made := by
  unfold gzipCall
  cases engine member room with
  | none => simp
  | some made' => simp

/-- Lengths of 32 bits reach ISA-L as they are. -/
theorem Isal.gzipCall_ok {engine : Isal.Engine} (hlen : member.length < 2 ^ 32)
    (hroom : room < 2 ^ 32) : gzipCall engine member room = .ok made ↔
      (engine member room).ret = ISAL_DECOMP_OK ∧ (engine member room).blockFinish = true ∧
        (engine member room).made = made := by
  unfold gzipCall rrgIsalInflateGzip
  rw [Nat.mod_eq_of_lt hlen, Nat.mod_eq_of_lt hroom, List.take_length]
  generalize engine member room = s
  by_cases hret : s.ret = ISAL_DECOMP_OK
  · cases hfinish : s.blockFinish with
    | false =>
      by_cases hfull : s.availOut = 0
      · simp [hret, hfinish, hfull, ISAL_SHIM_OK]
      · simp [hret, hfinish, hfull, ISAL_SHIM_OK]
    | true => simp [hret, hfinish, ISAL_SHIM_OK]
  · simp [hret, ISAL_SHIM_OK]

/-- Lengths of 32 bits reach zlib-rs as they are. -/
theorem Zlibrs.gzipCall_ok {engine : Zlibrs.Engine} (hreset : engine.inflateReset2 = Z_OK)
    (hlen : member.length < 2 ^ 32) (hroom : room < 2 ^ 32) :
    gzipCall engine member room = .ok made ↔
      (engine.inflate member room).ret = Z_STREAM_END ∧
        (engine.inflate member room).made = made := by
  unfold gzipCall
  rw [if_neg (not_not.mpr hreset), Nat.mod_eq_of_lt hlen, Nat.mod_eq_of_lt hroom, List.take_length]
  by_cases hret : (engine.inflate member room).ret = Z_STREAM_END
  · simp [hret]
  · simp [hret]

/-- The declared size is a 32-bit number. -/
theorem isize_lt (member : List UInt8) : isize member < 2 ^ 32 := by
  have hlt := leNat_lt (member.drop (member.length - 4))
  have hpow : 256 ^ (member.drop (member.length - 4)).length ≤ 256 ^ 4 := by
    apply Nat.pow_le_pow_right (by decide)
    rw [List.length_drop]
    omega
  exact Nat.lt_of_lt_of_le hlt hpow

/-- The call that a build makes for a member. -/
def External.call : External → List UInt8 → ℕ → Except String (List UInt8)
  | .libdeflate engine => Libdeflate.gzipCall engine
  | .isal engine => Isal.gzipCall engine
  | .zlibrs engine => Zlibrs.gzipCall engine

/-- The decoders of the three builds are one, over the call of the library. -/
theorem External.decodeGzipMember_eq (engine : External) :
    engine.decodeGzipMember member out = Backend.decodeGzipMember engine.call member out := by
  cases engine with
  | libdeflate engine => rfl
  | isal engine => rfl
  | zlibrs engine => rfl

/-- The three calls make what their engines are documented to make. -/
theorem External.call_ok {engine : External} (hlen : member.length < 2 ^ 32) (hroom : room < 2 ^ 32)
    (h : engine.Decodes crc member) :
    engine.call member room = .ok made ↔ Made crc member room made := by
  cases engine with
  | libdeflate engine => exact Libdeflate.gzipCall_ok.trans (h room hroom made)
  | isal engine => exact (Isal.gzipCall_ok hlen hroom).trans (h room hroom made)
  | zlibrs engine => exact (Zlibrs.gzipCall_ok h.1 hlen hroom).trans (h.2 room hroom made)

/-- A member has its fixed header and its trailer. -/
theorem length_of_member {n : ℕ} (h : Gzip.Member crc member out n made) : 18 ≤ member.length := by
  obtain ⟨headerLen, e, hheader, -, htrailer⟩ := h
  have hbounds := Gzip.parseHeader_bounds hheader
  have hroom := (Gzip.checkTrailer_ok_iff.mp htrailer).1
  omega

/-- A member is decoded where it is made within its declared size. -/
theorem External.decodeGzipMember_ok {engine : External} (hlen : member.length < 2 ^ 32)
    (h : engine.Decodes crc member) : engine.decodeGzipMember member out = .ok (k, res) ↔
      ∃ made, Made crc member (isize member) made ∧ k = made.length ∧ res = out ++ made := by
  rw [engine.decodeGzipMember_eq, Backend.decodeGzipMember]
  have hcall (made : List UInt8) : engine.call member (isize member) = .ok made ↔
      Made crc member (isize member) made :=
    External.call_ok hlen (isize_lt member) h
  constructor
  · intro hok
    split at hok
    · cases hok
    · cases hmade : engine.call member (isize member) with
      | error msg =>
        rw [hmade] at hok
        cases hok
      | ok made =>
        rw [hmade] at hok
        cases hok
        exact ⟨made, (hcall made).mp hmade, rfl, rfl⟩
  · rintro ⟨made, hmade, rfl, rfl⟩
    obtain ⟨n, hmember⟩ := hmade.2
    have hlong := length_of_member hmember
    rw [if_neg (Nat.not_lt.mpr hlong), (hcall made).mpr hmade]

end Calls

/-! ## Engines that follow the format -/

section Reference

variable (crc : Checksum)

/-- The member at the start of the input, if there is room for it. -/
def madeOf (member : List UInt8) (room : ℕ) : Option (List UInt8) :=
  match Gzip.decodeOneIndexed crc member [] 0 with
  | .error _ => none
  | .ok (_, made) => if made.length ≤ room then some made else none

/-- An engine that follows the format makes what the format says. -/
theorem madeOf_eq_some {member made : List UInt8} {room : ℕ} :
    madeOf crc member room = some made ↔ Made crc member room made := by
  obtain ⟨hdecode, -⟩ := Gzip.decodesMember_decodeOneIndexed crc member [] 0
  unfold madeOf
  cases hmember : Gzip.decodeOneIndexed crc member [] 0 with
  | error e =>
    apply iff_of_false (by simp)
    rintro ⟨-, n, hmade⟩
    have hok := (hdecode n made).mpr ⟨made, hmade, rfl⟩
    simp [hmember] at hok
  | ok r =>
    obtain ⟨n, made'⟩ := r
    obtain ⟨o, ho, rfl⟩ := (hdecode n made').mp hmember
    simp only [Option.ite_none_right_eq_some, Option.some.injEq]
    constructor
    · rintro ⟨hroom, rfl⟩
      exact ⟨hroom, n, ho⟩
    · rintro ⟨hroom, n', hmade⟩
      obtain ⟨-, rfl⟩ := ho.unique hmade
      exact ⟨hroom, rfl⟩

/-- ISA-L on whole members. -/
def Isal.gzipReference : Isal.Engine := fun member room =>
  match madeOf crc member room with
  | some made => ⟨ISAL_DECOMP_OK, true, 0, room - made.length, 0, made⟩
  | none => ⟨-1, false, 0, room, 0, []⟩

/-- zlib-rs on whole members. -/
def Zlibrs.gzipReference : Zlibrs.Engine where
  inflateReset2 := Z_OK
  inflate member room :=
    match madeOf crc member room with
    | some made => ⟨Z_STREAM_END, member.length, 0, room - made.length, made⟩
    | none => ⟨Z_BUF_ERROR, member.length, 0, room, []⟩

/-- The libdeflate that follows the format meets its documentation. -/
theorem decodes_libdeflate (member : List UInt8) :
    (External.libdeflate (madeOf crc)).Decodes crc member :=
  fun _ _ _ => madeOf_eq_some crc

/-- The ISA-L that follows the format meets its documentation. -/
theorem decodes_isal (member : List UInt8) :
    (External.isal (Isal.gzipReference crc)).Decodes crc member := by
  intro room _ made
  simp only [← madeOf_eq_some, Isal.gzipReference]
  cases madeOf crc member room with
  | none => simp [Isal.ISAL_DECOMP_OK]
  | some made' => simp

/-- The zlib that follows the format meets its documentation. -/
theorem decodes_zlibrs (member : List UInt8) :
    (External.zlibrs (Zlibrs.gzipReference crc)).Decodes crc member := by
  refine ⟨rfl, fun room _ made => ?_⟩
  simp only [← madeOf_eq_some, Zlibrs.gzipReference]
  cases madeOf crc member room with
  | none => simp [Zlibrs.Z_STREAM_END, Zlibrs.Z_BUF_ERROR]
  | some made' => simp

end Reference

/-! ## Blocks of the walk -/

/-- The copies of a member stay within its own bytes. -/
def OwnCopies (member : List UInt8) : Prop :=
  ∀ ts trailerStart, Gzip.Frame member ts trailerStart → ∃ o, expand id [] ts = some o

/-- Whatever a member decodes to has room in the size that its last four bytes declare. -/
def DeclaresRoom (crc : Checksum) (member : List UInt8) : Prop :=
  ∀ out n o, Gzip.Member crc member out n o → o.length ≤ isize member

section Blocks

variable {crc : Checksum} {file member out o res : List UInt8} {n : ℕ}
  {ranges : List (ℕ × ℕ)} {range : ℕ × ℕ} {engine : External}

/-- A member that decodes with nothing before it is one whose copies stay in it. -/
theorem member_nil_iff (out : List UInt8) : Gzip.Member crc member [] n o ↔
    Gzip.Member crc member out n o ∧ OwnCopies member := by
  constructor
  · intro hmember
    have hbehind := hmember.append_history out
    rw [List.append_nil] at hbehind
    refine ⟨hbehind, fun ts trailerStart hframe => ?_⟩
    obtain ⟨ts', trailerStart', hframe', hexpand, -⟩ := Gzip.member_iff.mp hmember
    obtain ⟨rfl, rfl⟩ := hframe.unique hframe'
    exact ⟨_, hexpand⟩
  · rintro ⟨hmember, hown⟩
    obtain ⟨ts, trailerStart, hframe, hexpand, htrailer⟩ := Gzip.member_iff.mp hmember
    obtain ⟨o', hexpand'⟩ := hown ts trailerStart hframe
    have hbehind := expand_append_left out hexpand'
    rw [List.append_nil, hexpand, Option.some.injEq, List.append_cancel_left_eq] at hbehind
    subst hbehind
    exact Gzip.member_iff.mpr ⟨ts, trailerStart, hframe, hexpand', htrailer⟩

/-- An engine makes of a member what is decoded behind any output, if the copies stay in the member
and the declared size is enough. -/
theorem exists_made_iff (h : Gzip.Member crc member out n o) :
    Made crc member (isize member) o ↔ OwnCopies member ∧ DeclaresRoom crc member := by
  constructor
  · rintro ⟨hroom, n', hmember⟩
    have hown := ((member_nil_iff []).mp hmember).2
    refine ⟨hown, fun out' n'' o' hmember' => ?_⟩
    obtain ⟨-, rfl⟩ := ((member_nil_iff out').mpr ⟨hmember', hown⟩).unique hmember
    exact hroom
  · rintro ⟨hown, hroom⟩
    exact ⟨hroom out n o h, n, (member_nil_iff out).mpr ⟨h, hown⟩⟩

/-- A batch decodes with an engine where it decodes without, no block copies from the blocks before
it and every declared size is enough. -/
theorem External.decodeRanges_iff (number : ℕ) (out : List UInt8)
    (hlen : ∀ range ∈ ranges, (Bgzf.slice file range).length < 2 ^ 32)
    (hdecodes : ∀ range ∈ ranges, engine.Decodes crc (Bgzf.slice file range))
    (res : List UInt8) : engine.decodeRanges file ranges out = .ok res ↔
      Bgzf.decodeRanges crc file number ranges out = .ok res ∧ ∀ range ∈ ranges,
        OwnCopies (Bgzf.slice file range) ∧ DeclaresRoom crc (Bgzf.slice file range) := by
  induction ranges generalizing out number with
  | nil => simp [External.decodeRanges, Bgzf.decodeRanges]
  | cons range ranges ih =>
    rw [List.forall_mem_cons] at hlen hdecodes ⊢
    obtain ⟨hdecode, -⟩ := Gzip.decodesMember_decodeOneIndexedFast crc (Bgzf.slice file range) out
      number
    rw [External.decodeRanges, Bgzf.decodeRanges]
    constructor
    · intro hok
      cases hblock : engine.decodeGzipMember (Bgzf.slice file range) out with
      | error e => simp [hblock] at hok
      | ok r =>
        obtain ⟨k, res'⟩ := r
        obtain ⟨made, hmade, rfl, rfl⟩ :=
          (External.decodeGzipMember_ok hlen.1 hdecodes.1).mp hblock
        obtain ⟨n, hmember⟩ := hmade.2
        have hbehind := ((member_nil_iff out).mp hmember).1
        rw [hblock] at hok
        rw [(hdecode n _).mpr ⟨made, hbehind, rfl⟩]
        obtain ⟨hrest, hblocks⟩ := (ih _ _ hlen.2 hdecodes.2).mp hok
        exact ⟨hrest, (exists_made_iff hbehind).mp hmade, hblocks⟩
    · rintro ⟨hok, hblock, hblocks⟩
      cases hfast : Gzip.decodeOneIndexedFast crc (Bgzf.slice file range) out number with
      | error e => simp [hfast] at hok
      | ok r =>
        obtain ⟨n, res'⟩ := r
        obtain ⟨o, hmember, rfl⟩ := (hdecode n res').mp hfast
        have hmade := (exists_made_iff hmember).mpr hblock
        rw [hfast] at hok
        rw [(External.decodeGzipMember_ok hlen.1 hdecodes.1).mpr ⟨o, hmade, rfl, rfl⟩]
        exact (ih _ _ hlen.2 hdecodes.2).mpr ⟨hok, hblocks⟩

/-- A batch has a result where all of its blocks do. -/
theorem External.decodeBatch_ok {b : Bgzf.Batch} {r : ℕ × List UInt8} :
    engine.decodeBatch file b = .ok r ↔
      ∃ res, engine.decodeRanges file b.ranges [] = .ok res ∧ r = (b.id, res) := by
  rw [External.decodeBatch]
  cases engine.decodeRanges file b.ranges [] with
  | error e => simp
  | ok res => simp [eq_comm]

/-- A batch has a result in the pure-Rust build where all of its blocks do. -/
theorem decodeBatch_ok {b : Bgzf.Batch} {r : ℕ × List UInt8} :
    Bgzf.decodeBatch crc file b = .ok r ↔
      ∃ res, Bgzf.decodeRanges crc file b.firstMember b.ranges [] = .ok res ∧ r = (b.id, res) := by
  rw [Bgzf.decodeBatch]
  cases Bgzf.decodeRanges crc file b.firstMember b.ranges [] with
  | error e => simp
  | ok res => simp [eq_comm]

/-- A member makes no more than 258 bytes of each of its bits. -/
theorem length_of_member_le (h : Gzip.Member crc member out n o) :
    o.length ≤ 2064 * member.length := by
  obtain ⟨ts, _, ⟨headerLen, rest, -, hstream, -⟩, hexpand, -⟩ := Gzip.member_iff.mp h
  have hle := hstream.output_le hexpand
  rw [bits_length, List.length_drop, List.length_append] at hle
  omega

/-- A block that ends with its member declares the size of what the member decodes to. -/
theorem isize_of_fills (hsmall : (Bgzf.slice file range).length ≤ 2 ^ 16)
    (hinside : range.1 + (Bgzf.slice file range).length = range.2)
    (hfills : Bgzf.Fills file range) (h : Gzip.Member crc (Bgzf.slice file range) out n o) :
    isize (Bgzf.slice file range) = o.length := by
  have hbound := length_of_member_le h
  obtain ⟨ts, trailerStart, hframe, -, htrailer⟩ := Gzip.member_iff.mp h
  obtain ⟨hroom, -, hsize, -⟩ := Gzip.checkTrailer_ok_iff.mp htrailer
  have hend := hfills ts trailerStart hframe hroom
  have hlast : (Bgzf.slice file range).length - 4 = trailerStart + 4 := by omega
  have htail : ((Bgzf.slice file range).drop (trailerStart + 4)).length ≤ 4 := by
    rw [List.length_drop]
    omega
  rw [List.take_of_length_le htail, Nat.mod_eq_of_lt (by omega)] at hsize
  rw [isize, hlast, hsize]

/-- The ranges of the walk lie in the file and have no more than 64 KiB. -/
theorem length_slice_of_batch {chunkSizeBytes : ℕ} {b : Bgzf.Batch}
    (hb : b ∈ (Bgzf.walk file chunkSizeBytes).1.batches) (hrange : range ∈ b.ranges) :
    range.1 + (Bgzf.slice file range).length = range.2 ∧
      (Bgzf.slice file range).length ≤ 2 ^ 16 := by
  have hwalk := (Bgzf.walk_ranges file chunkSizeBytes).2
  have hmem := List.mem_flatMap.mpr ⟨b, hb, hrange⟩
  have hinside := hwalk.length_slice hmem
  have hle := hwalk.le_of_mem hmem
  exact ⟨hinside, by omega⟩

/-- A build with an engine sends for a batch of standard blocks what a build without one sends,
where no block copies from the blocks before it and every block declares room for its output. A
block that ends with its member does declare it. -/
theorem External.decodeBatch_iff {chunkSizeBytes : ℕ} {b : Bgzf.Batch}
    (hb : b ∈ (Bgzf.walk file chunkSizeBytes).1.batches)
    (hstandard : ∀ range ∈ b.ranges, Standard (Bgzf.slice file range))
    (hdecodes : ∀ member, Standard member → member.length ≤ 2 ^ 16 →
      engine.Decodes crc member)
    (r : ℕ × List UInt8) :
    (engine.decodeBatch file b = .ok r ↔ Bgzf.decodeBatch crc file b = .ok r ∧
      ∀ range ∈ b.ranges,
        OwnCopies (Bgzf.slice file range) ∧ DeclaresRoom crc (Bgzf.slice file range)) ∧
    ∀ range ∈ b.ranges, Bgzf.Fills file range → DeclaresRoom crc (Bgzf.slice file range) := by
  constructor
  · have hsmall : ∀ range ∈ b.ranges, (Bgzf.slice file range).length ≤ 2 ^ 16 :=
      fun _ hrange => (length_slice_of_batch hb hrange).2
    have hranges := External.decodeRanges_iff b.firstMember []
      (fun range hrange => Nat.lt_of_le_of_lt (hsmall range hrange) (by decide))
      (fun range hrange => hdecodes _ (hstandard range hrange) (hsmall range hrange))
    rw [External.decodeBatch_ok, Backend.decodeBatch_ok]
    constructor
    · rintro ⟨res, hres, rfl⟩
      obtain ⟨hfast, hblocks⟩ := (hranges res).mp hres
      exact ⟨⟨res, hfast, rfl⟩, hblocks⟩
    · rintro ⟨⟨res, hfast, rfl⟩, hblocks⟩
      exact ⟨res, (hranges res).mpr ⟨hfast, hblocks⟩, rfl⟩
  · intro range hrange hfills out n o hmember
    obtain ⟨hinside, hsmall⟩ := length_slice_of_batch hb hrange
    exact (isize_of_fills hsmall hinside hfills hmember).ge

/-- The batch of two blocks. -/
def twoBlocks : Bgzf.Batch := ⟨0, 0, [(0, 32), (32, 64)], (64, none)⟩

/-- The walk over the file emits the two blocks. -/
theorem twoBlocks_mem : twoBlocks ∈ (Bgzf.walk Bgzf.threeMembers.file 0).1.batches := by
  have hbatches : (Bgzf.walk Bgzf.threeMembers.file 0).1.batches = [twoBlocks] := rfl
  rw [hbatches]
  exact List.mem_singleton_self _

/-- The two blocks end with their trailers. -/
theorem fills_twoBlocks : ∀ range ∈ twoBlocks.ranges, Bgzf.Fills Bgzf.threeMembers.file range := by
  intro range hrange
  exact Bgzf.fills_threeMembers range (List.mem_flatMap.mpr ⟨_, twoBlocks_mem, hrange⟩)

/-- Both blocks decode to one byte. -/
theorem member_twoBlocks : ∀ range ∈ twoBlocks.ranges,
    Gzip.Member crc32 (Bgzf.slice Bgzf.threeMembers.file range) [] 32 [65] := by
  have hmember (range : ℕ × ℕ) (hdecode : Gzip.decodeOneIndexed crc32
      (Bgzf.slice Bgzf.threeMembers.file range) [] 0 = .ok (32, [65])) :
      Gzip.Member crc32 (Bgzf.slice Bgzf.threeMembers.file range) [] 32 [65] := by
    obtain ⟨hiff, -⟩ := Gzip.decodesMember_decodeOneIndexed crc32
      (Bgzf.slice Bgzf.threeMembers.file range) [] 0
    obtain ⟨o, hmember, ho⟩ := (hiff 32 [65]).mp hdecode
    rw [List.nil_append] at ho
    rwa [ho]
  rw [twoBlocks, List.forall_mem_cons, List.forall_mem_singleton]
  exact ⟨hmember _ (by decide +kernel), hmember _ (by decide +kernel)⟩

/-- A final block has no next one. -/
theorem not_nextInStream {bs rest next : List Bool} (hfinal : readBits 1 bs = some (1, rest)) :
    ¬NextInStream bs next := by
  rintro ⟨ts, hblock⟩
  generalize hnot : false = f at hblock
  cases hblock with
  | stored hbit _ _ =>
    rw [hfinal, Option.some.injEq, Prod.mk.injEq] at hbit
    rw [← hbit.1] at hnot
    cases hnot
  | compressed hbit _ _ _ =>
    rw [hfinal, Option.some.injEq, Prod.mk.injEq] at hbit
    rw [← hbit.1] at hnot
    cases hnot

/-- A stream whose first block is final and stored sends no codes. -/
theorem completeCodes_of_stored {bs rest start bs' trees : List Bool} {bfinal : ℕ}
    (hfinal : readBits 1 bs = some (1, rest)) (htype : ∀ mid, readBits 2 rest ≠ some (2, mid))
    (hstart : Relation.ReflTransGen NextInStream bs start)
    (hfinal' : readBits 1 start = some (bfinal, bs')) (htype' : readBits 2 bs' = some (2, trees)) :
    CompleteCodes trees := by
  rcases hstart.cases_head with rfl | ⟨mid, hnext, -⟩
  · rw [hfinal, Option.some.injEq, Prod.mk.injEq] at hfinal'
    obtain ⟨-, rfl⟩ := hfinal'
    exact absurd htype' (htype trees)
  · exact absurd hnext (not_nextInStream hfinal)

/-- Both blocks are standard. -/
theorem standard_twoBlocks :
    ∀ range ∈ twoBlocks.ranges, Standard (Bgzf.slice Bgzf.threeMembers.file range) := by
  have hstandard (range : ℕ × ℕ)
      (hmember : Gzip.Member crc32 (Bgzf.slice Bgzf.threeMembers.file range) [] 32 [65])
      (hslice : Bgzf.slice Bgzf.threeMembers.file range = Bgzf.storedBlock) :
      Standard (Bgzf.slice Bgzf.threeMembers.file range) := by
    obtain ⟨ts, trailerStart, hframe, -⟩ := Gzip.member_iff.mp hmember
    refine ⟨⟨ts, trailerStart, hframe⟩, by rw [hslice]; decide +kernel, ?_⟩
    have hheader : Gzip.parseHeader Bgzf.storedBlock = .ok 18 := by decide +kernel
    rw [hslice, hheader]
    intro headerLen heq start hstart bfinal bs trees
    obtain rfl := Except.ok.inj heq
    refine @completeCodes_of_stored _ ((bits (Bgzf.storedBlock.drop 18)).drop 1) _ _ _ _
      (by decide +kernel) ?_ hstart
    intro mid htype
    have hzero : (readBits 2 ((bits (Bgzf.storedBlock.drop 18)).drop 1)).map Prod.fst = some 0 := by
      decide +kernel
    rw [htype] at hzero
    cases hzero
  have hmember := member_twoBlocks
  rw [twoBlocks, List.forall_mem_cons, List.forall_mem_singleton] at hmember ⊢
  exact ⟨hstandard _ hmember.1 (by decide +kernel), hstandard _ hmember.2 (by decide +kernel)⟩

/-- The theorem at two blocks and the three engines. -/
theorem External.decodeBatch_iff_twoBlocks :
    (External.libdeflate (madeOf crc32)).decodeBatch Bgzf.threeMembers.file twoBlocks =
      .ok (0, [65, 65]) ∧
    (External.isal (Isal.gzipReference crc32)).decodeBatch Bgzf.threeMembers.file twoBlocks =
      .ok (0, [65, 65]) ∧
    (External.zlibrs (Zlibrs.gzipReference crc32)).decodeBatch Bgzf.threeMembers.file twoBlocks =
      .ok (0, [65, 65]) := by
  have hfast : Bgzf.decodeBatch crc32 Bgzf.threeMembers.file twoBlocks = .ok (0, [65, 65]) := by
    decide +kernel
  have hblocks {engine : External} (hdecodes : ∀ member, engine.Decodes crc32 member) :
      engine.decodeBatch Bgzf.threeMembers.file twoBlocks = .ok (0, [65, 65]) := by
    obtain ⟨hiff, hroom⟩ := External.decodeBatch_iff twoBlocks_mem standard_twoBlocks
      (fun member _ _ => hdecodes member) (0, [65, 65])
    exact hiff.mpr ⟨hfast, fun range hrange =>
      ⟨((member_nil_iff []).mp (member_twoBlocks range hrange)).2,
        hroom range hrange (fills_twoBlocks range hrange)⟩⟩
  exact ⟨hblocks (decodes_libdeflate crc32), hblocks (decodes_isal crc32),
    hblocks (decodes_zlibrs crc32)⟩

end Blocks

end Backend

end RustyRapidgzip
