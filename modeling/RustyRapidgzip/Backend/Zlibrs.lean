import RustyRapidgzip.Backend.Member

/-!
# The zlib-rs backend

zlib's stream has 32-bit fields for what is left of the input and of the output. The backend
clamps both lengths to them, resets the stream before every call, and takes the whole bytes
that the engine read ahead off the end it reports.
-/

namespace RustyRapidgzip

namespace Backend

namespace Zlibrs

/-- The call has made progress. -/
def Z_OK : ℤ := 0

/-- The stream has ended. -/
def Z_STREAM_END : ℤ := 1

/-- No progress is possible. -/
def Z_BUF_ERROR : ℤ := -5

/-- `u32::MAX`. -/
def U32_MAX : ℕ := 2 ^ 32 - 1

/-- What a call of `inflate` returns and leaves in its stream, with the bytes it wrote. -/
structure ZStream where
  ret : ℤ
  totalIn : ℕ
  dataType : ℕ
  availOut : ℕ
  made : List UInt8

/-- The engine: the result of a reset, and `inflate` from a fresh stream, with the input it is
shown and the room of the output. -/
structure Engine where
  inflateReset2 : ℤ
  inflate : List UInt8 → ℕ → ZStream

/-- One call, for the member at a byte. -/
def attempt (engine : Engine) (bytePos : ℕ) (input : List UInt8) (room : ℕ) : Attempt :=
  if engine.inflateReset2 ≠ Z_OK then .failure "zlib-rs inflateReset2 failed"
  else
    let strm := engine.inflate (input.take (min input.length U32_MAX)) (min room U32_MAX)
    if strm.ret = Z_STREAM_END then
      let unusedBits := strm.dataType &&& 0x3f
      .success ((bytePos + strm.totalIn - unusedBits / 8) * 8) strm.made
    else if (strm.ret = Z_OK ∨ strm.ret = Z_BUF_ERROR) ∧ strm.availOut = 0 then .overflow
    else .failure "zlib-rs decode failed"

/-- Decode the member at a byte-aligned bit. -/
def decodeMember (grow : Reserve) (engine : Engine) (rounds : ℕ) (body : List UInt8)
    (startBit endBitHint : ℕ) (out : OutVec) : Except DeflateError (Outcome × OutVec) :=
  Backend.decodeMember grow (attempt engine) rounds body startBit endBitHint out

/-- Decode a later member of a chunk. -/
def decodeSubsequentMember (build : Build) (engine : Engine) (rounds : ℕ) (body : List UInt8)
    (pos endBitHint : ℕ) (out : OutVec) :
    Except (Stop DeflateError) ((ℕ × Bool) × OutVec) :=
  Backend.decodeSubsequentMember build (decodeMember build.grow engine rounds) body pos endBitHint
    out

/-- The engine that follows the format and reads nothing ahead. -/
def reference : Engine where
  inflateReset2 := Z_OK
  inflate shown availOut :=
    match Reference.inflate shown [] with
    | none => ⟨Z_BUF_ERROR, shown.length, 0, availOut, []⟩
    | some (e, made) =>
      if made.length ≤ availOut then
        ⟨Z_STREAM_END, (e + 7) / 8, 8 * ((e + 7) / 8) - e, availOut - made.length, made⟩
      else ⟨Z_BUF_ERROR, shown.length, 0, 0, made.take availOut⟩

/-- The engine ended its stream. -/
structure Finishes (strm : ZStream) (used : ℕ) (made : List UInt8) : Prop where
  ret : strm.ret = Z_STREAM_END
  used_eq : strm.totalIn = used + (strm.dataType &&& 0x3f) / 8
  made_eq : strm.made = made

/-- The engine stopped inside the stream because the output was full. -/
structure Overflows (strm : ZStream) : Prop where
  ret : strm.ret = Z_OK ∨ strm.ret = Z_BUF_ERROR
  full : strm.availOut = 0

section Attempt

variable {engine : Engine} {input made : List UInt8} {room used bytePos : ℕ}

/-- Where the engine ends the stream, the attempt succeeds. -/
theorem attempt_finishes (hreset : engine.inflateReset2 = Z_OK)
    (h : Finishes (engine.inflate (input.take (min input.length U32_MAX)) (min room U32_MAX))
      used made) :
    attempt engine bytePos input room = .success ((bytePos + used) * 8) made := by
  obtain ⟨hret, hused, hmade⟩ := h
  unfold attempt
  rw [if_neg (not_not.mpr hreset)]
  simp only [hret, if_true, hused, hmade]
  congr 1
  omega

/-- Where the engine runs out of room, the attempt overflows. -/
theorem attempt_overflows (hreset : engine.inflateReset2 = Z_OK)
    (h : Overflows (engine.inflate (input.take (min input.length U32_MAX)) (min room U32_MAX))) :
    attempt engine bytePos input room = .overflow := by
  obtain ⟨hret, hfull⟩ := h
  unfold attempt
  rw [if_neg (not_not.mpr hreset)]
  simp only [hfull, hret, and_self, if_true]
  apply if_neg
  rcases hret with hret | hret <;> rw [hret] <;> decide

/-- A call succeeds only at the end of the stream. -/
theorem ret_of_attempt {newEndBit : ℕ}
    (h : attempt engine bytePos input room = .success newEndBit made) :
    (engine.inflate (input.take (min input.length U32_MAX)) (min room U32_MAX)).ret =
      Z_STREAM_END := by
  unfold attempt at h
  split at h
  · cases h
  · by_contra hret
    simp only [if_neg hret] at h
    split at h <;> cases h

end Attempt

end Zlibrs

end Backend

end RustyRapidgzip
