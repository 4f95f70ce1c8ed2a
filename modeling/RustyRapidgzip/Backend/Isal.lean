import RustyRapidgzip.Backend.Member
import RustyRapidgzip.Deflate.PreloadRoom

/-!
# The ISA-L backend

A C shim stands between the retry loop and ISA-L. The lengths it is given have 64 bits and
the engine's fields have 32, so the engine is shown the start of a long input only, and the
bytes it took are recovered from the difference of a long and a short counter. The recovered
end is the true one as long as the input is shorter than 4 GiB.
-/

namespace RustyRapidgzip

open PreloadRoom

namespace Backend

namespace Isal

/-- `isal_inflate` found nothing wrong. -/
def ISAL_DECOMP_OK : ℤ := 0

/-- The shim decoded the stream. -/
def ISAL_SHIM_OK : ℤ := 0

/-- The shim ran out of output. -/
def ISAL_SHIM_OVERFLOW : ℤ := 2

/-- What a call of `isal_inflate` returns and leaves in its state, with the bytes it wrote.
`blockFinish` says that the state is behind the final block. -/
structure InflateState where
  ret : ℤ
  blockFinish : Bool
  availIn : ℕ
  availOut : ℕ
  readInLength : ℕ
  made : List UInt8

/-- `isal_inflate` from a fresh state: the input it is shown and the room of the output. -/
abbrev Engine : Type := List UInt8 → ℕ → InflateState

/-- What the shim returns and stores through its pointers. -/
structure ShimResult where
  code : ℤ
  inUsed : ℕ
  outMade : List UInt8

/-- The shim, in the arithmetic of its machine words. -/
def rrgIsalInflateRaw (engine : Engine) (input : List UInt8) (outCap : ℕ) : ShimResult :=
  let s := engine (input.take (input.length % 2 ^ 32)) (outCap % 2 ^ 32)
  if s.ret ≠ ISAL_DECOMP_OK then ⟨-1, 0, []⟩
  else if s.blockFinish = false then
    if s.availOut = 0 then ⟨2, 0, []⟩ else ⟨-1, 0, []⟩
  else
    let consumedBytes := subUsize input.length s.availIn
    let bits := subUsize (consumedBytes * 8 % 2 ^ 64) s.readInLength
    ⟨0, (bits + 7) % 2 ^ 64 / 8, s.made⟩

/-- One call, for the member at a byte. -/
def attempt (engine : Engine) (bytePos : ℕ) (input : List UInt8) (room : ℕ) : Attempt :=
  let r := rrgIsalInflateRaw engine input room
  if r.code = ISAL_SHIM_OK then
    .success ((bytePos + r.inUsed) % 2 ^ 64 * 8 % 2 ^ 64) r.outMade
  else if r.code = ISAL_SHIM_OVERFLOW then .overflow
  else .failure "ISA-L decode failed"

/-- Decode the member at a byte-aligned bit. -/
def decodeMember (grow : Reserve) (engine : Engine) (rounds : ℕ) (body : List UInt8)
    (startBit endBitHint : ℕ) (out : OutVec) : Except DeflateError (Outcome × OutVec) :=
  Backend.decodeMember grow (attempt engine) rounds body startBit endBitHint out

/-- Decode a later member of a chunk. -/
def decodeSubsequentMember (build : Build) (engine : Engine) (rounds : ℕ) (body : List UInt8)
    (pos endBitHint : ℕ) (out : OutVec) :
    Except (Stop DeflateError) ((ℕ × Bool) × OutVec) :=
  Backend.decodeSubsequentMember build (decodeMember build.grow engine rounds) body pos endBitHint
    out

/-- The engine that follows the format and takes whole bytes. -/
def reference : Engine := fun shown availOut =>
  match Reference.inflate shown [] with
  | none => ⟨-1, false, shown.length, availOut, 0, []⟩
  | some (e, made) =>
    if made.length ≤ availOut then
      ⟨ISAL_DECOMP_OK, true, shown.length - (e + 7) / 8, availOut - made.length,
        8 * ((e + 7) / 8) - e, made⟩
    else ⟨ISAL_DECOMP_OK, false, shown.length, 0, 0, made.take availOut⟩

/-! ## What the shim recovers -/

/-- The engine finished the block stream after taking `taken` bytes of what it was shown, with
`buffered` bits of them unused. -/
structure Finishes (s : InflateState) (shown taken buffered : ℕ) (made : List UInt8) : Prop where
  ret : s.ret = ISAL_DECOMP_OK
  finish : s.blockFinish = true
  left : s.availIn + taken = shown
  buffer : s.readInLength = buffered
  within : buffered ≤ 8 * taken
  made_eq : s.made = made

/-- The engine stopped inside the stream because the output was full. -/
structure Overflows (s : InflateState) : Prop where
  ret : s.ret = ISAL_DECOMP_OK
  inside : s.blockFinish = false
  full : s.availOut = 0

section Shim

variable {engine : Engine} {input made : List UInt8} {outCap taken buffered : ℕ}

/-- The shim adds the part of the length that the engine was not shown. -/
theorem shim_finishes (hlen : input.length < 2 ^ 64)
    (h : Finishes (engine (input.take (input.length % 2 ^ 32)) (outCap % 2 ^ 32))
      (input.length % 2 ^ 32) taken buffered made) :
    rrgIsalInflateRaw engine input outCap =
      ⟨0, input.length / 2 ^ 32 % 2 ^ 29 * 2 ^ 32 + (8 * taken - buffered + 7) / 8, made⟩ := by
  obtain ⟨hret, hfinish, hleft, hbuffer, hwithin, hmade⟩ := h
  unfold rrgIsalInflateRaw
  generalize engine (input.take (input.length % 2 ^ 32)) (outCap % 2 ^ 32) = s at *
  simp only [hret, hfinish, hbuffer, hmade, ne_eq, not_true_eq_false, if_false, Bool.true_eq_false]
  have hconsumed : subUsize input.length s.availIn = input.length / 2 ^ 32 * 2 ^ 32 + taken := by
    unfold subUsize
    split <;> omega
  have hbits : subUsize ((input.length / 2 ^ 32 * 2 ^ 32 + taken) * 8 % 2 ^ 64) buffered =
      input.length / 2 ^ 32 % 2 ^ 29 * 2 ^ 35 + (8 * taken - buffered) := by
    unfold subUsize
    split <;> omega
  rw [hconsumed, hbits]
  congr 1
  omega

/-- Where the engine runs out of room, the shim reports an overflow. -/
theorem shim_overflows
    (h : Overflows (engine (input.take (input.length % 2 ^ 32)) (outCap % 2 ^ 32))) :
    rrgIsalInflateRaw engine input outCap = ⟨2, 0, []⟩ := by
  obtain ⟨hret, hinside, hfull⟩ := h
  unfold rrgIsalInflateRaw
  simp only [hret, hinside, hfull, ne_eq, not_true_eq_false, if_false, if_true]

/-- The new end in the arithmetic of the caller. -/
theorem attempt_finishes (bytePos : ℕ) (hlen : input.length < 2 ^ 64)
    (h : Finishes (engine (input.take (input.length % 2 ^ 32)) (outCap % 2 ^ 32))
      (input.length % 2 ^ 32) taken buffered made) :
    attempt engine bytePos input outCap = .success
      ((bytePos + (input.length / 2 ^ 32 % 2 ^ 29 * 2 ^ 32 + (8 * taken - buffered + 7) / 8)) %
        2 ^ 61 * 8) made := by
  simp only [attempt, shim_finishes hlen h, ISAL_SHIM_OK, if_true]
  congr 1
  omega

/-- Where the engine runs out of room, the attempt overflows. -/
theorem attempt_overflows {bytePos : ℕ}
    (h : Overflows (engine (input.take (input.length % 2 ^ 32)) (outCap % 2 ^ 32))) :
    attempt engine bytePos input outCap = .overflow := by
  simp [attempt, shim_overflows h, ISAL_SHIM_OK, ISAL_SHIM_OVERFLOW]

/-- A call succeeds only behind the final block. -/
theorem finish_of_attempt {bytePos newEndBit : ℕ}
    (h : attempt engine bytePos input outCap = .success newEndBit made) :
    (engine (input.take (input.length % 2 ^ 32)) (outCap % 2 ^ 32)).blockFinish = true := by
  simp only [attempt] at h
  by_contra hfinish
  rw [Bool.not_eq_true] at hfinish
  have hcode : (rrgIsalInflateRaw engine input outCap).code ≠ ISAL_SHIM_OK := by
    unfold rrgIsalInflateRaw
    simp only [hfinish, if_true]
    split
    · decide
    · split <;> decide
  rw [if_neg hcode] at h
  split at h <;> cases h

end Shim

/-- The shim reports the end of the stream exactly while fewer than 2^32 bytes are left in the
low 61 bits of the length. The member decoder reports the start of the trailer to every hint
exactly then, if that bit has a 64-bit position at all. -/
theorem inUsed_iff (grow : Reserve) (engine : Engine) (body : List UInt8) (startBit : ℕ)
    (out : OutVec) (k rounds taken buffered : ℕ) (made : List UInt8)
    (hbyte : startBit / 8 < body.length) (hlen : (body.drop (startBit / 8)).length < 2 ^ 64)
    (hover : ∀ i < k, attempt engine (startBit / 8) (body.drop (startBit / 8))
      (roomAt grow out i) = .overflow)
    (hfinishes : Finishes
      (engine ((body.drop (startBit / 8)).take ((body.drop (startBit / 8)).length % 2 ^ 32))
        (roomAt grow out k % 2 ^ 32))
      ((body.drop (startBit / 8)).length % 2 ^ 32) taken buffered made)
    (hrounds : k < rounds) :
    ((rrgIsalInflateRaw engine (body.drop (startBit / 8)) (roomAt grow out k)).inUsed =
        (8 * taken - buffered + 7) / 8 ↔ (body.drop (startBit / 8)).length % 2 ^ 61 < 2 ^ 32) ∧
    ((∀ endBitHint < 2 ^ 64, decodeMember grow engine rounds body startBit endBitHint out =
        .ok (if endBitHint < (startBit / 8 + (8 * taken - buffered + 7) / 8) * 8 then
            (.straddle, (retries grow out k).out)
          else (.done ((startBit / 8 + (8 * taken - buffered + 7) / 8) * 8) true,
            commit (retries grow out k).out made))) ↔
      (body.drop (startBit / 8)).length % 2 ^ 61 < 2 ^ 32 ∧
        (startBit / 8 + (8 * taken - buffered + 7) / 8) * 8 < 2 ^ 64) := by
  have hleft := hfinishes.left
  have hattempt := attempt_finishes (startBit / 8) hlen hfinishes
  have hdecode (endBitHint : ℕ) := decodeMember_retry grow (attempt engine) endBitHint out hbyte
    hover hattempt hrounds
  rw [shim_finishes hlen hfinishes]
  generalize (body.drop (startBit / 8)).length = len at *
  have hhigh : len / 2 ^ 32 % 2 ^ 29 = 0 ↔ len % 2 ^ 61 < 2 ^ 32 := by omega
  refine ⟨by simp only; omega, ?_⟩
  unfold decodeMember
  simp only [hdecode, Except.ok.injEq]
  generalize htrailer : startBit / 8 + (8 * taken - buffered + 7) / 8 = trailer
  generalize hend : (startBit / 8 + (len / 2 ^ 32 % 2 ^ 29 * 2 ^ 32 +
    (8 * taken - buffered + 7) / 8)) % 2 ^ 61 = newEnd
  constructor
  · intro hhints
    have hself := hhints (newEnd * 8) (by omega)
    rw [if_neg (Nat.lt_irrefl _)] at hself
    split at hself
    · cases hself
    · injection hself with hdone
      injection hdone with hpos
      rw [← hhigh]
      omega
  · rintro ⟨hshort, hfit⟩ endBitHint -
    rw [← hhigh] at hshort
    rw [show newEnd = trailer by omega]

/-- An engine that decodes by the reference finishes with room. -/
theorem finishes_reference {shown made : List UInt8} {e availOut : ℕ}
    (h : Reference.inflate shown [] = some (e, made)) (hend : (e + 7) / 8 ≤ shown.length)
    (hroom : made.length ≤ availOut) :
    Finishes (reference shown availOut) shown.length ((e + 7) / 8)
      (8 * ((e + 7) / 8) - e) made := by
  have href : reference shown availOut = ⟨ISAL_DECOMP_OK, true, shown.length - (e + 7) / 8,
      availOut - made.length, 8 * ((e + 7) / 8) - e, made⟩ := by
    unfold reference
    rw [h]
    exact if_pos hroom
  rw [href]
  exact ⟨rfl, rfl, Nat.sub_add_cancel hend, rfl, Nat.sub_le _ _, rfl⟩

/-- An engine that loads eight bytes at once, on an empty fixed block and its trailer: ten of the
64 bits are used. -/
def readAhead : Engine := fun shown availOut =>
  ⟨ISAL_DECOMP_OK, true, shown.length - 8, availOut, 54, []⟩

/-- An empty fixed block and the trailer of an empty member. -/
def fixedMember : List UInt8 := [3, 0, 0, 0, 0, 0, 0, 0, 0, 0]

/-- Ten bits of the eight bytes that were taken are two bytes of the stream. -/
theorem inUsed_iff_fixedMember :
    (rrgIsalInflateRaw readAhead fixedMember 16777216).inUsed = 2 ∧
      decodeMember amortized readAhead 1 fixedMember 0 15 ⟨[], 0, le_rfl⟩ =
        .ok (.straddle, (start amortized ⟨[], 0, le_rfl⟩).out) ∧
      decodeMember amortized readAhead 1 fixedMember 0 16 ⟨[], 0, le_rfl⟩ =
        .ok (.done 16 true, commit (start amortized ⟨[], 0, le_rfl⟩).out []) := by
  have hfinishes : Finishes (readAhead ((fixedMember.drop (0 / 8)).take
      ((fixedMember.drop (0 / 8)).length % 2 ^ 32))
      (roomAt amortized ⟨[], 0, le_rfl⟩ 0 % 2 ^ 32))
      ((fixedMember.drop (0 / 8)).length % 2 ^ 32) 8 54 [] :=
    ⟨rfl, rfl, by decide, rfl, by decide, rfl⟩
  obtain ⟨hused, hdone⟩ := inUsed_iff amortized readAhead fixedMember 0
    ⟨[], 0, le_rfl⟩ 0 1 8 54 [] (by decide) (by decide) (by simp) hfinishes (by decide)
  have hhints := hdone.mpr (by decide)
  exact ⟨hused.mpr (by decide), hhints 15 (by decide), hhints 16 (by decide)⟩

/-- An empty stored block and the trailer of an empty member. -/
def emptyMember : List UInt8 := [1, 0, 0, 0xff, 0xff, 0, 0, 0, 0, 0, 0, 0, 0]

/-- In front of 4 GiB the engine is shown the empty member only. -/
theorem emptyMember_take {tail : List UInt8} (htail : tail.length = 2 ^ 32) :
    (emptyMember ++ tail).length % 2 ^ 32 = 13 ∧ (emptyMember ++ tail).take 13 = emptyMember := by
  have hlen : emptyMember.length = 13 := rfl
  have hmod : (emptyMember ++ tail).length % 2 ^ 32 = 13 := by
    rw [List.length_append, hlen, htail]
    rfl
  refine ⟨hmod, ?_⟩
  rw [← hlen]
  exact List.take_left

/-- Behind an empty member and 4 GiB the shim reports 4 GiB too much. -/
theorem inUsed_tail {tail : List UInt8} (htail : tail.length = 2 ^ 32) :
    Finishes (reference ((emptyMember ++ tail).take ((emptyMember ++ tail).length % 2 ^ 32))
        (16777216 % 2 ^ 32)) ((emptyMember ++ tail).length % 2 ^ 32) 5 0 [] ∧
      (rrgIsalInflateRaw reference (emptyMember ++ tail) 16777216).inUsed = 5 + 2 ^ 32 ∧
      decodeMember amortized reference 1 (emptyMember ++ tail) 0 40 ⟨[], 0, le_rfl⟩ =
        .ok (.straddle, (start amortized ⟨[], 0, le_rfl⟩).out) := by
  have hvalid : Reference.inflate emptyMember [] = some (40, []) := by decide +kernel
  obtain ⟨hmod, htake⟩ := emptyMember_take htail
  have hlen : (emptyMember ++ tail).length = 13 + 2 ^ 32 := by
    rw [List.length_append, htail]
    rfl
  have hfinishes : Finishes
      (reference ((emptyMember ++ tail).take ((emptyMember ++ tail).length % 2 ^ 32))
        (16777216 % 2 ^ 32)) ((emptyMember ++ tail).length % 2 ^ 32) 5 0 [] := by
    rw [hmod, htake]
    exact finishes_reference hvalid (by decide) (by decide)
  have hfit : (emptyMember ++ tail).length < 2 ^ 64 := by omega
  have hattempt := attempt_finishes 0 hfit hfinishes
  have hdecode := decodeMember_retry amortized (attempt reference) 40 ⟨[], 0, le_rfl⟩
    (show 0 / 8 < (emptyMember ++ tail).length by omega) (k := 0) (by simp) hattempt Nat.one_pos
  refine ⟨hfinishes, ?_, ?_⟩
  · rw [shim_finishes hfit hfinishes, hlen]
    rfl
  · rw [decodeMember, hdecode, hlen]
    rfl

/-- With 4 GiB behind an empty member, the engine takes the five bytes of the stream and the
shim reports 4 GiB more. The member decoder takes the member for one that goes on past the bit
at which it ends. -/
theorem inUsed_wraps :
    Finishes (reference ((emptyMember ++ List.replicate (2 ^ 32) 0).take
        ((emptyMember ++ List.replicate (2 ^ 32) 0).length % 2 ^ 32)) (16777216 % 2 ^ 32))
        ((emptyMember ++ List.replicate (2 ^ 32) 0).length % 2 ^ 32) 5 0 [] ∧
      ¬(rrgIsalInflateRaw reference (emptyMember ++ List.replicate (2 ^ 32) 0) 16777216).inUsed =
        (8 * 5 - 0 + 7) / 8 ∧
      ¬decodeMember amortized reference 1 (emptyMember ++ List.replicate (2 ^ 32) 0) 0 40
          ⟨[], 0, le_rfl⟩ =
            .ok (.done 40 true, commit (start amortized ⟨[], 0, le_rfl⟩).out []) := by
  obtain ⟨hfinishes, hused, hdecode⟩ := inUsed_tail (List.length_replicate (n := 2 ^ 32) (a := 0))
  refine ⟨hfinishes, ?_, ?_⟩
  · rw [hused]
    decide
  · rw [hdecode]
    simp

end Isal

end Backend

end RustyRapidgzip
