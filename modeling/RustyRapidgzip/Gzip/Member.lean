import RustyRapidgzip.Deflate.FastInflate
import RustyRapidgzip.Deflate.SafeCorrect
import RustyRapidgzip.Lib.Crc

/-!
# Gzip members

The framing around a deflate stream: a header with optional fields and a trailer with
the checksum and the length of the decompressed bytes. The three member decoders differ
in their inflater only.
-/

namespace RustyRapidgzip

open LsbBits Reference Crc Lz

namespace Gzip

/-- The errors of the framing. -/
inductive GzipError where
  | badMagic
  | unsupportedMethod (cm : UInt8)
  | reservedFlags (flg : UInt8)
  | truncated
  | crcMismatch (expected got member uncompressed trailerByte : ℕ)
  | isizeMismatch (expected got member trailerByte : ℕ)
  | deflate (e : DeflateError)
  deriving DecidableEq, Repr

/-- The first two bytes of a member. -/
def GZ_MAGIC : List UInt8 := [0x1f, 0x8b]

/-- The compression method of a member. -/
def CM_DEFLATE : UInt8 := 8

/-- The header has a checksum. -/
def FHCRC : UInt8 := (1 : UInt8) <<< 1

/-- The header has an extra field. -/
def FEXTRA : UInt8 := (1 : UInt8) <<< 2

/-- The header has a file name. -/
def FNAME : UInt8 := (1 : UInt8) <<< 3

/-- The header has a comment. -/
def FCOMMENT : UInt8 := (1 : UInt8) <<< 4

/-- The reserved flags. -/
def FRESERVED : UInt8 := 0b11100000

/-- Skip a string with its final zero byte. -/
def skipZstring (input : List UInt8) (pos : ℕ) : Except GzipError ℕ :=
  if input.length < pos then .error .truncated
  else
    match (input.drop pos).findIdx? (· == 0) with
    | none => .error .truncated
    | some offset => .ok (pos + offset + 1)

/-- Skip the extra field. -/
def skipExtra (input : List UInt8) (flg : UInt8) : Except GzipError ℕ :=
  if flg &&& FEXTRA ≠ 0 then
    if input.length < 10 + 2 then .error .truncated
    else
      let xlen := leNat ((input.drop 10).take 2)
      let pos := 10 + (2 + xlen)
      if input.length < pos then .error .truncated else .ok pos
  else .ok 10

/-- Skip the string that a flag announces. -/
def skipFlagged (input : List UInt8) (flg flag : UInt8) (pos : ℕ) : Except GzipError ℕ :=
  if flg &&& flag ≠ 0 then skipZstring input pos else .ok pos

/-- Skip the header's checksum. -/
def skipHcrc (input : List UInt8) (flg : UInt8) (pos : ℕ) : Except GzipError ℕ :=
  if flg &&& FHCRC ≠ 0 then
    if input.length < pos + 2 then .error .truncated else .ok (pos + 2)
  else .ok pos

/-- The header's optional fields, in their order. -/
def parseFields (input : List UInt8) (flg : UInt8) : Except GzipError ℕ := do
  let pos ← skipExtra input flg
  let pos ← skipFlagged input flg FNAME pos
  let pos ← skipFlagged input flg FCOMMENT pos
  skipHcrc input flg pos

/-- Parse the gzip header and return its length. -/
def parseHeader (input : List UInt8) : Except GzipError ℕ :=
  if input.length < 10 then .error .truncated
  else if input.take 2 ≠ GZ_MAGIC then .error .badMagic
  else
    let cm := input.getD 2 0
    if cm ≠ CM_DEFLATE then .error (.unsupportedMethod cm)
    else
      let flg := input.getD 3 0
      if flg &&& FRESERVED ≠ 0 then .error (.reservedFlags flg) else parseFields input flg

/-- Check the trailer of a member against its decoded bytes. The result is the position
after the trailer. -/
def checkTrailer (crc : Checksum) (input : List UInt8) (trailerStart : ℕ) (decoded : List UInt8)
    (member : ℕ) : Except GzipError ℕ :=
  if input.length < trailerStart + 8 then .error .truncated
  else
    let crcExpected := leNat ((input.drop trailerStart).take 4)
    let isizeExpected := leNat ((input.drop (trailerStart + 4)).take 4)
    let crcGot := crc.hash decoded
    if crcGot ≠ crcExpected then
      .error (.crcMismatch crcExpected crcGot member decoded.length trailerStart)
    else if decoded.length % 2 ^ 32 ≠ isizeExpected then
      .error (.isizeMismatch isizeExpected decoded.length member trailerStart)
    else .ok (trailerStart + 8)

/-- Decode one member with the serial inflater. -/
def decodeOneIndexed (crc : Checksum) (input out : List UInt8) (member : ℕ) :
    Except GzipError (ℕ × List UInt8) := do
  let headerLen ← parseHeader input
  match Inflate.inflate out (BitReader.new (input.drop headerLen)) with
  | .error e => .error (.deflate e)
  | .ok (res, br) =>
    let bodyBytes := br.byteAlign.tellBit / 8
    let consumed ← checkTrailer crc input (headerLen + bodyBytes) (res.drop out.length) member
    .ok (consumed, res)

/-- Decode one member with the safe inflater. -/
def decodeOneIndexedSafe (crc : Checksum) (input out : List UInt8) (member : ℕ) :
    Except GzipError (ℕ × List UInt8) := do
  let headerLen ← parseHeader input
  match SafeInflate.inflateInto (input.drop headerLen) out with
  | .error e => .error (.deflate e)
  | .ok (bodyBytes, res) =>
    let consumed ← checkTrailer crc input (headerLen + bodyBytes) (res.drop out.length) member
    .ok (consumed, res)

/-- Decode one member with the fast inflater. -/
def decodeOneIndexedFast (crc : Checksum) (input out : List UInt8) (member : ℕ) :
    Except GzipError (ℕ × List UInt8) := do
  let headerLen ← parseHeader input
  match FastInflate.inflateFast out (BitReader.new (input.drop headerLen)) with
  | .error e => .error (.deflate e)
  | .ok (res, br) =>
    let bodyBytes := br.byteAlign.tellBit / 8
    let consumed ← checkTrailer crc input (headerLen + bodyBytes) (res.drop out.length) member
    .ok (consumed, res)

/-- One round of the loop over the members. -/
def membersRound (crc : Checksum) (input : List UInt8) (s : (ℕ × ℕ) × List UInt8) :
    Except GzipError (((ℕ × ℕ) × List UInt8) ⊕ List UInt8) :=
  let ((pos, member), out) := s
  if pos < input.length then
    match decodeOneIndexed crc (input.drop pos) out member with
    | .error e => .error e
    | .ok (consumed, out) => .ok (.inl ((pos + consumed, member + 1), out))
  else .ok (.inr out)

/-- Decode all members of `input`. Each one has a byte, which bounds the rounds. The
result is the number of appended bytes and the output. -/
def decodeAll (crc : Checksum) (input out : List UInt8) : Except GzipError (ℕ × List UInt8) :=
  match Loop.iterate (.deflate .outOfFuel) (membersRound crc input) (input.length + 1)
    ((0, 0), out) with
  | .error e => .error e
  | .ok res => .ok (res.length - out.length, res)

/-! ## The members of the format -/

/-- A member of the format at the start of `input`: a header, a deflate stream that
appends `o` to the history, and a trailer that matches it. -/
def Member (crc : Checksum) (input out : List UInt8) (consumed : ℕ) (o : List UInt8) : Prop :=
  ∃ headerLen e, parseHeader input = .ok headerLen ∧
    Reference.inflate (input.drop headerLen) out = some (e, o) ∧
    checkTrailer crc input (headerLen + (e + 7) / 8) o 0 = .ok consumed

variable {crc : Checksum} {input out : List UInt8}

/-- The member's number only appears in errors. -/
theorem checkTrailer_ok_iff {pos n member : ℕ} {o : List UInt8} :
    checkTrailer crc input pos o member = .ok n ↔
      pos + 8 ≤ input.length ∧ crc.hash o = leNat ((input.drop pos).take 4) ∧
        o.length % 2 ^ 32 = leNat ((input.drop (pos + 4)).take 4) ∧ n = pos + 8 := by
  unfold checkTrailer
  by_cases hroom : input.length < pos + 8
  · rw [if_pos hroom]
    simp
    omega
  by_cases hcrc : crc.hash o = leNat ((input.drop pos).take 4)
  · by_cases hsize : o.length % 2 ^ 32 = leNat ((input.drop (pos + 4)).take 4)
    · simp only [if_neg hroom, hcrc, hsize, ne_eq, not_true_eq_false, if_false, Except.ok.injEq,
        true_and]
      omega
    · simp only [if_neg hroom, hcrc, hsize, ne_eq, not_true_eq_false, if_false, not_false_eq_true,
        if_true, reduceCtorEq, false_and, and_false]
  · simp [hroom, hcrc]

/-- The check of a trailer does not run out of rounds. -/
theorem checkTrailer_error {pos member : ℕ} {o : List UInt8} {e : GzipError}
    (h : checkTrailer crc input pos o member = .error e) : e ≠ .deflate .outOfFuel := by
  unfold checkTrailer at h
  rintro rfl
  split at h
  · cases h
  simp only at h
  split at h
  · cases h
  split at h <;> cases h

/-- What an inflater returns on the body of a member: it decodes the streams that leave
it 48 bits, and only streams. -/
def InflatesTo (body out : List UInt8) : Except DeflateError (ℕ × List UInt8) → Prop
  | .error e => e ≠ .outOfFuel ∧
      ∀ ts rest, Stream 48 (bits body) ts rest → expand id out ts = none
  | .ok (bodyBytes, res) => ∃ ts rest, Stream 0 (bits body) ts rest ∧
      expand id out ts = some res ∧ bodyBytes = (8 * body.length - rest.length + 7) / 8

/-- The part of a member decoder after its header. -/
def finish (crc : Checksum) (input out : List UInt8) (headerLen member : ℕ) :
    Except DeflateError (ℕ × List UInt8) → Except GzipError (ℕ × List UInt8)
  | .error e => .error (.deflate e)
  | .ok (bodyBytes, res) => do
    let consumed ← checkTrailer crc input (headerLen + bodyBytes) (res.drop out.length) member
    .ok (consumed, res)

/-- Before a trailer, an inflater that reads ahead is as good as one that does not. -/
theorem finish_iff {headerLen member n : ℕ} {r : Except DeflateError (ℕ × List UInt8)}
    {res : List UInt8} (hr : InflatesTo (input.drop headerLen) out r) :
    finish crc input out headerLen member r = .ok (n, res) ↔
      ∃ e o, Reference.inflate (input.drop headerLen) out = some (e, o) ∧ res = out ++ o ∧
        checkTrailer crc input (headerLen + (e + 7) / 8) o 0 = .ok n := by
  simp only [inflate_iff, checkTrailer_ok_iff]
  constructor
  · intro h
    cases r with
    | error e => cases h
    | ok r =>
      obtain ⟨bodyBytes, res'⟩ := r
      obtain ⟨ts, rest, hstream, hexpand, rfl⟩ := hr
      simp only [finish, bind, Except.bind] at h
      split at h
      · cases h
      · next hcheck =>
        cases h
        obtain ⟨o, rfl⟩ := expand_extends hexpand
        rw [List.drop_left, checkTrailer_ok_iff] at hcheck
        have hle := hstream.length_lt
        rw [bits_length] at hle
        exact ⟨_, o, ⟨ts, rest, hstream, hexpand, by omega⟩, rfl, hcheck⟩
  · rintro ⟨e, o, ⟨ts, rest, hstream, hexpand, he⟩, rfl, hcheck⟩
    have hroom := hcheck.1
    rw [List.length_drop] at he
    have hstream48 : Stream 48 (bits (input.drop headerLen)) ts rest :=
      Blocks.of_rest hstream (by omega)
    cases r with
    | error err =>
      rw [hr.2 ts rest hstream48] at hexpand
      cases hexpand
    | ok r =>
      obtain ⟨bodyBytes, res⟩ := r
      obtain ⟨us, rest', hstream', hexpand', rfl⟩ := hr
      obtain ⟨-, rfl, rfl⟩ := Blocks.unique hstream hstream'
      rw [hexpand] at hexpand'
      cases hexpand'
      have hbytes : (8 * (input.drop headerLen).length - rest.length + 7) / 8 = (e + 7) / 8 := by
        rw [List.length_drop]
        congr 1
        omega
      have hok : checkTrailer crc input (headerLen + (e + 7) / 8) o member = .ok n :=
        checkTrailer_ok_iff.mpr hcheck
      simp only [finish, List.drop_left, hbytes, hok]
      rfl

/-- The end of a member does not run out of rounds. -/
theorem finish_error {headerLen member : ℕ} {r : Except DeflateError (ℕ × List UInt8)}
    {e : GzipError} (hr : InflatesTo (input.drop headerLen) out r)
    (h : finish crc input out headerLen member r = .error e) : e ≠ .deflate .outOfFuel := by
  cases r with
  | error err =>
    cases h
    simpa using hr.1
  | ok r =>
    simp only [finish, bind, Except.bind] at h
    split at h
    · next hcheck =>
      cases h
      exact checkTrailer_error hcheck
    · cases h

/-- A whole member decoder: its header, and then an inflater. -/
theorem decodes_iff {member n : ℕ} {inflater : ℕ → Except DeflateError (ℕ × List UInt8)}
    (hinflater : ∀ headerLen, InflatesTo (input.drop headerLen) out (inflater headerLen))
    {res : List UInt8} :
    (parseHeader input >>= fun headerLen =>
        finish crc input out headerLen member (inflater headerLen)) = .ok (n, res) ↔
      ∃ o, Member crc input out n o ∧ res = out ++ o := by
  cases hheader : parseHeader input with
  | error e =>
    simp only [bind, Except.bind, reduceCtorEq, false_iff, not_exists, not_and]
    rintro o ⟨headerLen, _, hparse, -⟩
    rw [hheader] at hparse
    cases hparse
  | ok headerLen =>
    simp only [bind, Except.bind]
    rw [finish_iff (hinflater headerLen)]
    constructor
    · rintro ⟨e, o, hinflate, rfl, hcheck⟩
      exact ⟨o, ⟨headerLen, e, hheader, hinflate, hcheck⟩, rfl⟩
    · rintro ⟨o, ⟨headerLen', e, hparse, hinflate, hcheck⟩, rfl⟩
      rw [hheader] at hparse
      cases hparse
      exact ⟨e, o, hinflate, rfl, hcheck⟩

/-- What a header parser returns from a position on: a later position inside the input, or
an error of its own. -/
def Skips (input : List UInt8) (pos : ℕ) : Except GzipError ℕ → Prop
  | .error e => e ≠ .deflate .outOfFuel
  | .ok n => pos ≤ n ∧ n ≤ input.length

/-- Two skips in a row are a skip. -/
theorem Skips.bind {pos : ℕ} {r : Except GzipError ℕ} {f : ℕ → Except GzipError ℕ}
    (h : Skips input pos r) (hf : ∀ n, pos ≤ n → n ≤ input.length → Skips input n (f n)) :
    Skips input pos (r >>= f) := by
  cases r with
  | error e => exact h
  | ok n =>
    have hnext := hf n h.1 h.2
    change Skips input pos (f n)
    cases hres : f n with
    | error e =>
      rw [hres] at hnext
      exact hnext
    | ok m =>
      rw [hres] at hnext
      exact ⟨Nat.le_trans h.1 hnext.1, hnext.2⟩

/-- Skipping a string moves on within the input. -/
theorem skipZstring_skips {pos : ℕ} : Skips input pos (skipZstring input pos) := by
  unfold skipZstring
  split
  · simp [Skips]
  · next hpos =>
    cases hfind : (input.drop pos).findIdx? (· == 0) with
    | none => simp [Skips]
    | some offset =>
      have hlt := (List.findIdx?_eq_some_iff_findIdx_eq.mp hfind).1
      rw [List.length_drop] at hlt
      exact ⟨by omega, by omega⟩

/-- Skipping a string that a flag announces moves on within the input. -/
theorem skipFlagged_skips {flg flag : UInt8} {pos : ℕ} (hpos : pos ≤ input.length) :
    Skips input pos (skipFlagged input flg flag pos) := by
  unfold skipFlagged
  split
  · exact skipZstring_skips
  · exact ⟨le_rfl, hpos⟩

/-- A header ends inside the input, after its fixed part. -/
theorem parseHeader_skips : Skips input 10 (parseHeader input) := by
  unfold parseHeader
  split
  · simp [Skips]
  next hlen =>
  split
  · simp [Skips]
  simp only
  split
  · simp [Skips]
  split
  · simp [Skips]
  have hextra (flg : UInt8) : Skips input 10 (skipExtra input flg) := by
    unfold skipExtra
    split
    · split
      · simp [Skips]
      simp only
      split
      · simp [Skips]
      · exact ⟨by omega, by omega⟩
    · exact ⟨le_rfl, by omega⟩
  refine (hextra _).bind fun pos _ hpos => ?_
  refine (skipFlagged_skips hpos).bind fun pos _ hpos => ?_
  refine (skipFlagged_skips hpos).bind fun pos _ hpos => ?_
  unfold skipHcrc
  split
  · split
    · simp [Skips]
    · exact ⟨by omega, by omega⟩
  · exact ⟨le_rfl, hpos⟩

/-- A header has ten bytes or more, and ends within the input. -/
theorem parseHeader_bounds {headerLen : ℕ} (h : parseHeader input = .ok headerLen) :
    10 ≤ headerLen ∧ headerLen ≤ input.length := by
  have hskips : Skips input 10 (parseHeader input) := parseHeader_skips
  rwa [h] at hskips

/-! ## The member decoders -/

/-- A decoder that reads ahead, with the position its caller computes from the reader. -/
theorem inflatesTo_of_stream {body : List UInt8}
    {r : Except DeflateError (List UInt8 × BitReader)}
    (h : StreamSpec body 48 48 (bits body) out r) :
    InflatesTo body out (r.map fun r => (r.2.byteAlign.tellBit / 8, r.1)) := by
  cases r with
  | error e => exact h
  | ok r =>
    obtain ⟨ts, rest, hstream, hexpand, hat⟩ := h
    have htell := hat.byteAlign.tellBit
    have hle := hat.length_le
    rw [alignBits, List.length_drop] at htell
    exact ⟨ts, rest, Blocks.mono hstream (Nat.zero_le _), hexpand, by omega⟩

/-- The simple decoder inflates. -/
theorem inflatesTo_inflate (body : List UInt8) :
    InflatesTo body out ((Inflate.inflate out (BitReader.new body)).map fun r =>
      (r.2.byteAlign.tellBit / 8, r.1)) :=
  inflatesTo_of_stream
    (streamSpec_blocksWith Inflate.decodesBlocks_inflateBlock out (BitReader.new_at body))

/-- The fast decoder inflates. -/
theorem inflatesTo_inflateFast (body : List UInt8) :
    InflatesTo body out ((FastInflate.inflateFast out (BitReader.new body)).map fun r =>
      (r.2.byteAlign.tellBit / 8, r.1)) :=
  inflatesTo_of_stream (FastInflate.streamSpec_inflateFast out (BitReader.new_at body))

/-- The safe decoder inflates. -/
theorem inflatesTo_inflateInto (body : List UInt8) :
    InflatesTo body out (SafeInflate.inflateInto body out) := by
  have hspec := SafeInflate.inflateInto_spec body out
  revert hspec
  cases SafeInflate.inflateInto body out with
  | error e =>
    rintro ⟨he, hnone⟩
    exact ⟨he, fun ts rest hstream => hnone ts rest (Blocks.mono hstream (Nat.zero_le _))⟩
  | ok r => exact id

/-- The member decoder is the header, the simple decoder and the trailer. -/
theorem decodeOneIndexed_eq (member : ℕ) :
    decodeOneIndexed crc input out member = parseHeader input >>= fun headerLen =>
      finish crc input out headerLen member
        ((Inflate.inflate out (BitReader.new (input.drop headerLen))).map fun r =>
          (r.2.byteAlign.tellBit / 8, r.1)) := by
  unfold decodeOneIndexed
  congr 1
  funext headerLen
  cases Inflate.inflate out (BitReader.new (input.drop headerLen)) <;> rfl

/-- The fast member decoder is the header, the fast decoder and the trailer. -/
theorem decodeOneIndexedFast_eq (member : ℕ) :
    decodeOneIndexedFast crc input out member = parseHeader input >>= fun headerLen =>
      finish crc input out headerLen member
        ((FastInflate.inflateFast out (BitReader.new (input.drop headerLen))).map fun r =>
          (r.2.byteAlign.tellBit / 8, r.1)) := by
  unfold decodeOneIndexedFast
  congr 1
  funext headerLen
  cases FastInflate.inflateFast out (BitReader.new (input.drop headerLen)) <;> rfl

/-- The safe member decoder is the header, the safe decoder and the trailer. -/
theorem decodeOneIndexedSafe_eq (member : ℕ) :
    decodeOneIndexedSafe crc input out member = parseHeader input >>= fun headerLen =>
      finish crc input out headerLen member
        (SafeInflate.inflateInto (input.drop headerLen) out) := by
  unfold decodeOneIndexedSafe
  congr 1

/-- What the member decoders return: the member of the format, or an error. -/
def DecodesMember (crc : Checksum) (input out : List UInt8)
    (r : Except GzipError (ℕ × List UInt8)) : Prop :=
  (∀ n res, r = .ok (n, res) ↔ ∃ o, Member crc input out n o ∧ res = out ++ o) ∧
    r ≠ .error (.deflate .outOfFuel)

/-- With a decoder that inflates, members are decoded. -/
theorem decodesMember_of_inflatesTo {member : ℕ}
    {inflater : ℕ → Except DeflateError (ℕ × List UInt8)}
    (hinflater : ∀ headerLen, InflatesTo (input.drop headerLen) out (inflater headerLen)) :
    DecodesMember crc input out (parseHeader input >>= fun headerLen =>
      finish crc input out headerLen member (inflater headerLen)) := by
  refine ⟨fun n res => decodes_iff hinflater, fun h => ?_⟩
  have hskips : Skips input 10 (parseHeader input) := parseHeader_skips
  cases hheader : parseHeader input with
  | error e =>
    rw [hheader] at h hskips
    cases h
    exact hskips rfl
  | ok headerLen =>
    rw [hheader] at h
    exact finish_error (hinflater headerLen) h rfl

/-- The member decoder decodes members. -/
theorem decodesMember_decodeOneIndexed (crc : Checksum) (input out : List UInt8) (member : ℕ) :
    DecodesMember crc input out (decodeOneIndexed crc input out member) := by
  rw [decodeOneIndexed_eq]
  exact decodesMember_of_inflatesTo fun _ => inflatesTo_inflate _

/-- The fast member decoder decodes members. -/
theorem decodesMember_decodeOneIndexedFast (crc : Checksum) (input out : List UInt8)
    (member : ℕ) : DecodesMember crc input out (decodeOneIndexedFast crc input out member) := by
  rw [decodeOneIndexedFast_eq]
  exact decodesMember_of_inflatesTo fun _ => inflatesTo_inflateFast _

/-- The safe member decoder decodes members. -/
theorem decodesMember_decodeOneIndexedSafe (crc : Checksum) (input out : List UInt8)
    (member : ℕ) : DecodesMember crc input out (decodeOneIndexedSafe crc input out member) := by
  rw [decodeOneIndexedSafe_eq]
  exact decodesMember_of_inflatesTo fun _ => inflatesTo_inflateInto _

/-- The three member decoders fail on the same inputs and otherwise consume and append
the same. -/
theorem memberDecoders_agree (crc : Checksum) (input out : List UInt8) (member : ℕ) :
    (∃ consumed o, decodeOneIndexed crc input out member = .ok (consumed, out ++ o) ∧
      decodeOneIndexedFast crc input out member = .ok (consumed, out ++ o) ∧
      decodeOneIndexedSafe crc input out member = .ok (consumed, out ++ o)) ∨
    (∃ e e' e'', decodeOneIndexed crc input out member = .error e ∧
      decodeOneIndexedFast crc input out member = .error e' ∧
      decodeOneIndexedSafe crc input out member = .error e'' ∧
      e ≠ .deflate .outOfFuel ∧ e' ≠ .deflate .outOfFuel ∧ e'' ≠ .deflate .outOfFuel) := by
  obtain ⟨hserial, hserial'⟩ := decodesMember_decodeOneIndexed crc input out member
  obtain ⟨hfast, hfast'⟩ := decodesMember_decodeOneIndexedFast crc input out member
  obtain ⟨hsafe, hsafe'⟩ := decodesMember_decodeOneIndexedSafe crc input out member
  by_cases hmember : ∃ n o, Member crc input out n o
  · obtain ⟨n, o, hmember⟩ := hmember
    exact Or.inl ⟨n, o, (hserial n _).mpr ⟨o, hmember, rfl⟩, (hfast n _).mpr ⟨o, hmember, rfl⟩,
      (hsafe n _).mpr ⟨o, hmember, rfl⟩⟩
  · have hfails {r : Except GzipError (ℕ × List UInt8)}
        (hr : ∀ n res, r = .ok (n, res) ↔ ∃ o, Member crc input out n o ∧ res = out ++ o)
        (hr' : r ≠ .error (.deflate .outOfFuel)) :
        ∃ e, r = .error e ∧ e ≠ .deflate .outOfFuel := by
      cases r with
      | error e => exact ⟨e, rfl, fun he => hr' (by rw [he])⟩
      | ok r =>
        obtain ⟨o, ho, -⟩ := (hr r.1 r.2).mp rfl
        exact absurd ⟨r.1, o, ho⟩ hmember
    obtain ⟨e, he, hne⟩ := hfails hserial hserial'
    obtain ⟨e', he', hne'⟩ := hfails hfast hfast'
    obtain ⟨e'', he'', hne''⟩ := hfails hsafe hsafe'
    exact Or.inr ⟨e, e', e'', he, he', he'', hne, hne', hne''⟩

end Gzip

end RustyRapidgzip
