import RustyRapidgzip.Gzip.Concat
import RustyRapidgzip.Pipeline.Chunk

/-!
# The serial member loop

With one worker the body is decoded block by block over a window of real output. Output is
sent in large chunks as the blocks produce it, but the last 32 KiB stay behind for the
copies of the next block. The loop decodes exactly the members of the format.
-/

namespace RustyRapidgzip

open LsbBits Reference Lz Crc

namespace Pipeline

/-- The history that stays behind: no copy reaches further. -/
def SERIAL_WINDOW : ℕ := 32 * 1024

/-- The checks of a member against its trailer. -/
def validateMember (crcExpected isizeExpected crcGot uncompressed member trailerByte : ℕ) :
    Except Error Unit :=
  if crcGot ≠ crcExpected then
    .error (.gzip (.crcMismatch crcExpected crcGot member uncompressed trailerByte))
  else if uncompressed % 2 ^ 32 ≠ isizeExpected then
    .error (.gzip (.isizeMismatch isizeExpected uncompressed member trailerByte))
  else .ok ()

/-- The variables of the loop. `hashed` is what the member's checksum was updated with, and
`sent` are the chunks the sink has received. -/
structure SerialState where
  br : BitReader
  out : List UInt8
  totalUncompressed : ℕ
  memberIdx : ℕ
  hashed : List UInt8
  memberUncompressed : ℕ
  sent : List (List UInt8)

/-- Send all of `out` and go on with `next`. -/
def handOff (chunk next : List UInt8) (s : SerialState) : SerialState :=
  { s with
    out := next
    totalUncompressed := s.totalUncompressed + chunk.length
    hashed := s.hashed ++ chunk
    memberUncompressed := s.memberUncompressed + chunk.length
    sent := s.sent ++ [chunk] }

/-- Handing bytes on keeps the member's number. -/
@[simp] theorem handOff_memberIdx (chunk next : List UInt8) (s : SerialState) :
    (handOff chunk next s).memberIdx = s.memberIdx := rfl

/-- Handing bytes on leaves the rest. -/
@[simp] theorem handOff_out (chunk next : List UInt8) (s : SerialState) :
    (handOff chunk next s).out = next := rfl

/-- `while out.len() >= chunk_target + SERIAL_WINDOW`, send all but the window. Each round
shortens the output, which bounds the rounds. -/
def emitChunks (chunkTarget : ℕ) : ℕ → SerialState → SerialState
  | 0, s => s
  | rounds + 1, s =>
    if chunkTarget + SERIAL_WINDOW ≤ s.out.length then
      let emitLen := s.out.length - SERIAL_WINDOW
      emitChunks chunkTarget rounds (handOff (s.out.take emitLen) (s.out.drop emitLen) s)
    else s

/-- Send what the member's last blocks produced. -/
def flushMember (s : SerialState) : SerialState := if s.out ≠ [] then handOff s.out [] s else s

/-- After a member's final block: its trailer, and then the end of the body or the next
member's first block. -/
def endSerialMember (crc : Checksum) (body : List UInt8) (bodyOffset : ℕ) (s : SerialState) :
    Except Error (SerialState ⊕ (ℕ × SerialState)) :=
  let br := s.br.byteAlign
  let trailerByte := br.tellBit / 8
  if body.length < trailerByte + 8 then .error (.gzip .truncated)
  else do
    let crcExpected := leNat ((body.drop trailerByte).take 4)
    let isizeExpected := leNat ((body.drop (trailerByte + 4)).take 4)
    validateMember crcExpected isizeExpected (crc.hash s.hashed) s.memberUncompressed
      s.memberIdx (bodyOffset + trailerByte)
    let afterTrailer := trailerByte + 8
    let s := { s with br := br, hashed := [], memberIdx := s.memberIdx + 1 }
    if body.length ≤ afterTrailer then .ok (.inr (afterTrailer, s))
    else do
      let headerLen ← liftGzip (Gzip.parseHeader (body.drop afterTrailer))
      let br ← liftDeflate (s.br.seekToBit ((afterTrailer + headerLen) * 8))
      .ok (.inl { s with br := br, memberUncompressed := 0 })

/-- One round of the loop: a block, and after a final one the member's end. The loop ends with
the position after the last trailer. -/
def serialRound (crc : Checksum) (body : List UInt8) (bodyOffset chunkTarget : ℕ)
    (s : SerialState) : Except Error (SerialState ⊕ (ℕ × SerialState)) := do
  let ((bfinal, out), br) ← liftDeflate (FastInflate.decodeOneBlock s.out s.br)
  let s := { s with br := br, out := out }
  if bfinal then endSerialMember crc body bodyOffset (flushMember s)
  else .ok (.inl (emitChunks chunkTarget s.out.length s))

/-- Decode the members of `input` from the first one's body on, with an open sink. The result
is the number of decoded bytes, the length of the body, the number of chunks and the chunks
themselves. The sum with the window is the threshold of emission for chunk sizes below `2 ^ 63`,
and the reservation of a buffer is left out. Each block has a bit, which bounds the rounds. -/
def serialDecodeMember (crc : Checksum) (input : List UInt8) (bodyOffset chunkSizeBytes : ℕ) :
    Except Error ((ℕ × ℕ × ℕ) × List (List UInt8)) := do
  let body := input.drop bodyOffset
  let chunkTarget := max chunkSizeBytes (64 * 1024)
  let (consumed, s) ← Loop.iterate (.deflate .outOfFuel)
    (serialRound crc body bodyOffset chunkTarget) (8 * body.length + 1)
    ⟨BitReader.new body, [], 0, 0, [], 0, []⟩
  .ok ((s.totalUncompressed, consumed, s.sent.length), s.sent)

/-! ## The members of a body -/

/-- The bytes from the next byte boundary on, where `rest` is what is left of the bits. -/
def fromBoundary (body : List UInt8) (rest : List Bool) : List UInt8 :=
  body.drop (body.length - rest.length / 8)

/-- The bytes start with the trailer of a member that decodes to `o`. -/
def TrailerMatches (crc : Checksum) (bytes o : List UInt8) : Prop :=
  8 ≤ bytes.length ∧ crc.hash o = leNat (bytes.take 4) ∧
    o.length % 2 ^ 32 = leNat ((bytes.drop 4).take 4)

/-- The blocks that are left complete the member from `history` to `o`, and `tail` follows its
trailer. -/
def Ends (crc : Checksum) (body : List UInt8) (bs : List Bool) (history o tail : List UInt8) :
    Prop :=
  ∃ rest, BlocksDecode 0 (fun _ => false) id bs history true rest o ∧
    TrailerMatches crc (fromBoundary body rest) o ∧ tail = (fromBoundary body rest).drop 8

/-- The members of a body, the first one without its header: what they decode to. Each has a
history of its own. -/
inductive BodyMembers (crc : Checksum) : List UInt8 → List UInt8 → Prop
  | last {body o : List UInt8} (hends : Ends crc body (bits body) [] o []) :
      BodyMembers crc body o
  | next {body o tail os : List UInt8} {headerLen : ℕ}
      (hends : Ends crc body (bits body) [] o tail) (hmore : tail ≠ [])
      (hheader : Gzip.parseHeader tail = .ok headerLen)
      (hrest : BodyMembers crc (tail.drop headerLen) os) : BodyMembers crc body (o ++ os)

/-- What follows a member: nothing, or a header and further members. -/
def Continues (crc : Checksum) (tail os : List UInt8) : Prop :=
  (tail = [] ∧ os = []) ∨ (tail ≠ [] ∧ ∃ headerLen, Gzip.parseHeader tail = .ok headerLen ∧
    BodyMembers crc (tail.drop headerLen) os)

/-- What is left of a body inside a member, and its output with the history. -/
def Remains (crc : Checksum) (body : List UInt8) (bs : List Bool) (history os : List UInt8) :
    Prop :=
  ∃ o tail os', Ends crc body bs history o tail ∧ Continues crc tail os' ∧ os = o ++ os'

section Grammar

variable {crc : Checksum} {body part history o tail os : List UInt8} {bs mid rest : List Bool}

/-- The members of a body are what remains at its start. -/
theorem bodyMembers_iff : BodyMembers crc body os ↔ Remains crc body (bits body) [] os := by
  constructor
  · intro h
    cases h with
    | last hends => exact ⟨os, [], [], hends, Or.inl ⟨rfl, rfl⟩, by simp⟩
    | next hends hmore hheader hrest =>
      exact ⟨_, _, _, hends, Or.inr ⟨hmore, _, hheader, hrest⟩, rfl⟩
  · rintro ⟨o, tail, os', hends, ⟨rfl, rfl⟩ | ⟨hmore, headerLen, hheader, hrest⟩, rfl⟩
    · rw [List.append_nil]
      exact .last hends
    · exact .next hends hmore hheader hrest

/-- A stream leaves an end of the remaining bits. -/
theorem suffix_of_blocksDecode {room : ℕ} {stop : List Bool → Bool} {f : Bool}
    (h : BlocksDecode room stop id bs history f rest o) : rest <:+ bs := by
  obtain ⟨ts, hblocks, -⟩ := h
  exact hblocks.suffix

/-- The bytes from the next boundary on do not depend on the bytes before. -/
theorem fromBoundary_of_suffix (hpart : part <:+ body) (hrest : rest <:+ bits part) :
    fromBoundary part rest = fromBoundary body rest := by
  obtain ⟨front, rfl⟩ := hpart
  have hle := hrest.length_le
  rw [bits_length] at hle
  rw [fromBoundary, fromBoundary, List.length_append,
    show front.length + part.length - rest.length / 8 =
      front.length + (part.length - rest.length / 8) by omega, List.drop_length_add_append]

/-- A member of a later part is one of the body. -/
theorem ends_of_suffix (hpart : part <:+ body) (hbs : bs <:+ bits part) :
    Ends crc part bs history o tail ↔ Ends crc body bs history o tail := by
  have heq {rest : List Bool} (h : BlocksDecode 0 (fun _ => false) id bs history true rest o) :=
    fromBoundary_of_suffix hpart ((suffix_of_blocksDecode h).trans hbs)
  constructor
  · rintro ⟨rest, hblocks, hmatches, rfl⟩
    rw [heq hblocks] at hmatches ⊢
    exact ⟨rest, hblocks, hmatches, rfl⟩
  · rintro ⟨rest, hblocks, hmatches, rfl⟩
    rw [← heq hblocks] at hmatches ⊢
    exact ⟨rest, hblocks, hmatches, rfl⟩

/-- The next member's body is all that counts for what it decodes to. -/
theorem bodyMembers_of_suffix (hpart : part <:+ body) :
    BodyMembers crc part os ↔ Remains crc body (bits part) [] os := by
  rw [bodyMembers_iff]
  simp only [Remains, ends_of_suffix hpart List.suffix_rfl]

/-- Before a trailer there is room for every decoder. -/
theorem Ends.room (h : Ends crc body bs history o tail) (hbs : bs <:+ bits body) :
    ∃ rest, BlocksDecode 48 (fun _ => false) id bs history true rest o := by
  obtain ⟨rest, hblocks, ⟨hroom, -⟩, -⟩ := h
  have hle := ((suffix_of_blocksDecode hblocks).trans hbs).length_le
  obtain ⟨ts, hstream, hexpand⟩ := hblocks
  rw [fromBoundary, List.length_drop] at hroom
  rw [bits_length] at hle
  exact ⟨rest, ts, hstream.of_rest (by omega), hexpand⟩

/-- After the member's last block comes the trailer. -/
theorem ends_of_blocks {room : ℕ} {history' : List UInt8}
    (h : BlocksDecode room (fun _ => false) id bs history true rest history') :
    Ends crc body bs history o tail ↔ o = history' ∧
      TrailerMatches crc (fromBoundary body rest) history' ∧
      tail = (fromBoundary body rest).drop 8 := by
  obtain ⟨ts, hblocks, hts⟩ := h
  have h0 : BlocksDecode 0 (fun _ => false) id bs history true rest history' :=
    ⟨ts, hblocks.mono (Nat.zero_le _), hts⟩
  constructor
  · rintro ⟨rest', hblocks', hmatches, rfl⟩
    obtain ⟨-, rfl, rfl⟩ := h0.unique hblocks'
    exact ⟨rfl, hmatches, rfl⟩
  · rintro ⟨rfl, hmatches, rfl⟩
    exact ⟨rest, h0, hmatches, rfl⟩

/-- After any other block come further blocks. -/
theorem remains_of_block {room : ℕ} {history' : List UInt8}
    (h : BlockDecodes room id bs history false mid history') :
    Remains crc body bs history os ↔ Remains crc body mid history' os := by
  obtain ⟨ts, hblock, hts⟩ := h
  have h0 : BlockDecodes 0 id bs history false mid history' :=
    ⟨ts, hblock.mono (Nat.zero_le _), hts⟩
  constructor
  · rintro ⟨o, tail, os', ⟨rest, hblocks, hrest⟩, hcontinues⟩
    exact ⟨o, tail, os', ⟨rest, h0.tail rfl hblocks, hrest⟩, hcontinues⟩
  · rintro ⟨o, tail, os', ⟨rest, hblocks, hrest⟩, hcontinues⟩
    exact ⟨o, tail, os', ⟨rest, h0.more rfl hblocks, hrest⟩, hcontinues⟩

/-- The bits after the next byte boundary are left, too. -/
theorem length_fromBoundary (hrest : rest.length ≤ 8 * body.length) :
    8 * (fromBoundary body rest).length ≤ rest.length := by
  rw [fromBoundary, List.length_drop]
  omega

/-- What is left of a body before a member's trailer. -/
theorem remains_of_blocks {room : ℕ} {history' : List UInt8}
    (h : BlocksDecode room (fun _ => false) id bs history true rest history') :
    Remains crc body bs history os ↔ ∃ os', (TrailerMatches crc (fromBoundary body rest) history' ∧
      Continues crc ((fromBoundary body rest).drop 8) os') ∧ os = history' ++ os' := by
  simp only [Remains, ends_of_blocks h]
  constructor
  · rintro ⟨o, tail, os', ⟨rfl, hmatches, rfl⟩, hcontinues, rfl⟩
    exact ⟨os', ⟨hmatches, hcontinues⟩, rfl⟩
  · rintro ⟨os', ⟨hmatches, hcontinues⟩, rfl⟩
    exact ⟨_, _, os', ⟨rfl, hmatches, rfl⟩, hcontinues, rfl⟩

/-- What follows a header is a body of its own. -/
theorem continues_iff {headerLen : ℕ} (hmore : tail ≠ [])
    (hheader : Gzip.parseHeader tail = .ok headerLen) (htail : tail <:+ body) :
    Continues crc tail os ↔ Remains crc body (bits (tail.drop headerLen)) [] os := by
  rw [← bodyMembers_of_suffix ((List.drop_suffix _ _).trans htail)]
  constructor
  · rintro (⟨hnil, -⟩ | ⟨-, headerLen', hheader', hrest⟩)
    · exact absurd hnil hmore
    · rw [hheader] at hheader'
      cases hheader'
      exact hrest
  · exact fun hrest => Or.inr ⟨hmore, headerLen, hheader, hrest⟩

/-- The bits and the output before them determine how a member ends. -/
theorem Ends.unique {o' tail' : List UInt8} (h : Ends crc body bs history o tail)
    (h' : Ends crc body bs history o' tail') : o = o' ∧ tail = tail' := by
  obtain ⟨rest, hblocks, -, rfl⟩ := h
  obtain ⟨rfl, -, rfl⟩ := (ends_of_blocks hblocks).mp h'
  exact ⟨rfl, rfl⟩

/-- A body decodes to one output only. -/
theorem BodyMembers.unique {os' : List UInt8} (h : BodyMembers crc body os)
    (h' : BodyMembers crc body os') : os = os' := by
  induction h generalizing os' with
  | last hends =>
    cases h' with
    | last hends' => exact (hends.unique hends').1
    | next hends' hmore _ _ => exact absurd (hends.unique hends').2.symm hmore
  | next hends hmore hheader _ ih =>
    cases h' with
    | last hends' => exact absurd (hends.unique hends').2 hmore
    | next hends' _ hheader' hrest' =>
      obtain ⟨rfl, rfl⟩ := hends.unique hends'
      rw [hheader] at hheader'
      cases hheader'
      rw [ih hrest']

end Grammar

/-! ## Decoding over the window -/

section Window

variable {bs rest : List Bool} {sent out res res' : List UInt8} {room : ℕ} {f : Bool}

/-- What was sent is out of reach: there is none of it, or a whole window came after. -/
def Keeps (sent out : List UInt8) : Prop := sent = [] ∨ SERIAL_WINDOW ≤ out.length

/-- An output of a whole window keeps all that a copy may need. -/
theorem keeps_of_le (h : SERIAL_WINDOW ≤ out.length) : Keeps sent out := Or.inr h

/-- A block that decodes over the window decodes over the whole history, and appends the same. -/
theorem blockDecodes_history (sent : List UInt8) (h : BlockDecodes room id bs out f rest res) :
    BlockDecodes room id bs (sent ++ out) f rest (sent ++ res) := by
  obtain ⟨ts, hblock, hexpand⟩ := h
  exact ⟨ts, hblock, expand_append_left sent hexpand⟩

/-- A block that decodes over the whole history decodes over the window. -/
theorem blockDecodes_window (hkeeps : Keeps sent out)
    (h : BlockDecodes room id bs (sent ++ out) f rest res') :
    ∃ res, res' = sent ++ res ∧ BlockDecodes room id bs out f rest res := by
  obtain ⟨ts, hblock, hexpand⟩ := h
  rcases hkeeps with rfl | hlen
  · exact ⟨res', rfl, ts, hblock, hexpand⟩
  · have hwindow : Reference.MAX_DISTANCE = SERIAL_WINDOW := by decide
    obtain ⟨res, rfl, hres⟩ := expand_window sent
      (fun t ht => (hblock.bounds t ht).bounded) (by rw [hwindow]; exact hlen) hexpand
    exact ⟨res, rfl, ts, hblock, hres⟩

end Window

/-- The loop has sent `base`, which is older members, and the part `hashed` of this one. -/
structure Sends (s : SerialState) (base history : List UInt8) : Prop where
  history_eq : s.hashed ++ s.out = history
  sent_eq : s.sent.flatten = base ++ s.hashed
  uncompressed_eq : s.memberUncompressed = s.hashed.length
  total_eq : s.totalUncompressed = s.sent.flatten.length

section Emission

variable {s : SerialState} {base history : List UInt8}

/-- Sending a part of the output and keeping the rest. -/
theorem Sends.handOff (h : Sends s base history) {chunk next : List UInt8}
    (hsplit : chunk ++ next = s.out) : Sends (handOff chunk next s) base history where
  history_eq := by
    rw [← h.history_eq, ← hsplit, ← List.append_assoc]
    rfl
  sent_eq := by
    change (s.sent ++ [chunk]).flatten = base ++ (s.hashed ++ chunk)
    rw [List.flatten_append, h.sent_eq]
    simp
  uncompressed_eq := by
    change s.memberUncompressed + chunk.length = (s.hashed ++ chunk).length
    rw [h.uncompressed_eq, List.length_append]
  total_eq := by
    change s.totalUncompressed + chunk.length = (s.sent ++ [chunk]).flatten.length
    rw [h.total_eq, List.flatten_append, List.length_append]
    simp

/-- Handing bytes on keeps what a copy may need. -/
theorem keeps_handOff (s : SerialState) {n : ℕ} (hn : n + SERIAL_WINDOW ≤ s.out.length) :
    Keeps (handOff (s.out.take n) (s.out.drop n) s).hashed
      (handOff (s.out.take n) (s.out.drop n) s).out := by
  apply keeps_of_le
  rw [handOff_out, List.length_drop]
  omega

/-- Emission keeps the window. -/
theorem Sends.emitChunks (h : Sends s base history) (hkeeps : Keeps s.hashed s.out)
    (chunkTarget rounds : ℕ) :
    Sends (emitChunks chunkTarget rounds s) base history ∧
      Keeps (emitChunks chunkTarget rounds s).hashed (emitChunks chunkTarget rounds s).out ∧
      (emitChunks chunkTarget rounds s).br = s.br := by
  induction rounds generalizing s with
  | zero => exact ⟨h, hkeeps, rfl⟩
  | succ rounds ih =>
    by_cases hlen : chunkTarget + SERIAL_WINDOW ≤ s.out.length
    · obtain ⟨n, hn⟩ : ∃ n, n = s.out.length - SERIAL_WINDOW := ⟨_, rfl⟩
      rw [Pipeline.emitChunks, if_pos hlen, ← hn]
      exact ih (h.handOff (List.take_append_drop n s.out)) (keeps_handOff s (by omega))
    · rw [Pipeline.emitChunks, if_neg hlen]
      exact ⟨h, hkeeps, rfl⟩

/-- At the end of a member everything is sent. -/
theorem Sends.flushMember (h : Sends s base history) :
    Sends (flushMember s) base history ∧ (flushMember s).out = [] ∧
      (flushMember s).hashed = history ∧ (flushMember s).br = s.br := by
  unfold Pipeline.flushMember
  split
  · exact ⟨h.handOff (List.append_nil _), rfl, h.history_eq, rfl⟩
  · next hempty =>
    have hnil : s.out = [] := not_not.mp hempty
    have hhistory := h.history_eq
    rw [hnil, List.append_nil] at hhistory
    exact ⟨h, hnil, hhistory, rfl⟩

/-- The next member starts with nothing sent. -/
theorem Sends.nextMember (h : Sends s base history) (hout : s.out = [])
    (hhashed : s.hashed = history) (br : BitReader) :
    Sends { s with br := br, hashed := [], memberIdx := s.memberIdx + 1, memberUncompressed := 0 }
      (base ++ history) [] where
  history_eq := hout
  sent_eq := by rw [List.append_nil, ← hhashed, ← h.sent_eq]
  uncompressed_eq := rfl
  total_eq := h.total_eq

end Emission

section Loop

variable {crc : Checksum} {body : List UInt8} {bodyOffset chunkTarget : ℕ}

/-- A member passes its checks exactly if the trailer matches it. -/
theorem validateMember_cases (crc : Checksum) (bytes history : List UInt8) (member pos : ℕ)
    (hroom : 8 ≤ bytes.length) :
    (TrailerMatches crc bytes history ∧ validateMember (leNat (bytes.take 4))
      (leNat ((bytes.drop 4).take 4)) (crc.hash history) history.length member pos = .ok ()) ∨
    (¬TrailerMatches crc bytes history ∧ ∃ e, validateMember (leNat (bytes.take 4))
      (leNat ((bytes.drop 4).take 4)) (crc.hash history) history.length member pos =
        .error (.gzip e)) := by
  unfold validateMember
  by_cases hcrc : crc.hash history = leNat (bytes.take 4)
  · by_cases hsize : history.length % 2 ^ 32 = leNat ((bytes.drop 4).take 4)
    · exact Or.inl ⟨⟨hroom, hcrc, hsize⟩, by rw [if_neg (not_not.mpr hcrc),
        if_neg (not_not.mpr hsize)]⟩
    · exact Or.inr ⟨fun h => hsize h.2.2, _, by rw [if_neg (not_not.mpr hcrc), if_pos hsize]⟩
  · exact Or.inr ⟨fun h => hcrc h.2.1, _, by rw [if_pos hcrc]⟩

/-- What the loop returns from the middle of a member on. -/
def SerialSpec (crc : Checksum) (body : List UInt8) (bs : List Bool) (history base : List UInt8) :
    Except Error (ℕ × SerialState) → Prop
  | .error e => e ≠ .deflate .outOfFuel ∧ ∀ os, ¬Remains crc body bs history os
  | .ok (consumed, s) => ∃ os, Remains crc body bs history os ∧ s.sent.flatten = base ++ os ∧
      s.totalUncompressed = s.sent.flatten.length ∧ consumed = body.length

/-- The bytes at a trailer's place. -/
theorem fromBoundary_eq {br : BitReader} {rest : List Bool} (hat : br.At body rest) :
    fromBoundary body rest = body.drop (br.byteAlign.tellBit / 8) ∧
      br.byteAlign.tellBit / 8 ≤ body.length := by
  have htell := hat.byteAlign.tellBit
  have hle := hat.length_le
  rw [alignBits, List.length_drop] at htell
  rw [fromBoundary, show body.length - rest.length / 8 = br.byteAlign.tellBit / 8 by omega]
  exact ⟨rfl, by omega⟩

/-- A member ends with a matching trailer and then the next member or the end of the body, or
the body is not one. -/
theorem endSerialMember_cases (crc : Checksum) (bodyOffset : ℕ) {s : SerialState}
    {rest : List Bool} {history : List UInt8} (hat : s.br.At body rest)
    (hhashed : s.hashed = history)
    (huncompressed : s.memberUncompressed = history.length) :
    (∃ e, endSerialMember crc body bodyOffset s = .error e ∧ e ≠ .deflate .outOfFuel ∧
      ∀ os, ¬(TrailerMatches crc (fromBoundary body rest) history ∧
        Continues crc ((fromBoundary body rest).drop 8) os)) ∨
    (TrailerMatches crc (fromBoundary body rest) history ∧
      (fromBoundary body rest).drop 8 = [] ∧ ∃ s', endSerialMember crc body bodyOffset s =
        .ok (.inr (body.length, s')) ∧ s'.sent = s.sent ∧
        s'.totalUncompressed = s.totalUncompressed) ∨
    (TrailerMatches crc (fromBoundary body rest) history ∧
      (fromBoundary body rest).drop 8 ≠ [] ∧ ∃ headerLen br,
        Gzip.parseHeader ((fromBoundary body rest).drop 8) = .ok headerLen ∧
        br.At body (bits (((fromBoundary body rest).drop 8).drop headerLen)) ∧
        endSerialMember crc body bodyOffset s = .ok (.inl
          { s with
            br := br
            hashed := []
            memberIdx := s.memberIdx + 1
            memberUncompressed := 0 })) := by
  obtain ⟨hbytes, hbyte⟩ := fromBoundary_eq hat
  have halign := hat.byteAlign.input_eq
  unfold endSerialMember
  simp only
  rw [hbytes]
  generalize s.br.byteAlign.tellBit / 8 = trailerByte at hbyte
  by_cases hroom : body.length < trailerByte + 8
  · refine Or.inl ⟨.gzip .truncated, by rw [if_pos hroom], by simp, ?_⟩
    rintro os ⟨⟨hlen, -⟩, -⟩
    rw [List.length_drop] at hlen
    omega
  rw [if_neg hroom, hhashed, huncompressed]
  have hcheck := validateMember_cases crc (body.drop trailerByte) history s.memberIdx
    (bodyOffset + trailerByte) (by rw [List.length_drop]; omega)
  rw [List.drop_drop] at hcheck
  rcases hcheck with ⟨hmatches, hok⟩ | ⟨hdiffers, e, herr⟩
  swap
  · rw [herr]
    exact Or.inl ⟨.gzip e, rfl, by simp, fun os h => hdiffers h.1⟩
  rw [hok, List.drop_drop]
  simp only [bind, Except.bind]
  by_cases hend : body.length ≤ trailerByte + 8
  · have hnil : body.drop (trailerByte + 8) = [] := List.drop_eq_nil_of_le hend
    rw [if_pos hend, show trailerByte + 8 = body.length by omega]
    rw [show trailerByte + 8 = body.length by omega] at hnil
    exact Or.inr (Or.inl ⟨hmatches, hnil, _, rfl, rfl, rfl⟩)
  have hmore : body.drop (trailerByte + 8) ≠ [] := by
    rw [Ne, List.drop_eq_nil_iff]
    exact hend
  rw [if_neg hend]
  cases hheader : Gzip.parseHeader (body.drop (trailerByte + 8)) with
  | error e =>
    refine Or.inl ⟨.gzip e, rfl, by simp, ?_⟩
    rintro os ⟨-, ⟨hnil, -⟩ | ⟨-, headerLen, hok', -⟩⟩
    · exact hmore hnil
    · rw [hheader] at hok'
      cases hok'
  | ok headerLen =>
    obtain ⟨-, hle⟩ := Gzip.parseHeader_bounds hheader
    rw [List.length_drop] at hle
    obtain ⟨br, hseek, hr, hbits⟩ := BitReader.seekToBit_ok s.br.byteAlign
      (show (trailerByte + 8 + headerLen) * 8 ≤ 8 * s.br.byteAlign.input.length by
        rw [halign]
        omega)
    rw [halign] at hr
    refine Or.inr (Or.inr ⟨hmatches, hmore, headerLen, br, rfl, ⟨⟨_, hr, ?_⟩, hbits⟩, ?_⟩)
    · rw [List.drop_drop, bits_drop]
      congr 1
      omega
    · simp only [liftGzip_ok, hseek, liftDeflate_ok]

/-- Emitting keeps the member's number. -/
theorem emitChunks_memberIdx (chunkTarget rounds : ℕ) (s : SerialState) :
    (emitChunks chunkTarget rounds s).memberIdx = s.memberIdx := by
  induction rounds generalizing s with
  | zero => rfl
  | succ rounds ih =>
    rw [emitChunks]
    split
    · rw [ih, handOff_memberIdx]
    · rfl

/-- Flushing keeps the member's number. -/
theorem flushMember_memberIdx (s : SerialState) : (flushMember s).memberIdx = s.memberIdx := by
  unfold flushMember
  split <;> rfl

/-- The loop is in the middle of a member, before the bits `bs`. -/
structure InMember (body : List UInt8) (bs : List Bool) (base history : List UInt8)
    (s : SerialState) : Prop where
  reads : s.br.At body bs
  sends : Sends s base history
  keeps : Keeps s.hashed s.out

/-- One round of the loop: no block can be decoded, or the member goes on after a block, or a
final block leads to the member's end. -/
theorem serialRound_cases (crc : Checksum) (bodyOffset chunkTarget : ℕ) {s : SerialState}
    {bs : List Bool} {base history : List UInt8} (h : InMember body bs base history s) :
    (∃ e, serialRound crc body bodyOffset chunkTarget s = .error (.deflate e) ∧ e ≠ .outOfFuel ∧
      ∀ f mid history', ¬BlockDecodes 48 id bs history f mid history') ∨
    (∃ s' mid history', serialRound crc body bodyOffset chunkTarget s = .ok (.inl s') ∧
      BlockDecodes 0 id bs history false mid history' ∧ InMember body mid base history' s' ∧
      s'.memberIdx = s.memberIdx) ∨
    (∃ s' mid history', serialRound crc body bodyOffset chunkTarget s =
        endSerialMember crc body bodyOffset s' ∧
      BlockDecodes 0 id bs history true mid history' ∧ s'.br.At body mid ∧
      Sends s' base history' ∧ s'.out = [] ∧ s'.hashed = history' ∧
      s'.memberIdx = s.memberIdx) := by
  obtain ⟨hat, hsends, hkeeps⟩ := h
  have hblock := FastInflate.decodesBlocks_decodeOneBlock body s.out s.br bs hat
  cases hdecode : FastInflate.decodeOneBlock s.out s.br with
  | error e =>
    rw [hdecode] at hblock
    refine Or.inl ⟨e, ?_, hblock.1, fun f mid history' hfirst => ?_⟩
    · unfold serialRound
      rw [hdecode]
      rfl
    · rw [← hsends.history_eq] at hfirst
      obtain ⟨res, -, hdec⟩ := blockDecodes_window hkeeps hfirst
      exact hblock.2 f mid res hdec
  | ok r =>
    obtain ⟨⟨bfinal, out⟩, br⟩ := r
    rw [hdecode] at hblock
    obtain ⟨mid, hdec, hat'⟩ := hblock
    obtain ⟨more, rfl⟩ : ∃ more, out = s.out ++ more := by
      obtain ⟨ts, -, hexpand⟩ := hdec
      obtain ⟨more, hmore⟩ := expand_extends hexpand
      exact ⟨more, hmore.symm⟩
    have hhistory : BlockDecodes 0 id bs history bfinal mid (history ++ more) := by
      obtain ⟨ts, hblk, hts⟩ := blockDecodes_history s.hashed hdec
      rw [← List.append_assoc, hsends.history_eq] at hts
      exact ⟨ts, hblk.mono (Nat.zero_le _), hts⟩
    have hsends' : Sends { s with br := br, out := s.out ++ more } base (history ++ more) :=
      { hsends with history_eq := by rw [← hsends.history_eq, List.append_assoc] }
    have hkeeps' : Keeps s.hashed (s.out ++ more) := by
      rcases hkeeps with hnil | hlen
      · exact Or.inl hnil
      · exact keeps_of_le (by rw [List.length_append]; omega)
    cases bfinal with
    | false =>
      obtain ⟨hsends₂, hkeeps₂, hbr₂⟩ :=
        hsends'.emitChunks hkeeps' chunkTarget (s.out ++ more).length
      have hidx := emitChunks_memberIdx chunkTarget (s.out ++ more).length
        { s with br := br, out := s.out ++ more }
      have hround : serialRound crc body bodyOffset chunkTarget s = .ok (.inl
          (emitChunks chunkTarget (s.out ++ more).length
            { s with br := br, out := s.out ++ more })) := by
        unfold serialRound
        rw [hdecode]
        rfl
      rw [← show _ = br from hbr₂] at hat'
      exact Or.inr (Or.inl ⟨_, mid, _, hround, hhistory, ⟨hat', hsends₂, hkeeps₂⟩, hidx⟩)
    | true =>
      obtain ⟨hsends₂, hempty, hhashed, hbr₂⟩ := hsends'.flushMember
      have hidx := flushMember_memberIdx { s with br := br, out := s.out ++ more }
      have hround : serialRound crc body bodyOffset chunkTarget s =
          endSerialMember crc body bodyOffset
            (flushMember { s with br := br, out := s.out ++ more }) := by
        unfold serialRound
        rw [hdecode]
        rfl
      rw [← show _ = br from hbr₂] at hat'
      exact Or.inr (Or.inr ⟨_, mid, _, hround, hhistory, hat', hsends₂, hempty, hhashed, hidx⟩)

/-- The loop decodes the rest of the body's members, and sends them all. -/
theorem serialSpec_iterate {fuel : ℕ} {s : SerialState} {bs : List Bool}
    {base history : List UInt8} (hin : InMember body bs base history s)
    (hfuel : bs.length < fuel) :
    SerialSpec crc body bs history base (Loop.iterate (.deflate .outOfFuel)
      (serialRound crc body bodyOffset chunkTarget) fuel s) := by
  induction fuel generalizing s bs base history with
  | zero => omega
  | succ fuel ih =>
    have hbs : bs <:+ bits body := by
      obtain ⟨p, -, rfl⟩ := hin.reads.reads
      exact List.drop_suffix _ _
    rcases serialRound_cases crc bodyOffset chunkTarget hin with
      ⟨e, hround, he, hnone⟩ | ⟨s', mid, history', hround, hblock, hin', -⟩ |
      ⟨s', mid, history', hround, hblock, hat', hsends', hempty, hhashed, -⟩
    · rw [Loop.iterate_fail hround]
      refine ⟨by simpa using he, ?_⟩
      rintro os ⟨o, tail, os', hends, -⟩
      obtain ⟨rest, hblocks⟩ := hends.room hbs
      obtain ⟨f, mid, res, hfirst, -⟩ := hblocks.cases
      exact hnone f mid res hfirst
    · have hshort := hblock.length_lt
      rw [Loop.iterate_continue hround]
      have hrest := ih hin' (by omega)
      simp only [SerialSpec, remains_of_block hblock] at hrest ⊢
      exact hrest
    · have hshort := hblock.length_lt
      have hlast : BlocksDecode 0 (fun _ => false) id bs history true mid history' :=
        hblock.final
      rcases endSerialMember_cases crc bodyOffset hat' hhashed (by
          rw [hsends'.uncompressed_eq, hhashed]) with
        ⟨e, herr, he, hnone⟩ | ⟨hmatches, hnil, s'', hok, hsent, htotal⟩ |
        ⟨hmatches, hmore, headerLen, br, hheader, hat'', hok⟩
      · rw [herr] at hround
        rw [Loop.iterate_fail hround]
        refine ⟨he, fun os h => ?_⟩
        obtain ⟨os', h', -⟩ := (remains_of_blocks hlast).mp h
        exact hnone os' h'
      · rw [hok] at hround
        rw [Loop.iterate_break hround]
        refine ⟨history', (remains_of_blocks hlast).mpr
          ⟨[], ⟨hmatches, Or.inl ⟨hnil, rfl⟩⟩, (List.append_nil _).symm⟩, ?_, ?_, rfl⟩
        · rw [hsent, hsends'.sent_eq, hhashed]
        · rw [htotal, hsent, hsends'.total_eq]
      · rw [hok] at hround
        rw [Loop.iterate_continue hround]
        have hsuffix : (fromBoundary body mid).drop 8 <:+ body :=
          (List.drop_suffix _ _).trans (List.drop_suffix _ _)
        have hlen : 8 * (fromBoundary body mid).length ≤ mid.length :=
          length_fromBoundary hat'.length_le
        have hrest := ih ⟨hat'', hsends'.nextMember hempty hhashed br, Or.inl rfl⟩ (by
          rw [bits_length, List.length_drop, List.length_drop]
          omega)
        revert hrest
        cases Loop.iterate (.deflate .outOfFuel) (serialRound crc body bodyOffset chunkTarget)
          fuel _ with
        | error e =>
          rintro ⟨he, hnone⟩
          refine ⟨he, fun os h => ?_⟩
          obtain ⟨os', ⟨-, hcontinues⟩, -⟩ := (remains_of_blocks hlast).mp h
          exact hnone os' ((continues_iff hmore hheader hsuffix).mp hcontinues)
        | ok r =>
          rintro ⟨os, hremains, hsent, htotal, hconsumed⟩
          refine ⟨history' ++ os, (remains_of_blocks hlast).mpr
            ⟨os, ⟨hmatches, (continues_iff hmore hheader hsuffix).mpr hremains⟩, rfl⟩, ?_,
            htotal, hconsumed⟩
          rw [hsent, List.append_assoc]

/-- The loop before the first block of a body. -/
theorem inMember_start (body : List UInt8) :
    InMember body (bits body) [] [] ⟨BitReader.new body, [], 0, 0, [], 0, []⟩ :=
  ⟨BitReader.new_at body, ⟨rfl, rfl, rfl, rfl⟩, Or.inl rfl⟩

/-- What the serial decoder returns: the members of the body, sent in full, or an error. -/
def SerialOutcome (crc : Checksum) (body : List UInt8) :
    Except Error ((ℕ × ℕ × ℕ) × List (List UInt8)) → Prop
  | .error e => e ≠ .deflate .outOfFuel ∧ ∀ os, ¬BodyMembers crc body os
  | .ok ((total, consumed, chunks), sent) => BodyMembers crc body sent.flatten ∧
      total = sent.flatten.length ∧ consumed = body.length ∧ chunks = sent.length

/-- What the serial decoder returns. -/
theorem serialOutcome_serialDecodeMember (crc : Checksum) (input : List UInt8)
    (bodyOffset chunkSizeBytes : ℕ) : SerialOutcome crc (input.drop bodyOffset)
      (serialDecodeMember crc input bodyOffset chunkSizeBytes) := by
  unfold serialDecodeMember
  simp only
  generalize input.drop bodyOffset = body
  have hspec : SerialSpec crc body (bits body) [] [] (Loop.iterate (.deflate .outOfFuel)
      (serialRound crc body bodyOffset (max chunkSizeBytes (64 * 1024))) (8 * body.length + 1)
      ⟨BitReader.new body, [], 0, 0, [], 0, []⟩) :=
    serialSpec_iterate (inMember_start body) (by rw [bits_length]; omega)
  revert hspec
  cases Loop.iterate (.deflate .outOfFuel)
    (serialRound crc body bodyOffset (max chunkSizeBytes (64 * 1024))) (8 * body.length + 1)
    ⟨BitReader.new body, [], 0, 0, [], 0, []⟩ with
  | error e =>
    rintro ⟨he, hnone⟩
    exact ⟨he, fun os h => hnone os (bodyMembers_iff.mp h)⟩
  | ok r =>
    obtain ⟨consumed, s⟩ := r
    rintro ⟨os, hremains, hsent, htotal, hconsumed⟩
    rw [List.nil_append] at hsent
    rw [← hsent] at hremains
    exact ⟨bodyMembers_iff.mpr hremains, htotal, hconsumed, rfl⟩

end Loop

end Pipeline

end RustyRapidgzip
