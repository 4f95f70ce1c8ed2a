import RustyRapidgzip.Pipeline.StreamBuf

/-!
# Streaming from a pipe

The members of a stream are decoded block by block as the bytes come in, and the output is
sent block by block. How the reader cuts the stream makes no difference: it decodes exactly
when the serial decoder decodes the whole of it, and to the same bytes.
-/

namespace RustyRapidgzip

open LsbBits Reference Lz Crc

namespace Pipeline

/-- The variables of the loop over a member's blocks. `hashed` is what the checksum was
updated with, and `sent` are the chunks the sink has received. -/
structure MemberState where
  sb : StreamBuf
  out : List UInt8
  crcCursor : ℕ
  hashed : List UInt8
  memberUc : ℕ
  sent : List (List UInt8)

/-- Send what is new in the output; between blocks the last 32 KiB stay behind. -/
def emitNew (bfinal : Bool) (m : MemberState) : MemberState :=
  let emitEnd := if bfinal then m.out.length else m.out.length - SERIAL_WINDOW
  if m.crcCursor < emitEnd then
    let newBytes := (m.out.take emitEnd).drop m.crcCursor
    { m with
      crcCursor := emitEnd
      hashed := m.hashed ++ newBytes
      memberUc := m.memberUc + newBytes.length
      sent := m.sent ++ [newBytes] }
  else m

/-- Drop the part of the output that was sent. -/
def compact (m : MemberState) : MemberState :=
  if 0 < m.crcCursor then { m with out := m.out.drop m.crcCursor, crcCursor := 0 } else m

/-- One round of the loop over the blocks. -/
def memberBlocksRound (m : MemberState) : Except Error (MemberState ⊕ MemberState) :=
  match m.sb.decodeBlock m.out with
  | .error e => .error e
  | .ok ((bfinal, out), sb) =>
    let m := emitNew bfinal { m with sb := sb, out := out }
    if bfinal then .ok (.inr { m with out := [] }) else .ok (.inl (compact m))

/-- The blocks of a member. Each has a bit, which bounds the rounds. -/
def memberBlocks (sb : StreamBuf) (sent : List (List UInt8)) : Except Error MemberState :=
  Loop.iterate (.deflate .outOfFuel) memberBlocksRound (8 * sb.pending.length + 1)
    ⟨sb, [], 0, [], 0, sent⟩

/-- The variables of the loop over the members. -/
structure StreamState where
  sb : StreamBuf
  totalUc : ℕ
  member : ℕ
  sent : List (List UInt8)

/-- One round of the loop over the members. -/
def membersStreamRound (crc : Checksum) (s : StreamState) :
    Except Error (StreamState ⊕ StreamState) :=
  if s.sb.buf = [] then .ok (.inr s)
  else do
    let sb ← s.sb.readGzipHeader
    let m ← memberBlocks sb s.sent
    let sb := m.sb.byteAlign
    let (trailer, sb) ← sb.readBytes 8
    let crcExpected := leNat (trailer.take 4)
    let isizeExpected := leNat (trailer.drop 4)
    validateMember crcExpected isizeExpected (crc.hash m.hashed) m.memberUc s.member 0
    let sb := if sb.buf = [] ∧ sb.srcEof = false then sb.fillMore else sb
    .ok (.inl
      { sb := sb
        totalUc := s.totalUc + m.memberUc
        member := s.member + 1
        sent := m.sent })

/-- Decode a stream that arrives in the given reads, with an open sink. The result is the
number of decoded bytes, the number of chunks and the chunks themselves. Each member has a
byte, which bounds the rounds. -/
def readGzStreaming (crc : Checksum) (reads : List (List UInt8)) :
    Except Error ((ℕ × ℕ) × List (List UInt8)) := do
  let s ← Loop.iterate (.deflate .outOfFuel) (membersStreamRound crc) (reads.flatten.length + 1)
    ⟨(StreamBuf.new reads).fillMore, 0, 0, []⟩
  if s.member = 0 then .error (.gzip .truncated) else .ok ((s.totalUc, s.sent.length), s.sent)

/-! ## The blocks of a member -/

/-- Between blocks: `base` are older members, and the window has stayed behind. -/
structure MemberInv (base : List UInt8) (m : MemberState) : Prop where
  good : m.sb.Good
  cursor_eq : m.crcCursor = 0
  keeps : Keeps m.hashed m.out
  sent_eq : m.sent.flatten = base ++ m.hashed
  uc_eq : m.memberUc = m.hashed.length

/-- What the blocks of a member return. -/
def MemberSpec (base : List UInt8) (m : MemberState) : Except Error MemberState → Prop
  | .error e => e ≠ .deflate .outOfFuel ∧ ∀ rest res,
      ¬BlocksDecode 48 (fun _ => false) id m.sb.stream (m.hashed ++ m.out) true rest res
  | .ok m' => m'.sb.Good ∧ m'.sb.pending <:+ m.sb.pending ∧
      BlocksDecode 48 (fun _ => false) id m.sb.stream (m.hashed ++ m.out) true m'.sb.stream
        m'.hashed ∧ m'.sent.flatten = base ++ m'.hashed ∧ m'.memberUc = m'.hashed.length

section Blocks

variable {base : List UInt8} {m : MemberState}

/-- Sending after the final block sends all. -/
theorem emitNew_final (h : MemberInv base m) :
    (emitNew true m).sb = m.sb ∧ (emitNew true m).hashed = m.hashed ++ m.out ∧
      (emitNew true m).sent.flatten = base ++ (m.hashed ++ m.out) ∧
      (emitNew true m).memberUc = (m.hashed ++ m.out).length := by
  obtain ⟨-, hcursor, -, hsent, huc⟩ := h
  unfold emitNew
  simp only [if_true, hcursor, List.take_length, List.drop_zero]
  split
  · refine ⟨rfl, rfl, ?_, ?_⟩
    · simp [List.flatten_append, hsent]
    · simp [huc]
  · next hempty =>
    have hnil : m.out = [] := List.length_eq_zero_iff.mp (by omega)
    simp [hnil, hsent, huc]

/-- Sending between blocks keeps the window. -/
theorem compact_emitNew (h : MemberInv base m) :
    MemberInv base (compact (emitNew false m)) ∧ (compact (emitNew false m)).sb = m.sb ∧
      (compact (emitNew false m)).hashed ++ (compact (emitNew false m)).out =
        m.hashed ++ m.out := by
  obtain ⟨hgood, hcursor, hkeeps, hsent, huc⟩ := h
  obtain ⟨n, hn⟩ : ∃ n, n = m.out.length - SERIAL_WINDOW := ⟨_, rfl⟩
  unfold emitNew
  simp only [Bool.false_eq_true, if_false, hcursor, List.drop_zero, ← hn]
  by_cases hpos : 0 < n
  · rw [if_pos hpos]
    unfold compact
    simp only [if_pos hpos]
    refine ⟨⟨hgood, rfl, keeps_of_le ?_, ?_, ?_⟩, trivial, ?_⟩
    · simp only [List.length_drop]
      omega
    · simp [List.flatten_append, hsent]
    · simp [huc]
    · rw [List.append_assoc, List.take_append_drop]
  · rw [if_neg hpos]
    unfold compact
    rw [hcursor, if_neg (by omega)]
    exact ⟨⟨hgood, hcursor, hkeeps, hsent, huc⟩, rfl, rfl⟩

/-- A round decodes one block of the member. -/
theorem memberBlocksRound_keeps (h : MemberInv base m) :
    Loop.RoundKeeps (MemberInv base) (MemberSpec base) (fun m => m.sb.stream.length) m
      (memberBlocksRound m) := by
  have hspec := StreamBuf.decodeSpec_decodeBlock m.out h.good
  unfold memberBlocksRound
  revert hspec
  cases m.sb.decodeBlock m.out with
  | error e =>
    rintro ⟨he, hnone⟩
    refine ⟨he, fun rest res hblocks => ?_⟩
    obtain ⟨f, mid, res', hfirst, -⟩ := hblocks.cases
    obtain ⟨res'', -, hdec⟩ := blockDecodes_window h.keeps hfirst
    exact hnone f mid res'' hdec
  | ok r =>
    obtain ⟨⟨f, out⟩, sb⟩ := r
    rintro ⟨hgood, hsuffix, hdec⟩
    have hhistory := blockDecodes_history m.hashed hdec
    have hlt : sb.stream.length < m.sb.stream.length := by
      obtain ⟨ts, hblock, -⟩ := hdec
      exact hblock.length_lt
    have hlen : m.out.length ≤ out.length := by
      obtain ⟨ts, -, hexpand⟩ := hdec
      exact (expand_extends hexpand).length_le
    have hinv : MemberInv base { m with sb := sb, out := out } :=
      { h with
        good := hgood
        keeps := h.keeps.imp id fun hle => Nat.le_trans hle hlen }
    cases f with
    | true =>
      obtain ⟨hsb, hhashed, hsent, huc⟩ := emitNew_final hinv
      simp only [if_true]
      refine ⟨?_, ?_, ?_, ?_, ?_⟩
      · simpa only [hsb] using hgood
      · simpa only [hsb] using hsuffix
      · simp only [hsb, hhashed]
        exact hhistory.final
      · simpa only [hhashed] using hsent
      · simpa only [hhashed] using huc
    | false =>
      obtain ⟨hinv', hsb, hcut⟩ := compact_emitNew hinv
      simp only [Bool.false_eq_true, if_false]
      refine ⟨hinv', ?_, fun r hr => ?_⟩
      · simp only [hsb]
        exact hlt
      · revert hr
        cases r with
        | error e =>
          rintro ⟨he, hnone⟩
          refine ⟨he, fun rest res hblocks => hnone rest res ?_⟩
          simp only [hsb, hcut]
          exact hhistory.tail rfl hblocks
        | ok m' =>
          rintro ⟨hgood', hsuffix', hblocks, hsent, huc⟩
          simp only [hsb, hcut] at hsuffix' hblocks
          exact ⟨hgood', hsuffix'.trans hsuffix, hhistory.more rfl hblocks, hsent, huc⟩

/-- The blocks of a member, from a buffer that reads. -/
theorem memberSpec_memberBlocks {sb : StreamBuf} (h : sb.Good) (sent : List (List UInt8)) :
    MemberSpec sent.flatten ⟨sb, [], 0, [], 0, sent⟩ (memberBlocks sb sent) := by
  unfold memberBlocks
  refine Loop.iterate_rule (fun m => m.sb.stream.length)
    (fun m hm => memberBlocksRound_keeps hm) ⟨h, rfl, Or.inl rfl, by simp, rfl⟩ ?_
  simp only [StreamBuf.stream, List.length_drop, bits_length]
  omega

end Blocks

/-! ## The members of the stream -/

namespace StreamBuf

variable {sb : StreamBuf}

/-- Aligning drops the rest of the byte in which the blocks end. -/
theorem byteAlign_spec (h : sb.Good) : sb.byteAlign.Good ∧ sb.byteAlign.bitOff = 0 ∧
    sb.byteAlign.pending = fromBoundary sb.pending sb.stream := by
  obtain ⟨hlt, hle, hne, heof⟩ := h
  have hlen : sb.stream.length = 8 * sb.pending.length - sb.bitOff := by
    rw [stream, List.length_drop, bits_length]
  have hbuf : sb.buf.length ≤ sb.pending.length := (List.prefix_append _ _).length_le
  unfold byteAlign
  by_cases hpos : 0 < sb.bitOff
  · have hone : 1 ≤ sb.buf.length := by omega
    have hnonempty : sb.buf ≠ [] := by
      rintro hnil
      rw [hnil] at hone
      simp at hone
    rw [if_pos ⟨hpos, hnonempty⟩]
    refine ⟨⟨by simp, by simp, hne, heof⟩, rfl, ?_⟩
    rw [fromBoundary, hlen, show sb.pending.length - (8 * sb.pending.length - sb.bitOff) / 8 = 1 by
      omega]
    simp only [pending]
    rw [List.drop_append_of_le_length hone]
  · have hzero : sb.bitOff = 0 := by omega
    rw [if_neg (by omega)]
    refine ⟨⟨hlt, hle, hne, heof⟩, hzero, ?_⟩
    rw [fromBoundary, hlen, hzero,
      show sb.pending.length - (8 * sb.pending.length - 0) / 8 = 0 by omega, List.drop_zero]

/-- What reading `n` bytes returns. -/
def ReadBytesSpec (n : ℕ) (sb : StreamBuf) : Except Error (List UInt8 × StreamBuf) → Prop
  | .error e => e ≠ .deflate .outOfFuel ∧ sb.pending.length < n
  | .ok (bytes, sb') => n ≤ sb.pending.length ∧ bytes = sb.pending.take n ∧ sb'.Good ∧
      sb'.bitOff = 0 ∧ sb'.pending = sb.pending.drop n

/-- Reading bytes returns the next ones, or the source has ended. -/
theorem readBytesSpec_readBytes (n : ℕ) (h : sb.Good) (hoff : sb.bitOff = 0) :
    ReadBytesSpec n sb (sb.readBytes n) := by
  have hfill := fillSpec_fillAtLeast n h
  unfold readBytes
  revert hfill
  cases sb.fillAtLeast n with
  | error e => exact id
  | ok sb' =>
    rintro ⟨hgood, hpending, hoff', hlen⟩
    have hbuf : sb'.buf.length ≤ sb'.pending.length := (List.prefix_append _ _).length_le
    refine ⟨by rw [← hpending]; omega, ?_, ⟨hgood.bitOff_lt, ?_, hgood.reads_ne, hgood.eof⟩,
      hoff'.trans hoff, ?_⟩
    · rw [← hpending, pending, List.take_append_of_le_length hlen]
    · simp only [hoff', hoff]
      exact Nat.zero_le _
    · rw [← hpending, pending, pending, List.drop_append_of_le_length hlen]

/-- Reading ahead after a member: an empty buffer means the end of the stream. -/
theorem peekMember_spec (h : sb.Good) :
    let sb' := if sb.buf = [] ∧ sb.srcEof = false then sb.fillMore else sb
    sb'.Good ∧ sb'.pending = sb.pending ∧ sb'.bitOff = sb.bitOff ∧
      (sb'.buf = [] → sb'.pending = []) := by
  by_cases hpeek : sb.buf = [] ∧ sb.srcEof = false
  · obtain ⟨hgood, hpending, hoff, -, -, hprimed⟩ := fillMore_spec h hpeek.2
    simp only [if_pos hpeek]
    exact ⟨hgood, hpending, hoff, hprimed⟩
  · simp only [if_neg hpeek]
    refine ⟨h, trivial, trivial, fun hnil => ?_⟩
    have heof : sb.srcEof = true := by
      cases hsrc : sb.srcEof with
      | true => rfl
      | false => exact absurd ⟨hnil, hsrc⟩ hpeek
    rw [pending, hnil, h.eof heof]
    rfl

end StreamBuf

section Members

variable {crc : Checksum} {s : StreamState}

/-- Between members: the buffer is aligned, and empty only at the end of the stream. -/
structure StreamInv (s : StreamState) : Prop where
  good : s.sb.Good
  aligned : s.sb.bitOff = 0
  primed : s.sb.buf = [] → s.sb.pending = []
  total_eq : s.totalUc = s.sent.flatten.length

/-- What the loop over the members returns. -/
def MembersSpec (crc : Checksum) (s : StreamState) : Except Error StreamState → Prop
  | .error e => e ≠ .deflate .outOfFuel ∧ ∀ os, ¬Continues crc s.sb.pending os
  | .ok s' => (∃ os, Continues crc s.sb.pending os ∧
      s'.sent.flatten = s.sent.flatten ++ os) ∧ s'.totalUc = s'.sent.flatten.length ∧
      (s.sb.pending = [] → s'.member = s.member) ∧ (s.sb.pending ≠ [] → s.member < s'.member)

/-- A round decodes one member. -/
theorem membersStreamRound_keeps (h : StreamInv s) :
    Loop.RoundKeeps StreamInv (MembersSpec crc) (fun s => s.sb.pending.length) s
      (membersStreamRound crc s) := by
  unfold membersStreamRound
  by_cases hempty : s.sb.buf = []
  · rw [if_pos hempty]
    have hnil := h.primed hempty
    exact ⟨⟨[], Or.inl ⟨hnil, rfl⟩, (List.append_nil _).symm⟩, h.total_eq, fun _ => rfl,
      fun hne => absurd hnil hne⟩
  have hmore : s.sb.pending ≠ [] := by
    rw [StreamBuf.pending]
    exact List.append_ne_nil_of_left_ne_nil hempty _
  rw [if_neg hempty]
  have hheader := StreamBuf.headerSpec_readGzipHeader h.good h.aligned
  revert hheader
  cases s.sb.readGzipHeader with
  | error e =>
    rintro ⟨he, hnone⟩
    refine ⟨he, ?_⟩
    rintro os (⟨hnil, -⟩ | ⟨-, headerLen, hok, -⟩)
    · exact hmore hnil
    · exact hnone headerLen hok
  | ok sb =>
    rintro ⟨hgood, hoff, headerLen, hok, hbody⟩
    obtain ⟨hge, hle⟩ := Gzip.parseHeader_bounds hok
    have hcontinues (os : List UInt8) : Continues crc s.sb.pending os ↔
        BodyMembers crc sb.pending os := by
      rw [hbody, bodyMembers_of_suffix (List.drop_suffix _ _), continues_iff hmore hok
        List.suffix_rfl]
    have hstream : sb.stream = bits sb.pending := by rw [StreamBuf.stream, hoff, List.drop_zero]
    have hblocks := memberSpec_memberBlocks hgood s.sent
    simp only [bind, Except.bind]
    revert hblocks
    cases memberBlocks sb s.sent with
    | error e =>
      rintro ⟨he, hnone⟩
      refine ⟨he, fun os hos => ?_⟩
      obtain ⟨o, tail, os', hends, -⟩ := bodyMembers_iff.mp ((hcontinues os).mp hos)
      obtain ⟨rest, hdec⟩ := hends.room List.suffix_rfl
      rw [← hstream] at hdec
      exact hnone rest o hdec
    | ok m =>
      rintro ⟨hgood₁, hsuffix, hdec, hsent, huc⟩
      simp only [List.nil_append, hstream] at hdec
      have hboundary : fromBoundary m.sb.pending m.sb.stream =
          fromBoundary sb.pending m.sb.stream :=
        fromBoundary_of_suffix hsuffix (List.drop_suffix _ _)
      obtain ⟨hgood₂, hoff₂, hpending₂⟩ := StreamBuf.byteAlign_spec hgood₁
      have hremains (os : List UInt8) : Continues crc s.sb.pending os ↔
          ∃ os', (TrailerMatches crc m.sb.byteAlign.pending m.hashed ∧
            Continues crc (m.sb.byteAlign.pending.drop 8) os') ∧ os = m.hashed ++ os' := by
        rw [hcontinues, bodyMembers_iff, remains_of_blocks hdec, hpending₂, hboundary]
      have hread := StreamBuf.readBytesSpec_readBytes 8 hgood₂ hoff₂
      simp only
      revert hread
      cases m.sb.byteAlign.readBytes 8 with
      | error e =>
        rintro ⟨he, hshort⟩
        refine ⟨he, fun os hos => ?_⟩
        obtain ⟨os', ⟨⟨hlen, -⟩, -⟩, -⟩ := (hremains os).mp hos
        omega
      | ok r =>
        obtain ⟨trailer, sb₃⟩ := r
        rintro ⟨hroom, rfl, hgood₃, hoff₃, hpending₃⟩
        have hcheck := validateMember_cases crc m.sb.byteAlign.pending m.hashed s.member 0 hroom
        simp only [List.take_take, List.drop_take, huc]
        rcases hcheck with ⟨hmatches, hok₃⟩ | ⟨hdiffers, e, herr⟩
        swap
        · simp only [Nat.min_eq_left (by decide : 4 ≤ 8)]
          rw [herr]
          refine ⟨by simp, fun os hos => ?_⟩
          obtain ⟨os', ⟨hmatches, -⟩, -⟩ := (hremains os).mp hos
          exact hdiffers hmatches
        simp only [Nat.min_eq_left (by decide : 4 ≤ 8)]
        rw [hok₃]
        obtain ⟨hgood₄, hpending₄, hoff₄, hprimed⟩ := StreamBuf.peekMember_spec hgood₃
        have hshrinks : (m.sb.byteAlign.pending.drop 8).length < s.sb.pending.length := by
          have hlen := hsuffix.length_le
          have hsub : fromBoundary m.sb.pending m.sb.stream <:+ m.sb.pending :=
            List.drop_suffix _ _
          have hsub' := hsub.length_le
          rw [← hpending₂] at hsub'
          rw [hbody, List.length_drop] at hlen
          rw [List.length_drop]
          omega
        refine ⟨⟨hgood₄, hoff₄.trans hoff₃, hprimed, ?_⟩, ?_, fun r hr => ?_⟩
        · simp only
          rw [hsent, List.length_append, h.total_eq]
        · simp only [hpending₄, hpending₃]
          exact hshrinks
        · revert hr
          simp only [MembersSpec, hpending₄, hpending₃]
          cases r with
          | error e =>
            rintro ⟨he, hnone⟩
            refine ⟨he, fun os hos => ?_⟩
            obtain ⟨os', ⟨-, hrest⟩, -⟩ := (hremains os).mp hos
            exact hnone os' hrest
          | ok s' =>
            rintro ⟨⟨os, hos, hsent'⟩, htotal, hlast, hnext⟩
            refine ⟨⟨m.hashed ++ os, (hremains _).mpr ⟨os, ⟨hmatches, hos⟩, rfl⟩, ?_⟩, htotal,
              fun hnil => absurd hnil hmore, fun _ => ?_⟩
            · rw [hsent', hsent, List.append_assoc]
            · by_cases hnil : m.sb.byteAlign.pending.drop 8 = []
              · have := hlast hnil
                omega
              · have := hnext hnil
                omega

/-- What the streaming decoder returns: the members of the stream, sent in full, or an error. -/
def StreamOutcome (crc : Checksum) (d : List UInt8) :
    Except Error ((ℕ × ℕ) × List (List UInt8)) → Prop
  | .error e => e ≠ .deflate .outOfFuel ∧
      ∀ headerLen os, Gzip.parseHeader d = .ok headerLen →
        ¬BodyMembers crc (d.drop headerLen) os
  | .ok ((total, chunks), sent) => (∃ headerLen, Gzip.parseHeader d = .ok headerLen ∧
      BodyMembers crc (d.drop headerLen) sent.flatten) ∧ total = sent.flatten.length ∧
      chunks = sent.length

/-- What the stream decoder returns. -/
theorem streamOutcome_readGzStreaming (crc : Checksum) {reads : List (List UInt8)}
    (hreads : ∀ r ∈ reads, r ≠ []) :
    StreamOutcome crc reads.flatten (readGzStreaming crc reads) := by
  obtain ⟨hgood, hpending, hoff, -, -, hprimed⟩ :=
    StreamBuf.fillMore_spec (StreamBuf.good_new hreads) rfl
  replace hpending : (StreamBuf.new reads).fillMore.pending = reads.flatten := hpending
  have hspec : MembersSpec crc ⟨(StreamBuf.new reads).fillMore, 0, 0, []⟩
      (Loop.iterate (.deflate .outOfFuel) (membersStreamRound crc) (reads.flatten.length + 1)
        ⟨(StreamBuf.new reads).fillMore, 0, 0, []⟩) :=
    Loop.iterate_rule (fun s => s.sb.pending.length)
      (fun s (h : StreamInv s) => membersStreamRound_keeps h) ⟨hgood, hoff, hprimed, rfl⟩
      (by simp only [hpending]; omega)
  unfold readGzStreaming
  revert hspec
  cases Loop.iterate (.deflate .outOfFuel) (membersStreamRound crc) (reads.flatten.length + 1)
    ⟨(StreamBuf.new reads).fillMore, 0, 0, []⟩ with
  | error e =>
    rintro ⟨he, hnone⟩
    refine ⟨he, fun headerLen os hheader hmembers => hnone os ?_⟩
    rw [hpending]
    refine Or.inr ⟨?_, headerLen, hheader, hmembers⟩
    rintro hnil
    rw [hnil] at hheader
    cases hheader
  | ok s =>
    rintro ⟨⟨os, hos, hsent⟩, htotal, hlast, hnext⟩
    simp only [hpending] at hos hlast hnext
    rw [List.flatten_nil, List.nil_append] at hsent
    simp only [bind, Except.bind]
    by_cases hnil : reads.flatten = []
    · rw [if_pos (hlast hnil)]
      refine ⟨by simp, fun headerLen os hheader => ?_⟩
      rw [hnil] at hheader
      cases hheader
    · rw [if_neg (by have := hnext hnil; omega)]
      rcases hos with ⟨hnil', -⟩ | ⟨-, headerLen, hheader, hmembers⟩
      · exact absurd hnil' hnil
      · rw [← hsent] at hmembers
        exact ⟨⟨headerLen, hheader, hmembers⟩, htotal, rfl⟩

end Members

/-! ## Attempts on a partial buffer -/

section Attempts

/-- What an attempt at a block makes of a buffer: the flag, the output and the bit where the
block ends, or an error. -/
def verdict (sb : StreamBuf) (out : List UInt8) :
    Except DeflateError ((Bool × List UInt8) × ℕ) := do
  let br ← sb.reader
  let (r, br) ← Inflate.inflateBlock out br
  .ok (r, br.tellBit)

/-- An attempt needs more bytes, or has the verdict that it has with any more of them. -/
theorem verdict_settles (sb : StreamBuf) (out more : List UInt8) :
    verdict sb out = .error .unexpectedEof ∨
      verdict { sb with buf := sb.buf ++ more } out = verdict sb out := by
  have hinit : sb.buf <+: sb.buf ++ more := List.prefix_append _ _
  have hreader : Loop.Settles .unexpectedEof (BitReader.InStep 0 sb.buf (sb.buf ++ more))
      sb.reader ({ sb with buf := sb.buf ++ more } : StreamBuf).reader := by
    unfold StreamBuf.reader
    simp only
    split
    · rcases BitReader.seekToBit_at sb.buf sb.bitOff with
        ⟨hle, br, hok, hat⟩ | ⟨-, heof⟩
      · obtain ⟨p, hr, -⟩ := hat.reads
        obtain ⟨br', hok', hr', hbits'⟩ := BitReader.seekToBit_ok (BitReader.new (sb.buf ++ more))
          (show sb.bitOff ≤ 8 * (sb.buf ++ more).length by rw [List.length_append]; omega)
        obtain ⟨br'', hok'', hr'', -⟩ := BitReader.seekToBit_ok (BitReader.new sb.buf) hle
        rw [hok] at hok''
        cases hok''
        rw [hok, hok']
        exact Loop.Settles.pure ⟨⟨⟨_, hr'', hr'⟩, Nat.zero_le _, Nat.zero_le _⟩, hat.bits_le,
          hbits'⟩
      · rw [heof]
        exact Loop.Settles.starve _
    · exact Loop.Settles.pure (BitReader.InStep.new _ _)
  have hverdict : Loop.Settles .unexpectedEof Eq (verdict sb out)
      (verdict { sb with buf := sb.buf ++ more } out) := by
    refine hreader.bind fun br br' hstep => ?_
    refine (Inflate.settles_inflateBlock out hinit hstep).bind ?_
    rintro ⟨r, br₁⟩ ⟨_, br₁'⟩ ⟨rfl, hstep₁⟩
    exact Loop.Settles.pure (by rw [hstep₁.tellBit_eq])
  revert hverdict
  cases verdict sb out with
  | error e => exact fun h => h.imp (congrArg _) id
  | ok v =>
    rintro ⟨_, hv, rfl⟩
    exact Or.inr hv

/-- An attempt that is repeated starts again from the same output and the same bit, with more
bytes behind the ones that were there. -/
theorem decodeBlockRound_continue {sb sb' : StreamBuf} {out out' : List UInt8}
    (h : StreamBuf.decodeBlockRound (out, sb) = .ok (.inl (out', sb'))) :
    out' = out ∧ sb'.bitOff = sb.bitOff ∧ sb'.buf = sb.buf ++ sb.reads.headD [] := by
  cases hreader : sb.reader with
  | error e =>
    unfold StreamBuf.decodeBlockRound at h
    simp only [hreader] at h
    cases h
  | ok br =>
    cases hrun : Inflate.inflateBlock out br with
    | ok r =>
      unfold StreamBuf.decodeBlockRound at h
      simp only [hreader, hrun] at h
      cases h
    | error e =>
      cases e with
      | unexpectedEof =>
        rw [StreamBuf.decodeBlockRound_eof out hreader hrun] at h
        unfold StreamBuf.refillOrFail at h
        split at h
        · cases h
        · cases h
          exact ⟨rfl, rfl, rfl⟩
      | invalid msg =>
        unfold StreamBuf.decodeBlockRound at h
        simp only [hreader, hrun] at h
        cases h
      | outOfFuel =>
        unfold StreamBuf.decodeBlockRound at h
        simp only [hreader, hrun] at h
        cases h

end Attempts

/-- Streaming succeeds exactly if the serial decoder succeeds on the whole file, and delivers
the same bytes, however the reader cuts the file. An attempt at a block that runs out of
bytes changes nothing, and any other attempt has the verdict of the full buffer. -/
theorem readGzStreaming_iff_serialDecodeMember (crc : Checksum) (chunkSizeBytes : ℕ)
    (d : List UInt8) (reads : List (List UInt8)) (hreads : ∀ r ∈ reads, r ≠ [])
    (hd : reads.flatten = d) :
    ((∃ stats sent, readGzStreaming crc reads = .ok (stats, sent)) ↔
      ∃ headerLen stats sent, Gzip.parseHeader d = .ok headerLen ∧
        serialDecodeMember crc d headerLen chunkSizeBytes = .ok (stats, sent)) ∧
    (∀ headerLen stats stats' sent sent', readGzStreaming crc reads = .ok (stats, sent) →
      Gzip.parseHeader d = .ok headerLen →
      serialDecodeMember crc d headerLen chunkSizeBytes = .ok (stats', sent') →
      sent.flatten = sent'.flatten) ∧
    (∀ (sb : StreamBuf) (out more : List UInt8), verdict sb out = .error .unexpectedEof ∨
      verdict { sb with buf := sb.buf ++ more } out = verdict sb out) ∧
    ∀ (sb sb' : StreamBuf) (out out' : List UInt8),
      StreamBuf.decodeBlockRound (out, sb) = .ok (.inl (out', sb')) →
      out' = out ∧ sb'.bitOff = sb.bitOff ∧ sb'.buf = sb.buf ++ sb.reads.headD [] := by
  subst hd
  have hstream := streamOutcome_readGzStreaming crc hreads
  have hserial (headerLen : ℕ) :=
    serialOutcome_serialDecodeMember crc reads.flatten headerLen chunkSizeBytes
  refine ⟨⟨?_, ?_⟩, ?_, verdict_settles, fun _ _ _ _ => decodeBlockRound_continue⟩
  · rintro ⟨⟨total, chunks⟩, sent, hok⟩
    rw [hok] at hstream
    obtain ⟨⟨headerLen, hheader, hmembers⟩, -⟩ := hstream
    have hbody := hserial headerLen
    cases hrun : serialDecodeMember crc reads.flatten headerLen chunkSizeBytes with
    | error e =>
      rw [hrun] at hbody
      exact absurd hmembers (hbody.2 _)
    | ok r => exact ⟨headerLen, r.1, r.2, hheader, hrun⟩
  · rintro ⟨headerLen, ⟨total, consumed, chunks⟩, sent, hheader, hok⟩
    have hbody := hserial headerLen
    rw [hok] at hbody
    cases hrun : readGzStreaming crc reads with
    | error e =>
      rw [hrun] at hstream
      exact absurd hbody.1 (hstream.2 headerLen _ hheader)
    | ok r => exact ⟨r.1, r.2, rfl⟩
  · rintro headerLen ⟨total, chunks⟩ ⟨total', consumed, chunks'⟩ sent sent' hok hheader hok'
    have hbody := hserial headerLen
    rw [hok'] at hbody
    rw [hok] at hstream
    obtain ⟨⟨headerLen', hheader', hmembers⟩, -⟩ := hstream
    rw [hheader] at hheader'
    cases hheader'
    exact hmembers.unique hbody.1

/-- A member of one stored byte, cut inside its header, its block and its trailer. -/
theorem readGzStreaming_iff_serialDecodeMember_cut :
    ∃ stats sent, readGzStreaming crc32 [Gzip.storedMember.take 7,
      (Gzip.storedMember.drop 7).take 5, (Gzip.storedMember.drop 12).take 7,
      Gzip.storedMember.drop 19] = .ok (stats, sent) := by
  have hserial : ∃ stats sent,
      serialDecodeMember crc32 Gzip.storedMember 10 0 = .ok (stats, sent) :=
    ⟨(1, 14, 1), [[65]], by decide +kernel⟩
  obtain ⟨stats, sent, hok⟩ := hserial
  exact (readGzStreaming_iff_serialDecodeMember crc32 0 Gzip.storedMember _ (by decide)
    (by decide)).1.mpr ⟨10, stats, sent, by decide +kernel, hok⟩

end Pipeline

end RustyRapidgzip
