import RustyRapidgzip.Deflate.Extend
import RustyRapidgzip.Gzip.HeaderGrammar
import RustyRapidgzip.Pipeline.Serial

/-!
# The streaming buffer

A pipe is read piece by piece into a buffer whose front is dropped as blocks are decoded.
Each operation runs on the bytes that have come in, and runs again with more of them
when it needs more. What it returns is what it would return on all the bytes at once.
-/

namespace RustyRapidgzip

open LsbBits Reference BitReader

namespace Pipeline

/-- The buffer. `reads` are the results of the reads to come; after them the reader returns
nothing. The first `bitOff` bits of the buffer are used up. -/
structure StreamBuf where
  reads : List (List UInt8)
  buf : List UInt8
  bitOff : ℕ
  srcEof : Bool

namespace StreamBuf

/-- An empty buffer. -/
def new (reads : List (List UInt8)) : StreamBuf := ⟨reads, [], 0, false⟩

/-- Read once; a read that returns nothing is the end of the source. -/
def fillMore (sb : StreamBuf) : StreamBuf :=
  let got := sb.reads.headD []
  { sb with
    reads := sb.reads.tail
    buf := sb.buf ++ got
    srcEof := if got.length = 0 then true else sb.srcEof }

/-- Read again, or report that the source has ended. -/
def refillOrFail {α : Type} (next : StreamBuf → α) (sb : StreamBuf) : Except Error α :=
  if sb.srcEof then .error (.gzip .truncated) else .ok (next sb.fillMore)

/-- The rounds that suffice for every loop of reads: one for each of them, one for the end of
the source and one after it. -/
def rounds (sb : StreamBuf) : ℕ := sb.reads.length + 2

/-- `while buf.len() < n`, read. -/
def fillAtLeast (sb : StreamBuf) (n : ℕ) : Except Error StreamBuf :=
  Loop.iterate (.deflate .outOfFuel)
    (fun sb => if sb.buf.length < n then sb.refillOrFail .inl else .ok (.inr sb)) sb.rounds sb

/-- The reader of a block attempt. -/
def reader (sb : StreamBuf) : Except DeflateError BitReader :=
  if 0 < sb.bitOff then (BitReader.new sb.buf).seekToBit sb.bitOff
  else .ok (BitReader.new sb.buf)

/-- One attempt at a block: drop what it used, or take back what it wrote and read more. -/
def decodeBlockRound (s : List UInt8 × StreamBuf) :
    Except Error ((List UInt8 × StreamBuf) ⊕ ((Bool × List UInt8) × StreamBuf)) :=
  let (out, sb) := s
  let outCheck := out.length
  match sb.reader with
  | .error e => .error (.deflate e)
  | .ok br =>
    match Inflate.inflateBlock out br with
    | .ok ((bfinal, out), br) =>
      let pos := br.tellBit
      .ok (.inr ((bfinal, out), { sb with buf := sb.buf.drop (pos / 8), bitOff := pos % 8 }))
    | .error .unexpectedEof =>
      let out := (Inflate.inflateBlockOut out br).take outCheck
      sb.refillOrFail fun sb => .inl (out, sb)
    | .error e => .error (.deflate e)

/-- Decode one block. -/
def decodeBlock (sb : StreamBuf) (out : List UInt8) :
    Except Error ((Bool × List UInt8) × StreamBuf) :=
  Loop.iterate (.deflate .outOfFuel) decodeBlockRound sb.rounds (out, sb)

/-- Drop the rest of a byte that is used up in part. -/
def byteAlign (sb : StreamBuf) : StreamBuf :=
  if 0 < sb.bitOff ∧ sb.buf ≠ [] then { sb with buf := sb.buf.drop 1, bitOff := 0 } else sb

/-- Take the next `n` bytes. -/
def readBytes (sb : StreamBuf) (n : ℕ) : Except Error (List UInt8 × StreamBuf) := do
  let sb ← sb.fillAtLeast n
  .ok (sb.buf.take n, { sb with buf := sb.buf.drop n })

/-- One attempt at a gzip header. -/
def readGzipHeaderRound (sb : StreamBuf) : Except Error (StreamBuf ⊕ StreamBuf) :=
  match Gzip.parseHeader sb.buf with
  | .ok n => .ok (.inr { sb with buf := sb.buf.drop n })
  | .error .truncated => sb.refillOrFail .inl
  | .error e => .error (.gzip e)

/-- Skip a gzip header. -/
def readGzipHeader (sb : StreamBuf) : Except Error StreamBuf :=
  Loop.iterate (.deflate .outOfFuel) readGzipHeaderRound sb.rounds sb

/-! ## What is still to come -/

/-- The bytes that are still to come, in the buffer and from the reader. -/
def pending (sb : StreamBuf) : List UInt8 := sb.buf ++ sb.reads.flatten

/-- The bits that are still to come. -/
def stream (sb : StreamBuf) : List Bool := (bits sb.pending).drop sb.bitOff

/-- A buffer as the loops leave it: the bits used up are in it, every read to come returns
something, and none comes after the end of the source. -/
structure Good (sb : StreamBuf) : Prop where
  bitOff_lt : sb.bitOff < 8
  bitOff_le : sb.bitOff ≤ 8 * sb.buf.length
  reads_ne : ∀ r ∈ sb.reads, r ≠ []
  eof : sb.srcEof = true → sb.reads = []

/-- The rounds a loop of reads can still make. -/
def left (sb : StreamBuf) : ℕ := sb.reads.length + if sb.srcEof then 0 else 1

/-- There are enough rounds for all reads. -/
theorem left_lt_rounds (sb : StreamBuf) : sb.left < sb.rounds := by
  unfold left rounds
  split <;> omega

variable {sb : StreamBuf} {out : List UInt8}

/-- A new buffer whose reads are not empty is good. -/
theorem good_new {reads : List (List UInt8)} (hreads : ∀ r ∈ reads, r ≠ []) :
    (new reads).Good :=
  ⟨by simp [new], by simp [new], hreads, by simp [new]⟩

/-- A read moves bytes into the buffer. -/
theorem fillMore_spec (h : sb.Good) (hopen : sb.srcEof = false) :
    sb.fillMore.Good ∧ sb.fillMore.pending = sb.pending ∧ sb.fillMore.bitOff = sb.bitOff ∧
      sb.fillMore.left < sb.left ∧ sb.buf <+: sb.fillMore.buf ∧
      (sb.fillMore.buf = [] → sb.fillMore.pending = []) := by
  obtain ⟨hlt, hle, hne, -⟩ := h
  obtain ⟨reads, buf, bitOff, srcEof⟩ := sb
  obtain rfl : srcEof = false := hopen
  cases reads with
  | nil =>
    refine ⟨⟨hlt, ?_, by simp [fillMore], by simp [fillMore]⟩, ?_, rfl, ?_, ?_, ?_⟩
    · simpa [fillMore] using hle
    · simp [fillMore, pending]
    · simp [fillMore, left]
    · simp [fillMore]
    · simp [fillMore, pending]
  | cons got reads =>
    have hgot : got ≠ [] := hne got List.mem_cons_self
    have hlen : got.length ≠ 0 := fun h => hgot (List.length_eq_zero_iff.mp h)
    refine ⟨⟨hlt, ?_, ?_, ?_⟩, ?_, rfl, ?_, ?_, ?_⟩
    · simp only [fillMore, List.headD_cons, List.length_append]
      simp only at hle
      omega
    · exact fun r hr => hne r (List.mem_cons_of_mem _ hr)
    · simp [fillMore, hlen]
    · simp [fillMore, pending]
    · simp [fillMore, left, hlen]
    · simp [fillMore]
    · simp [fillMore, hgot]

/-- Reading again makes a loop go on, unless the source has ended and all bytes are there. -/
theorem refillOrFail_cases {α : Type} (next : StreamBuf → α) (h : sb.Good) :
    (sb.refillOrFail next = .error (.gzip .truncated) ∧ sb.pending = sb.buf) ∨
    (sb.refillOrFail next = .ok (next sb.fillMore) ∧ sb.fillMore.Good ∧
      sb.fillMore.pending = sb.pending ∧ sb.fillMore.bitOff = sb.bitOff ∧
      sb.fillMore.left < sb.left) := by
  unfold refillOrFail
  cases heof : sb.srcEof with
  | true => exact Or.inl ⟨rfl, by rw [pending, h.eof heof]; simp⟩
  | false =>
    obtain ⟨hgood, hpending, hoff, hleft, -⟩ := fillMore_spec h heof
    exact Or.inr ⟨rfl, hgood, hpending, hoff, hleft⟩

/-- What filling up to `n` bytes returns. -/
def FillSpec (n : ℕ) (sb : StreamBuf) : Except Error StreamBuf → Prop
  | .error e => e ≠ .deflate .outOfFuel ∧ sb.pending.length < n
  | .ok sb' => sb'.Good ∧ sb'.pending = sb.pending ∧ sb'.bitOff = sb.bitOff ∧
      n ≤ sb'.buf.length

/-- Filling the buffer ends with the bytes that are wanted, or with the source. -/
theorem fillSpec_fillAtLeast (n : ℕ) (h : sb.Good) : FillSpec n sb (sb.fillAtLeast n) := by
  refine Loop.iterate_rule left (fun sb (h : sb.Good) => ?_) h sb.left_lt_rounds
  by_cases hshort : sb.buf.length < n
  · rw [if_pos hshort]
    rcases refillOrFail_cases Sum.inl h with ⟨heq, hall⟩ | ⟨heq, hgood, hpending, hoff, hleft⟩
    · rw [heq]
      exact ⟨by simp, by rwa [hall]⟩
    · rw [heq]
      refine ⟨hgood, hleft, fun r hr => ?_⟩
      cases r with
      | error e => exact ⟨hr.1, hpending ▸ hr.2⟩
      | ok sb' => exact ⟨hr.1, hr.2.1.trans hpending, hr.2.2.1.trans hoff, hr.2.2.2⟩
  · rw [if_neg hshort]
    exact ⟨h, rfl, rfl, by omega⟩

/-- An attempt starts at the first unused bit, of the buffer as of all the bytes to come. -/
theorem reader_inStep (h : sb.Good) : ∃ br br', sb.reader = .ok br ∧
    InStep 0 sb.buf sb.pending br br' ∧ br'.At sb.pending sb.stream := by
  have hle := h.bitOff_le
  have hlen : sb.buf.length ≤ sb.pending.length := (List.prefix_append _ _).length_le
  unfold reader
  by_cases hpos : 0 < sb.bitOff
  · obtain ⟨br, hok, hr, hbits⟩ := seekToBit_ok (BitReader.new sb.buf)
      (show sb.bitOff ≤ 8 * sb.buf.length from hle)
    obtain ⟨br', -, hr', hbits'⟩ := seekToBit_ok (BitReader.new sb.pending)
      (show sb.bitOff ≤ 8 * sb.pending.length by omega)
    rw [if_pos hpos]
    exact ⟨br, br', hok, ⟨⟨⟨_, hr, hr'⟩, Nat.zero_le _, Nat.zero_le _⟩, hbits, hbits'⟩,
      ⟨⟨_, hr', rfl⟩, hbits'⟩⟩
  · have hzero : sb.bitOff = 0 := by omega
    rw [if_neg hpos]
    refine ⟨_, _, rfl, InStep.new _ _, ?_⟩
    rw [stream, hzero]
    exact new_at _

/-- A block that succeeds uses up bytes of the buffer. -/
theorem drop_good (h : sb.Good) {pos : ℕ} (hpos : pos ≤ 8 * sb.buf.length) :
    let sb' : StreamBuf := { sb with buf := sb.buf.drop (pos / 8), bitOff := pos % 8 }
    sb'.Good ∧ sb'.pending <:+ sb.pending ∧ sb'.stream = (bits sb.pending).drop pos := by
  have hpending : sb.buf.drop (pos / 8) ++ sb.reads.flatten = sb.pending.drop (pos / 8) := by
    rw [pending, List.drop_append_of_le_length (by omega)]
  refine ⟨⟨Nat.mod_lt _ (by decide), ?_, h.reads_ne, h.eof⟩, ?_, ?_⟩
  · simp only [List.length_drop]
    omega
  · simp only [pending] at hpending ⊢
    rw [hpending]
    exact List.drop_suffix _ _
  · simp only [stream, pending] at hpending ⊢
    rw [hpending, bits_drop, List.drop_drop]
    congr 1
    omega

/-- What decoding a block returns: a block of the bytes to come, or an error if they do not
start with one. -/
def DecodeSpec (out : List UInt8) (sb : StreamBuf) :
    Except Error ((Bool × List UInt8) × StreamBuf) → Prop
  | .error e => e ≠ .deflate .outOfFuel ∧
      ∀ f rest res, ¬BlockDecodes 48 id sb.stream out f rest res
  | .ok ((f, res), sb') => sb'.Good ∧ sb'.pending <:+ sb.pending ∧
      BlockDecodes 48 id sb.stream out f sb'.stream res

/-- An attempt that needs more bytes leaves the output as it was. -/
theorem decodeBlockRound_eof (out : List UInt8) {br : BitReader} (hreader : sb.reader = .ok br)
    (heof : Inflate.inflateBlock out br = .error .unexpectedEof) :
    decodeBlockRound (out, sb) = sb.refillOrFail fun sb => .inl (out, sb) := by
  unfold decodeBlockRound
  simp only [hreader, heof]
  rw [← List.prefix_iff_eq_take.mp (Inflate.isPrefix_inflateBlockOut out br)]

/-- An attempt at a block keeps to the bytes to come. -/
theorem decodeBlockRound_keeps (out : List UInt8) (h : sb.Good) :
    Loop.RoundKeeps (fun s : List UInt8 × StreamBuf => s.2.Good) (fun s => DecodeSpec s.1 s.2)
      (fun s => s.2.left) (out, sb) (decodeBlockRound (out, sb)) := by
  obtain ⟨br, br', hreader, hstep, hat⟩ := reader_inStep h
  have hinit : sb.buf <+: sb.pending := List.prefix_append _ _
  have hsettles := Inflate.settles_inflateBlock out hinit hstep
  have hspec := Inflate.decodesBlocks_inflateBlock sb.pending out br' sb.stream hat
  cases hrun : Inflate.inflateBlock out br with
  | error e =>
    rw [hrun] at hsettles
    by_cases heof : e = .unexpectedEof
    · subst heof
      rw [decodeBlockRound_eof out hreader hrun]
      rcases refillOrFail_cases (fun sb => (Sum.inl (out, sb) :
          (List UInt8 × StreamBuf) ⊕ ((Bool × List UInt8) × StreamBuf))) h with
        ⟨heq, hall⟩ | ⟨heq, hgood, hpending, hoff, hleft⟩
      · rw [heq]
        have hback := Inflate.settles_inflateBlock out (hall ▸ List.prefix_rfl) hstep.symm
        revert hback hspec
        rw [hrun]
        cases Inflate.inflateBlock out br' with
        | error e => exact fun hspec _ => ⟨by simp, hspec.2⟩
        | ok r =>
          rintro - ⟨r', hr', -⟩
          cases hr'
      · rw [heq]
        refine ⟨hgood, hleft, fun r hr => ?_⟩
        have hstream : sb.fillMore.stream = sb.stream := by rw [stream, hpending, hoff, stream]
        cases r with
        | error e => exact ⟨hr.1, hstream ▸ hr.2⟩
        | ok r =>
          obtain ⟨hgood', hsuffix, hdec⟩ := hr
          exact ⟨hgood', hpending ▸ hsuffix, hstream ▸ hdec⟩
    · have hround : decodeBlockRound (out, sb) = .error (.deflate e) := by
        unfold decodeBlockRound
        cases e with
        | unexpectedEof => exact absurd rfl heof
        | invalid msg => simp only [hreader, hrun]
        | outOfFuel => simp only [hreader, hrun]
      rw [hsettles.resolve_left heof] at hspec
      rw [hround]
      exact ⟨by simpa using hspec.1, hspec.2⟩
  | ok r =>
    obtain ⟨⟨f, res⟩, br₁⟩ := r
    rw [hrun] at hsettles
    obtain ⟨⟨_, br₁'⟩, hrun', rfl, hstep₁⟩ := hsettles
    rw [hrun'] at hspec
    obtain ⟨rest, hdec, hat₁⟩ := hspec
    obtain ⟨p, hr, hr'⟩ := hstep₁.pos
    obtain ⟨p', hr'', rfl⟩ := hat₁.reads
    obtain rfl : p = p' := by rw [← hr'.tellBit_eq, hr''.tellBit_eq]
    have hround : decodeBlockRound (out, sb) = .ok (.inr ((f, res),
        { sb with buf := sb.buf.drop (p / 8), bitOff := p % 8 })) := by
      unfold decodeBlockRound
      simp only [hreader, hrun, hr.tellBit_eq]
    have hpos := hr.pos_le
    obtain ⟨hgood, hsuffix, hstream⟩ := drop_good h (show p ≤ 8 * sb.buf.length by omega)
    rw [hround]
    refine ⟨hgood, hsuffix, ?_⟩
    rw [hstream]
    exact hdec

/-- A block is decoded as from all the bytes to come. -/
theorem decodeSpec_decodeBlock (out : List UInt8) (h : sb.Good) :
    DecodeSpec out sb (sb.decodeBlock out) := by
  unfold decodeBlock
  exact Loop.iterate_rule (fun s : List UInt8 × StreamBuf => s.2.left)
    (P := fun s => DecodeSpec s.1 s.2) (s := (out, sb))
    (fun s (h : s.2.Good) => decodeBlockRound_keeps s.1 h) h sb.left_lt_rounds

/-- An aligned buffer delivers the bytes to come. -/
theorem delivers : Reparse.Delivers (fun sb : StreamBuf => sb.Good ∧ sb.bitOff = 0) buf pending left
    (refillOrFail id) (.gzip .truncated) where
  buffered_prefix _ _ := List.prefix_append _ _
  refill_cases sb h := by
    rcases refillOrFail_cases id h.1 with ⟨heq, hall⟩ | ⟨heq, hgood, hpending, hoff, hleft⟩
    · exact Or.inl ⟨heq, hall⟩
    · exact Or.inr ⟨_, heq, ⟨hgood, hoff.trans h.2⟩, hpending, hleft⟩

/-- An attempt at the header is one of a parser that starts over. -/
theorem readGzipHeaderRound_eq (sb : StreamBuf) : readGzipHeaderRound sb =
    Reparse.round Gzip.parseHeader .truncated Error.gzip buf (refillOrFail id)
      (fun sb n => { sb with buf := sb.buf.drop n }) sb := by
  unfold readGzipHeaderRound Reparse.round
  cases Gzip.parseHeader sb.buf with
  | ok n => rfl
  | error e =>
    cases e with
    | truncated =>
      simp only [refillOrFail, if_true]
      split <;> rfl
    | _ => rfl

/-- Skipping a header returns what the parser returns on all the bytes to come. -/
theorem returns_readGzipHeader (h : sb.Good) (hoff : sb.bitOff = 0) :
    Reparse.Returns (fun sb => sb.Good ∧ sb.bitOff = 0) pending buf Gzip.parseHeader Error.gzip
      (fun sb n => { sb with buf := sb.buf.drop n }) sb sb.readGzipHeader := by
  unfold readGzipHeader
  rw [funext readGzipHeaderRound_eq]
  exact Reparse.returns_iterate Gzip.stable_parseHeader delivers _ ⟨h, hoff⟩ sb.left_lt_rounds

/-- What skipping a header returns. -/
def HeaderSpec (sb : StreamBuf) : Except Error StreamBuf → Prop
  | .error e => e ≠ .deflate .outOfFuel ∧ ∀ n, Gzip.parseHeader sb.pending ≠ .ok n
  | .ok sb' => sb'.Good ∧ sb'.bitOff = 0 ∧ ∃ n, Gzip.parseHeader sb.pending = .ok n ∧
      sb'.pending = sb.pending.drop n

/-- A header is parsed as from all the bytes to come. -/
theorem headerSpec_readGzipHeader (h : sb.Good) (hoff : sb.bitOff = 0) :
    HeaderSpec sb sb.readGzipHeader := by
  have hreturns := returns_readGzipHeader h hoff
  unfold Reparse.Returns at hreturns
  cases hparse : Gzip.parseHeader sb.pending with
  | ok n =>
    rw [hparse] at hreturns
    obtain ⟨sb', hok, ⟨hgood, hoff'⟩, hpending, hbuf⟩ := hreturns
    obtain ⟨-, hle⟩ := Gzip.parseHeader_bounds hbuf
    rw [hok]
    refine ⟨⟨hgood.bitOff_lt, by rw [hoff']; exact Nat.zero_le _, hgood.reads_ne, hgood.eof⟩, hoff',
      n, hparse, ?_⟩
    rw [← hpending, pending, pending, List.drop_append_of_le_length hle]
  | error e =>
    rw [hparse] at hreturns
    rw [hreturns]
    refine ⟨by simp, fun n hn => ?_⟩
    rw [hparse] at hn
    cases hn

end StreamBuf

end Pipeline

end RustyRapidgzip
