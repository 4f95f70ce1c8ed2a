import RustyRapidgzip.Pipeline.StreamBuf

/-!
# The forward-only source

The dispatcher of the streaming pipeline reads a pipe into a buffer and drops the front of it
as chunks are cut. `base` is the place of the buffer's first byte in the body. Like the serial
streaming buffer, the source parses its header again as more bytes come in; neither of them
can tell how the input was split.
-/

namespace RustyRapidgzip

namespace Pipeline

/-- The source. `reads` are the results of the reads to come; after them the reader returns
nothing. -/
structure Source where
  reads : List (List UInt8)
  buf : List UInt8
  base : ℕ
  srcEof : Bool
  totalRead : ℕ
  deriving DecidableEq, Repr

namespace Source

/-- A source that has read nothing. -/
def new (reads : List (List UInt8)) : Source := ⟨reads, [], 0, false, 0⟩

/-- The place in the body behind the last resident byte. -/
def absEnd (src : Source) : ℕ := src.base + src.buf.length

/-- Read once; a read that returns nothing is the end of the source. The first result is the
number of bytes. -/
def fillMore (src : Source) : ℕ × Source :=
  let got := src.reads.headD []
  (got.length,
    { src with
      reads := src.reads.tail
      buf := src.buf ++ got
      srcEof := if got.length = 0 then true else src.srcEof
      totalRead := src.totalRead + got.length })

/-- The rounds that suffice for every loop of reads. -/
def rounds (src : Source) : ℕ := src.reads.length + 2

/-- `while !src_eof`, read. -/
def readToEof (src : Source) : Except Error Source :=
  Loop.iterate (.deflate .outOfFuel)
    (fun src => if src.srcEof = false then .ok (.inl src.fillMore.2) else .ok (.inr src))
    src.rounds src

/-- `while abs_end() < want && !src_eof`, read. -/
def fillTo (src : Source) (want : ℕ) : Except Error Source :=
  Loop.iterate (.deflate .outOfFuel)
    (fun src => if src.absEnd < want ∧ src.srcEof = false then .ok (.inl src.fillMore.2)
      else .ok (.inr src)) src.rounds src

/-- Drop what comes before a place in the body. -/
def drainTo (src : Source) (abs : ℕ) : Source :=
  let drop := abs - src.base
  if 0 < drop then { src with buf := src.buf.drop drop, base := abs } else src

/-- Read more for the header, or report that the source has ended. -/
def refillHeader (src : Source) : Except Error Source :=
  if src.srcEof then .error (.gzip .truncated) else .ok src.fillMore.2

/-- One attempt at the first header. -/
def stripFirstHeaderRound (src : Source) : Except Error (Source ⊕ Source) :=
  match Gzip.parseHeader src.buf with
  | .ok n => .ok (.inr { src with buf := src.buf.drop n })
  | .error .truncated => src.refillHeader.map .inl
  | .error e => .error (.gzip e)

/-- Strip the first header. -/
def stripFirstHeader (src : Source) : Except Error Source :=
  Loop.iterate (.deflate .outOfFuel) stripFirstHeaderRound src.rounds src

/-! ## What is still to come -/

/-- The bytes that are still to come, in the buffer and from the reader. -/
def pending (src : Source) : List UInt8 := src.buf ++ src.reads.flatten

/-- The bytes that the reader delivers in all. -/
def total (src : Source) : ℕ := src.totalRead + src.reads.flatten.length

/-- Every read to come returns something, and none comes after the end of the source. -/
structure Good (src : Source) : Prop where
  reads_ne : ∀ r ∈ src.reads, r ≠ []
  eof : src.srcEof = true → src.reads = []

/-- The reads that can still be made. -/
def left (src : Source) : ℕ := src.reads.length + if src.srcEof then 0 else 1

/-- There are enough rounds for all reads. -/
theorem left_lt_rounds (src : Source) : src.left < src.rounds := by
  unfold left rounds
  split <;> omega

variable {src : Source}

/-- A new source whose reads are not empty is good. -/
theorem good_new {reads : List (List UInt8)} (hreads : ∀ r ∈ reads, r ≠ []) : (new reads).Good :=
  ⟨hreads, by simp [new]⟩

/-- At the end of the source nothing but the buffer is to come. -/
theorem pending_eq_buf (h : src.Good) (heof : src.srcEof = true) : src.pending = src.buf := by
  rw [pending, h.eof heof, List.flatten_nil, List.append_nil]

/-- Reading keeps what is still to come, and what came before it. -/
structure Reads (src src' : Source) : Prop where
  good : src'.Good
  pending_eq : src'.pending = src.pending
  base_eq : src'.base = src.base
  total_eq : src'.total = src.total
  left_le : src'.left ≤ src.left

/-- Not reading keeps what is to come. -/
theorem Reads.refl (h : src.Good) : src.Reads src := ⟨h, rfl, rfl, rfl, le_rfl⟩

/-- Reading in two steps keeps what is to come. -/
theorem Reads.trans {src₁ src₂ : Source} (h : src.Reads src₁) (h' : src₁.Reads src₂) :
    src.Reads src₂ :=
  ⟨h'.good, h'.pending_eq.trans h.pending_eq, h'.base_eq.trans h.base_eq,
    h'.total_eq.trans h.total_eq, h'.left_le.trans h.left_le⟩

/-- A read moves bytes into the buffer. It returns nothing exactly at the end. -/
theorem fillMore_spec (h : src.Good) (hopen : src.srcEof = false) :
    src.Reads src.fillMore.2 ∧ src.fillMore.2.left < src.left ∧
      (src.fillMore.1 = 0 ↔ src.fillMore.2.srcEof = true) := by
  obtain ⟨reads, buf, base, srcEof, totalRead⟩ := src
  obtain rfl : srcEof = false := hopen
  cases reads with
  | nil =>
    refine ⟨⟨⟨by simp [fillMore], by simp [fillMore]⟩, ?_, rfl, ?_, ?_⟩, ?_, ?_⟩
    · simp [fillMore, pending]
    · simp [fillMore, total]
    · simp [fillMore, left]
    · simp [fillMore, left]
    · simp [fillMore]
  | cons got reads =>
    have hgot : got ≠ [] := h.reads_ne got List.mem_cons_self
    have hlen : got.length ≠ 0 := fun h => hgot (List.length_eq_zero_iff.mp h)
    have hleft : (fillMore ⟨got :: reads, buf, base, false, totalRead⟩).2.left <
        left ⟨got :: reads, buf, base, false, totalRead⟩ := by
      simp [fillMore, left, hlen]
    refine ⟨⟨⟨fun r hr => h.reads_ne r (List.mem_cons_of_mem _ hr), ?_⟩, ?_, rfl, ?_, hleft.le⟩,
      hleft, ?_⟩
    · simp [fillMore, hlen]
    · simp [fillMore, pending]
    · simp [fillMore, total, Nat.add_assoc]
    · simp [fillMore, hgot]

/-- What a loop of reads returns: it does not fail, and it ends where its condition does. -/
def ReadsUntil (Stop : Source → Prop) (src : Source) : Except Error Source → Prop
  | .error _ => False
  | .ok src' => src.Reads src' ∧ Stop src'

/-- A loop that reads until its condition fails, which it does at the end of the source. -/
theorem readsUntil_iterate (more : Source → Prop) [DecidablePred more]
    (hopen : ∀ src, more src → src.srcEof = false) (h : src.Good) :
    ReadsUntil (fun src => ¬more src) src (Loop.iterate (.deflate .outOfFuel)
      (fun src => if more src then .ok (.inl src.fillMore.2) else .ok (.inr src))
      src.rounds src) := by
  refine Loop.iterate_rule left (fun src (h : src.Good) => ?_) h src.left_lt_rounds
  by_cases hmore : more src
  · obtain ⟨hreads, hleft, -⟩ := fillMore_spec h (hopen src hmore)
    rw [if_pos hmore]
    refine ⟨hreads.good, hleft, fun r hr => ?_⟩
    cases r with
    | error e => exact hr
    | ok src' => exact ⟨hreads.trans hr.1, hr.2⟩
  · rw [if_neg hmore]
    exact ⟨Reads.refl h, hmore⟩

/-- A loop of reads has a result. -/
theorem ReadsUntil.exists {Stop : Source → Prop} {r : Except Error Source}
    (h : ReadsUntil Stop src r) : ∃ src', r = .ok src' ∧ src.Reads src' ∧ Stop src' := by
  cases r with
  | error e => exact h.elim
  | ok src' => exact ⟨src', rfl, h⟩

/-- Filling the buffer ends with the bytes that are wanted, or with the source. -/
theorem exists_fillTo (want : ℕ) (h : src.Good) :
    ∃ src', src.fillTo want = .ok src' ∧ src.Reads src' ∧
      (want ≤ src'.absEnd ∨ src'.srcEof = true) := by
  obtain ⟨src', hok, hreads, hstop⟩ := (readsUntil_iterate
    (fun src : Source => src.absEnd < want ∧ src.srcEof = false) (fun _ h => h.2) h).exists
  refine ⟨src', hok, hreads, ?_⟩
  rcases Nat.lt_or_ge src'.absEnd want with hlt | hge
  · exact Or.inr (by simpa using fun heof => hstop ⟨hlt, heof⟩)
  · exact Or.inl hge

/-- Reading to the end ends there. -/
theorem exists_readToEof (h : src.Good) :
    ∃ src', src.readToEof = .ok src' ∧ src.Reads src' ∧ src'.srcEof = true := by
  obtain ⟨src', hok, hreads, hstop⟩ := (readsUntil_iterate
    (fun src : Source => src.srcEof = false) (fun _ h => h) h).exists
  exact ⟨src', hok, hreads, by simpa using hstop⟩

/-- Dropping bytes of the buffer moves its place in the body along. -/
structure Drains (src src' : Source) (abs : ℕ) : Prop where
  good : src'.Good
  pending_eq : src'.pending = src.pending.drop (abs - src.base)
  base_eq : src'.base = abs
  total_eq : src'.total = src.total
  left_eq : src'.left = src.left

/-- Dropping bytes of the buffer, from its start to a place in it. -/
theorem drainTo_spec {abs : ℕ} (h : src.Good) (hbase : src.base ≤ abs) (habs : abs ≤ src.absEnd) :
    src.Drains (src.drainTo abs) abs := by
  unfold drainTo
  unfold absEnd at habs
  simp only
  by_cases hdrop : 0 < abs - src.base
  · rw [if_pos hdrop]
    refine ⟨⟨h.reads_ne, h.eof⟩, ?_, rfl, rfl, rfl⟩
    unfold pending
    rw [List.drop_append_of_le_length (by omega)]
  · rw [if_neg hdrop]
    have hsame : src.base = abs := by omega
    refine ⟨h, ?_, hsame, rfl, rfl⟩
    rw [hsame, Nat.sub_self, List.drop_zero]

/-- The source delivers the bytes to come. -/
theorem delivers (total : ℕ) : Reparse.Delivers
    (fun src : Source => src.Good ∧ src.base = 0 ∧ src.total = total) buf pending left
    refillHeader (.gzip .truncated) where
  buffered_prefix _ _ := List.prefix_append _ _
  refill_cases src h := by
    unfold refillHeader
    cases heof : src.srcEof with
    | true => exact Or.inl ⟨rfl, pending_eq_buf h.1 heof⟩
    | false =>
      obtain ⟨hreads, hleft, -⟩ := fillMore_spec h.1 heof
      exact Or.inr ⟨_, rfl, ⟨hreads.good, h.2.1, hreads.total_eq.trans h.2.2⟩, hreads.pending_eq,
        hleft⟩

/-- An attempt at the header is one of a parser that starts over. -/
theorem stripFirstHeaderRound_eq (src : Source) : stripFirstHeaderRound src =
    Reparse.round Gzip.parseHeader .truncated Error.gzip buf refillHeader
      (fun src n => { src with buf := src.buf.drop n }) src := by
  unfold stripFirstHeaderRound Reparse.round
  cases Gzip.parseHeader src.buf with
  | ok n => rfl
  | error e => cases e <;> rfl

/-- Stripping the header returns what the parser returns on all the bytes to come. -/
theorem returns_stripFirstHeader (h : src.Good) (hbase : src.base = 0) :
    Reparse.Returns (fun src' => src'.Good ∧ src'.base = 0 ∧ src'.total = src.total) pending buf
      Gzip.parseHeader Error.gzip (fun src n => { src with buf := src.buf.drop n }) src
      src.stripFirstHeader := by
  unfold stripFirstHeader
  rw [funext stripFirstHeaderRound_eq]
  exact Reparse.returns_iterate Gzip.stable_parseHeader (delivers src.total) _ ⟨h, hbase, rfl⟩
    src.left_lt_rounds

end Source

/-- The parser accepts exactly the headers of the format, and more input changes no result but
a cut-off. So both incremental readers return its result on all the bytes to come, for every
split of the input. -/
theorem parseHeader_grammar :
    (∀ input n, Gzip.parseHeader input = .ok n ↔
      n ≤ input.length ∧ Gzip.IsHeader (input.take n)) ∧
    (∀ input more, Gzip.parseHeader input ≠ .error .truncated →
      Gzip.parseHeader (input ++ more) = Gzip.parseHeader input) ∧
    (∀ sb : StreamBuf, sb.Good → sb.bitOff = 0 →
      match Gzip.parseHeader sb.pending with
      | .ok n => ∃ sb', sb.readGzipHeader = .ok sb' ∧ sb'.pending = sb.pending.drop n
      | .error e => sb.readGzipHeader = .error (.gzip e)) ∧
    (∀ src : Source, src.Good → src.base = 0 →
      match Gzip.parseHeader src.pending with
      | .ok n => ∃ src', src.stripFirstHeader = .ok src' ∧ src'.base = 0 ∧
          src'.pending = src.pending.drop n
      | .error e => src.stripFirstHeader = .error (.gzip e)) := by
  refine ⟨fun input n => Gzip.parseHeader_ok_iff, fun input more hcut =>
    Gzip.stable_parseHeader _ _ (List.prefix_append _ _) hcut, fun sb hgood hoff => ?_,
    fun src hgood hbase => ?_⟩
  · have hreturns := StreamBuf.returns_readGzipHeader hgood hoff
    unfold Reparse.Returns at hreturns
    cases hparse : Gzip.parseHeader sb.pending with
    | ok n =>
      rw [hparse] at hreturns
      obtain ⟨sb', hok, -, hpending, hbuf⟩ := hreturns
      refine ⟨_, hok, ?_⟩
      rw [← hpending, StreamBuf.pending, StreamBuf.pending,
        List.drop_append_of_le_length (Gzip.parseHeader_bounds hbuf).2]
    | error e => rwa [hparse] at hreturns
  · have hreturns := Source.returns_stripFirstHeader hgood hbase
    unfold Reparse.Returns at hreturns
    cases hparse : Gzip.parseHeader src.pending with
    | ok n =>
      rw [hparse] at hreturns
      obtain ⟨src', hok, ⟨-, hbase', -⟩, hpending, hbuf⟩ := hreturns
      refine ⟨_, hok, hbase', ?_⟩
      rw [← hpending, Source.pending, Source.pending,
        List.drop_append_of_le_length (Gzip.parseHeader_bounds hbuf).2]
    | error e => rwa [hparse] at hreturns

/-- A header in two pieces, read through both buffers. -/
theorem parseHeader_grammar_twoPieces :
    (∃ sb', (StreamBuf.new [[0x1f, 0x8b, 8], [0, 0, 0, 0, 0, 0, 3, 7]]).readGzipHeader = .ok sb' ∧
      sb'.pending = [7]) ∧
    ∃ src', (Source.new [[0x1f, 0x8b, 8], [0, 0, 0, 0, 0, 0, 3, 7]]).stripFirstHeader = .ok src' ∧
      src'.base = 0 ∧ src'.pending = [7] := by
  have hne : ∀ r ∈ [[0x1f, 0x8b, 8], [0, 0, 0, 0, 0, 0, 3, 7]], r ≠ ([] : List UInt8) := by decide
  obtain ⟨-, -, hstream, hsource⟩ := parseHeader_grammar
  exact ⟨hstream _ (StreamBuf.good_new hne) rfl, hsource _ (Source.good_new hne) rfl⟩

end Pipeline

end RustyRapidgzip
