import RustyRapidgzip.Lib.Simulation
import RustyRapidgzip.Deflate.BitReader

/-!
# The bit reader as a cursor

The methods of the reader, each with the reader it leaves behind: a call that runs into the end of
the input may have loaded some bytes by then. Against them stands a plain cursor into the list of
input bits. Whatever calls the cursor allows, the reader answers them as the cursor does.
-/

namespace RustyRapidgzip

open LsbBits

namespace BitReader

/-! ## The methods -/

/-- Bits still available in input and buffer. -/
def bitsRemaining (br : BitReader) : ℕ := (br.input.length - br.bytePos) * 8 + br.bits

/-- Ensure that at least `n` bits are buffered. -/
def ensureBitsMut (br : BitReader) (n : ℕ) : Except DeflateError Unit × BitReader :=
  match br.refill n with
  | (true, br) => (.ok (), br)
  | (false, br) => (.error .unexpectedEof, br)

/-- The next `n` bits, left unread. -/
def peekMut (br : BitReader) (n : ℕ) : Except DeflateError ℕ × BitReader :=
  match br.refill n with
  | (true, br) => (.ok (br.peekBitsUnchecked n), br)
  | (false, br) => (.error .unexpectedEof, br)

/-- Read `n` bits, least significant first. -/
def readMut (br : BitReader) (n : ℕ) : Except DeflateError ℕ × BitReader :=
  if n = 0 then (.ok 0, br)
  else match br.refill n with
    | (true, br) => (.ok (br.peekBitsUnchecked n), br.consume n)
    | (false, br) => (.error .unexpectedEof, br)

/-- Move to an absolute bit position. -/
def seekToBitMut (br : BitReader) (pos : ℕ) : Except DeflateError Unit × BitReader :=
  if br.input.length * 8 < pos then (.error .unexpectedEof, br)
  else
    let br : BitReader := { br with bytePos := pos / 8, buf := 0, bits := 0 }
    let sub := pos % 8
    if sub = 0 then (.ok (), br)
    else match br.refill sub with
      | (true, br) => (.ok (), br.consume sub)
      | (false, br) => (.error .unexpectedEof, br)

/-- The reader that a successful call returns is the one it leaves behind. -/
theorem peek_eq (br : BitReader) (n : ℕ) :
    br.peek n = (br.peekMut n).1.map fun v => (v, (br.peekMut n).2) := by
  unfold peek peekMut
  cases br.refill n with
  | mk flag br' => cases flag <;> rfl

/-- Reading returns what the method returns, with the reader it leaves. -/
theorem read_eq (br : BitReader) (n : ℕ) :
    br.read n = (br.readMut n).1.map fun v => (v, (br.readMut n).2) := by
  unfold read readMut
  split
  · rfl
  · cases br.refill n with
    | mk flag br' => cases flag <;> rfl

/-- Seeking returns the reader that the method leaves. -/
theorem seekToBit_eq (br : BitReader) (pos : ℕ) :
    br.seekToBit pos = (br.seekToBitMut pos).1.map fun _ => (br.seekToBitMut pos).2 := by
  unfold seekToBit seekToBitMut
  split
  · rfl
  · dsimp only
    split
    · rfl
    · cases BitReader.refill _ _ with
      | mk flag br' => cases flag <;> rfl

variable {br : BitReader} {input : List UInt8} {p n : ℕ}

/-- Even when it comes to the end of the input, the byte-by-byte loop keeps the position and the
bits it has. -/
theorem Reads.refillSlow (rounds : ℕ) (h : br.Reads input p) (hn : n ≤ 56) :
    (refillSlow rounds br n).2.Reads input p ∧ br.bits ≤ (refillSlow rounds br n).2.bits := by
  induction rounds generalizing br with
  | zero => exact ⟨h, Nat.le_refl _⟩
  | succ rounds ih =>
    unfold BitReader.refillSlow
    split
    · exact ⟨h, Nat.le_refl _⟩
    · next hbits =>
      split
      · exact ⟨h, Nat.le_refl _⟩
      · next hend =>
        have hroom : br.bytePos < input.length := by
          rw [h.input_eq] at hend
          omega
        obtain ⟨hreads, hle⟩ := ih (h.pushByte hroom (by omega))
        rw [pushByte_bits] at hle
        exact ⟨hreads, by omega⟩

/-- A refill keeps the position and the bits it has, also when it fails. -/
theorem Reads.refill_keeps (h : br.Reads input p) (hn : n ≤ 56) :
    (br.refill n).2.Reads input p ∧ br.bits ≤ (br.refill n).2.bits := by
  unfold BitReader.refill
  split
  · exact ⟨h, Nat.le_refl _⟩
  · split
    · next hfast =>
      refine ⟨h.refillFast hfast.1, ?_⟩
      rw [refillFast_bits]
      omega
    · exact h.refillSlow 8 hn

/-- The two ways a refill ends: enough bits are valid, or the input has too few left. -/
theorem Reads.refill_cases (h : br.Reads input p) (hn : n ≤ 56) :
    ∃ br', br'.Reads input p ∧ br.bits ≤ br'.bits ∧
      ((br.refill n = (true, br') ∧ p + n ≤ 8 * input.length ∧ n ≤ br'.bits) ∨
        (br.refill n = (false, br') ∧ 8 * input.length < p + n)) := by
  obtain ⟨hreads, hle⟩ := h.refill_keeps hn
  obtain ⟨hiff, hspec⟩ := h.refill hn
  refine ⟨(br.refill n).2, hreads, hle, ?_⟩
  cases hr : br.refill n with
  | mk flag br' =>
    rw [hr] at hiff hspec
    cases flag with
    | true => exact Or.inl ⟨rfl, hiff.mp rfl, (hspec rfl).2.1⟩
    | false =>
      have hshort : ¬p + n ≤ 8 * input.length := fun hroom => Bool.false_ne_true (hiff.mpr hroom)
      exact Or.inr ⟨rfl, by omega⟩

/-- The remaining bits are those from the position to the end. -/
theorem Reads.bitsRemaining_eq (h : br.Reads input p) :
    br.bitsRemaining = 8 * input.length - p := by
  have htell := h.acc.tell
  have hbyte := h.acc.bytePos_le
  rw [bitsRemaining, h.input_eq]
  omega

end BitReader

/-! ## Calls -/

/-- A call of one of the reader's methods. -/
inductive ReaderCall where
  | seekToBit (pos : ℕ)
  | read (n : ℕ)
  | ensureBits (n : ℕ)
  | peek (n : ℕ)
  | consume (n : ℕ)
  | byteAlign
  deriving DecidableEq, Repr

/-- What a call returns. -/
inductive ReaderAnswer where
  | done
  | value (v : ℕ)
  | failed (e : DeflateError)
  deriving DecidableEq, Repr

namespace ReaderAnswer

/-- The answer of a method without a result. -/
def ofUnit : Except DeflateError Unit → ReaderAnswer
  | .ok () => done
  | .error e => failed e

/-- The answer of a method that returns bits. -/
def ofBits : Except DeflateError ℕ → ReaderAnswer
  | .ok v => value v
  | .error e => failed e

end ReaderAnswer

/-- Call a method of the reader. Consuming more than the valid bits underflows their count. -/
def BitReader.call (br : BitReader) : ReaderCall → Option (ReaderAnswer × BitReader)
  | .seekToBit pos => some (.ofUnit (br.seekToBitMut pos).1, (br.seekToBitMut pos).2)
  | .read n => some (.ofBits (br.readMut n).1, (br.readMut n).2)
  | .ensureBits n => some (.ofUnit (br.ensureBitsMut n).1, (br.ensureBitsMut n).2)
  | .peek n => some (.ofBits (br.peekMut n).1, (br.peekMut n).2)
  | .consume n => if n ≤ br.bits then some (.done, br.consume n) else none
  | .byteAlign => some (.done, br.byteAlign)

/-! ## The cursor -/

/-- A position in a list of bits, and the position up to which the last successful peek or ensure
allows to consume. -/
structure BitCursor where
  pos : ℕ
  sure : ℕ
  deriving DecidableEq, Repr

namespace BitCursor

/-- A cursor at the first bit. Nothing is guaranteed yet. -/
def start : BitCursor := ⟨0, 0⟩

/-- Answer `n` bits from the cursor with `found`, if the list has that many left. -/
def within (bs : List Bool) (c : BitCursor) (n : ℕ) (found : ReaderAnswer × BitCursor) :
    ReaderAnswer × BitCursor :=
  if c.pos + n ≤ bs.length then found else (.failed .unexpectedEof, c)

/-- The `n` bits from the cursor. -/
def window (bs : List Bool) (c : BitCursor) (n : ℕ) : ReaderAnswer :=
  .value (ofLsb ((bs.drop c.pos).take n))

/-- Call the plain cursor. Refused are reads and peeks of more than 32 bits, guarantees of more
than 56 bits, and consuming beyond the guarantee. A seek ends the guarantee. -/
def call (bs : List Bool) (c : BitCursor) : ReaderCall → Option (ReaderAnswer × BitCursor)
  | .seekToBit pos =>
    some (if pos ≤ bs.length then (.done, ⟨pos, pos⟩) else (.failed .unexpectedEof, c))
  | .read n =>
    if n ≤ 32 then some (c.within bs n (c.window bs n, { c with pos := c.pos + n })) else none
  | .ensureBits n =>
    if n ≤ 56 then some (c.within bs n (.done, { c with sure := c.pos + n })) else none
  | .peek n =>
    if n ≤ 32 then some (c.within bs n (c.window bs n, { c with sure := c.pos + n })) else none
  | .consume n => if n ≤ c.sure - c.pos then some (.done, { c with pos := c.pos + n }) else none
  | .byteAlign => some (.done, { c with pos := (c.pos + 7) / 8 * 8 })

/-- The reader stands at the cursor and has all guaranteed bits in its word. -/
structure Matches (input : List UInt8) (c : BitCursor) (br : BitReader) : Prop where
  reads : br.Reads input c.pos
  sure_le : c.sure ≤ c.pos + br.bits

variable {input : List UInt8} {br : BitReader} {c : BitCursor}

/-- A new cursor matches a new reader. -/
theorem start_matches (input : List UInt8) : start.Matches input (.new input) :=
  ⟨BitReader.new_reads input, Nat.zero_le _⟩

/-- A reader that keeps the position and its bits still matches the cursor. -/
theorem Matches.of_bits_le {br' : BitReader} (h : c.Matches input br)
    (hreads : br'.Reads input c.pos) (hle : br.bits ≤ br'.bits) : c.Matches input br' := by
  have hsure := h.sure_le
  exact ⟨hreads, by omega⟩

/-- Consuming valid bits moves both. -/
theorem Matches.consume {n : ℕ} (h : c.Matches input br) (hn : n ≤ br.bits) :
    BitCursor.Matches input { c with pos := c.pos + n } (br.consume n) := by
  refine ⟨h.reads.consume hn, ?_⟩
  have hsure := h.sure_le
  simp only [BitReader.consume_bits]
  omega

/-- A new guarantee that the valid bits cover. -/
theorem Matches.guarantee {n : ℕ} (h : c.Matches input br) (hn : n ≤ br.bits) :
    BitCursor.Matches input { c with sure := c.pos + n } br :=
  ⟨h.reads, Nat.add_le_add_left hn _⟩

/-- A call that has its bits returns them. -/
theorem within_of_le {n : ℕ} {found : ReaderAnswer × BitCursor}
    (h : c.pos + n ≤ 8 * input.length) : c.within (bits input) n found = found := by
  rw [within, bits_length, if_pos h]

/-- A call that lacks bits fails. -/
theorem within_of_lt {n : ℕ} {found : ReaderAnswer × BitCursor}
    (h : 8 * input.length < c.pos + n) :
    c.within (bits input) n found = (.failed .unexpectedEof, c) := by
  rw [within, bits_length, if_neg (by omega)]

/-- The valid bits show the window at the cursor. -/
theorem Matches.window_eq {n : ℕ} (h : c.Matches input br) (hn : n ≤ br.bits) :
    ReaderAnswer.value (br.peekBitsUnchecked n) = c.window (bits input) n := by
  rw [h.reads.peekBitsUnchecked_eq hn]
  rfl

/-- The cursor reads what the reader reads. -/
theorem Matches.read {n : ℕ} (h : c.Matches input br) (hn : n ≤ 32) :
    ReaderAnswer.ofBits (br.readMut n).1 =
        (c.within (bits input) n (c.window (bits input) n, { c with pos := c.pos + n })).1 ∧
      (c.within (bits input) n (c.window (bits input) n, { c with pos := c.pos + n })).2.Matches
        input (br.readMut n).2 := by
  unfold BitReader.readMut
  split
  · next hzero =>
    subst hzero
    have hpos := h.reads.pos_le
    rw [within_of_le (by omega)]
    exact ⟨by simp [ReaderAnswer.ofBits, window], h⟩
  · obtain ⟨br', hreads, hle, ⟨heq, hroom, hbits⟩ | ⟨heq, hshort⟩⟩ :=
      h.reads.refill_cases (n := n) (by omega)
    · have hmatch := h.of_bits_le hreads hle
      rw [heq, within_of_le hroom]
      exact ⟨hmatch.window_eq hbits, hmatch.consume hbits⟩
    · rw [heq, within_of_lt hshort]
      exact ⟨rfl, h.of_bits_le hreads hle⟩

/-- The cursor peeks what the reader peeks. -/
theorem Matches.peek {n : ℕ} (h : c.Matches input br) (hn : n ≤ 32) :
    ReaderAnswer.ofBits (br.peekMut n).1 =
        (c.within (bits input) n (c.window (bits input) n, { c with sure := c.pos + n })).1 ∧
      (c.within (bits input) n (c.window (bits input) n, { c with sure := c.pos + n })).2.Matches
        input (br.peekMut n).2 := by
  unfold BitReader.peekMut
  obtain ⟨br', hreads, hle, ⟨heq, hroom, hbits⟩ | ⟨heq, hshort⟩⟩ :=
    h.reads.refill_cases (n := n) (by omega)
  · have hmatch := h.of_bits_le hreads hle
    rw [heq, within_of_le hroom]
    exact ⟨hmatch.window_eq hbits, hmatch.guarantee hbits⟩
  · rw [heq, within_of_lt hshort]
    exact ⟨rfl, h.of_bits_le hreads hle⟩

/-- The cursor is as sure of its bits as the reader. -/
theorem Matches.ensureBits {n : ℕ} (h : c.Matches input br) (hn : n ≤ 56) :
    ReaderAnswer.ofUnit (br.ensureBitsMut n).1 =
        (c.within (bits input) n (.done, { c with sure := c.pos + n })).1 ∧
      (c.within (bits input) n (.done, { c with sure := c.pos + n })).2.Matches
        input (br.ensureBitsMut n).2 := by
  unfold BitReader.ensureBitsMut
  obtain ⟨br', hreads, hle, ⟨heq, hroom, hbits⟩ | ⟨heq, hshort⟩⟩ := h.reads.refill_cases hn
  · have hmatch := h.of_bits_le hreads hle
    rw [heq, within_of_le hroom]
    exact ⟨rfl, hmatch.guarantee hbits⟩
  · rw [heq, within_of_lt hshort]
    exact ⟨rfl, h.of_bits_le hreads hle⟩

/-- The cursor aligns as the reader does. -/
theorem Matches.byteAlign (h : c.Matches input br) :
    BitCursor.Matches input { c with pos := (c.pos + 7) / 8 * 8 } br.byteAlign := by
  refine ⟨h.reads.byteAlign, ?_⟩
  have hsure := h.sure_le
  have htell := h.reads.acc.tell
  have htell' := h.reads.byteAlign.acc.tell
  have hbyte : br.byteAlign.bytePos = br.bytePos := rfl
  simp only
  omega

/-- A seek inside the input moves both, whatever the reader held; a seek past the end moves
neither. -/
theorem Matches.seekToBit (h : c.Matches input br) (pos : ℕ) :
    ReaderAnswer.ofUnit (br.seekToBitMut pos).1 =
        (if pos ≤ (bits input).length then (ReaderAnswer.done, (⟨pos, pos⟩ : BitCursor))
          else (.failed .unexpectedEof, c)).1 ∧
      (if pos ≤ (bits input).length then (ReaderAnswer.done, (⟨pos, pos⟩ : BitCursor))
          else (.failed .unexpectedEof, c)).2.Matches input (br.seekToBitMut pos).2 := by
  rw [bits_length]
  by_cases hpos : pos ≤ 8 * input.length
  · have hstart : BitReader.Reads { br with bytePos := pos / 8, buf := 0, bits := 0 } input
        (8 * (pos / 8)) := ⟨h.reads.input_eq, Accumulates.empty (by omega)⟩
    have hlen : br.input.length = input.length := by rw [h.reads.input_eq]
    rw [if_pos hpos, BitReader.seekToBitMut, if_neg (by omega)]
    dsimp only
    split
    · next hsub =>
      rw [show 8 * (pos / 8) = pos by omega] at hstart
      exact ⟨rfl, hstart, Nat.le_add_right _ _⟩
    · obtain ⟨br', hreads, -, ⟨heq, -, hbits⟩ | ⟨-, hshort⟩⟩ :=
        hstart.refill_cases (n := pos % 8) (by omega)
      · rw [heq]
        have hmoved := hreads.consume hbits
        rw [show 8 * (pos / 8) + pos % 8 = pos by omega] at hmoved
        exact ⟨rfl, hmoved, Nat.le_add_right _ _⟩
      · omega
  · rw [if_neg hpos, BitReader.seekToBitMut, h.reads.input_eq, if_pos (by omega)]
    exact ⟨rfl, h⟩

/-- A call that the cursor allows: the reader gives the cursor's answer and matches it again. -/
theorem Matches.call {op : ReaderCall} {a : ReaderAnswer} {c' : BitCursor}
    (h : c.Matches input br) (hcall : c.call (bits input) op = some (a, c')) :
    ∃ br', br.call op = some (a, br') ∧ c'.Matches input br' := by
  cases op with
  | seekToBit pos =>
    have hspec := h.seekToBit pos
    simp only [BitCursor.call, Option.some.injEq] at hcall
    rw [hcall] at hspec
    exact ⟨_, by rw [BitReader.call, hspec.1], hspec.2⟩
  | read n =>
    by_cases hn : n ≤ 32
    · have hspec := h.read hn
      simp only [BitCursor.call, if_pos hn, Option.some.injEq] at hcall
      rw [hcall] at hspec
      exact ⟨_, by rw [BitReader.call, hspec.1], hspec.2⟩
    · simp [BitCursor.call, hn] at hcall
  | ensureBits n =>
    by_cases hn : n ≤ 56
    · have hspec := h.ensureBits hn
      simp only [BitCursor.call, if_pos hn, Option.some.injEq] at hcall
      rw [hcall] at hspec
      exact ⟨_, by rw [BitReader.call, hspec.1], hspec.2⟩
    · simp [BitCursor.call, hn] at hcall
  | peek n =>
    by_cases hn : n ≤ 32
    · have hspec := h.peek hn
      simp only [BitCursor.call, if_pos hn, Option.some.injEq] at hcall
      rw [hcall] at hspec
      exact ⟨_, by rw [BitReader.call, hspec.1], hspec.2⟩
    · simp [BitCursor.call, hn] at hcall
  | consume n =>
    by_cases hn : n ≤ c.sure - c.pos
    · have hsure := h.sure_le
      have hbits : n ≤ br.bits := by omega
      simp only [BitCursor.call, if_pos hn, Option.some.injEq, Prod.mk.injEq] at hcall
      obtain ⟨rfl, rfl⟩ := hcall
      exact ⟨br.consume n, by rw [BitReader.call, if_pos hbits], h.consume hbits⟩
    · simp [BitCursor.call, hn] at hcall
  | byteAlign =>
    simp only [BitCursor.call, Option.some.injEq, Prod.mk.injEq] at hcall
    obtain ⟨rfl, rfl⟩ := hcall
    exact ⟨br.byteAlign, rfl, h.byteAlign⟩

/-- **The reader refines the cursor.** For every input and every sequence of calls that the cursor
allows, the reader gives the cursor's answers without underflow, ends where the cursor ends, and
counts the bits from there to the end of the input. -/
theorem reader_refines_cursor (input : List UInt8) (calls : List ReaderCall)
    {answers : List ReaderAnswer} {c : BitCursor}
    (hrun : Simulation.run (BitCursor.call (bits input)) .start calls = some (answers, c)) :
    ∃ br, Simulation.run BitReader.call (.new input) calls = some (answers, br) ∧
      br.bits ≤ br.bytePos * 8 ∧ br.tellBit = c.pos ∧
      br.bytePos ≤ input.length ∧ br.bitsRemaining = (bits input).length - c.pos := by
  obtain ⟨br, hreader, hmatch⟩ := Simulation.run_simulates (fun br c => c.Matches input br)
    hrun (start_matches input) (fun _ _ _ _ _ h hcall => h.call hcall)
  have htell := hmatch.reads.acc.tell
  refine ⟨br, hreader, by omega, hmatch.reads.tellBit_eq, hmatch.reads.acc.bytePos_le, ?_⟩
  rw [hmatch.reads.bitsRemaining_eq, bits_length]

/-- A run with a failed read, a seek into a byte and an alignment. -/
theorem reader_refines_cursor_two_bytes :
    ∃ br, Simulation.run BitReader.call (.new [0xb4, 0x2d])
        [.read 3, .peek 10, .consume 4, .consume 6, .read 32, .seekToBit 5, .ensureBits 8,
          .consume 2, .byteAlign, .read 8, .peek 1, .seekToBit 17] =
      some ([.value 4, .value 438, .done, .done, .failed .unexpectedEof, .done, .done, .done,
        .done, .value 45, .failed .unexpectedEof, .failed .unexpectedEof], br) ∧
      br.bits ≤ br.bytePos * 8 ∧ br.tellBit = 16 ∧
      br.bytePos ≤ 2 ∧ br.bitsRemaining = (bits [0xb4, 0x2d]).length - 16 :=
  reader_refines_cursor [0xb4, 0x2d] _ (c := ⟨16, 13⟩) (by decide)

end BitCursor

end RustyRapidgzip
