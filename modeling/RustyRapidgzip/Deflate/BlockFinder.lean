import RustyRapidgzip.Deflate.Header
import Mathlib.Order.Monotone.Basic
import Mathlib.Order.Bounds.Basic
import Mathlib.Tactic.IntervalCases

/-!
# The block finder

`findNextDynamicBlock` scans for the header of a non-final dynamic block. A table
of thirteen-bit windows tells how far to move on, and every candidate is verified
by a strict header parse and a trial of its codes. The table fills the bits beyond
the window with zeros, so a window without a candidate also skips the two positions
whose block type it does not hold.
-/

namespace RustyRapidgzip

open LsbBits

namespace BlockFinder

/-- The number of symbols decoded on trial. -/
def TRIAL_SYMBOLS : ℕ := 64

/-- The number of bits the table looks at. -/
def LUT_BITS : ℕ := 13

/-- The window starts like a non-final dynamic block. -/
def isDynamicCandidate (bits : ℕ) : Bool :=
  if bits &&& 1 ≠ 0 then false
  else if bits >>> 1 &&& 0b11 ≠ 0b10 then false
  else if 29 < bits >>> 3 &&& 0b11111 then false
  else if 29 < bits >>> 8 &&& 0b11111 then false
  else true

/-- `while step < LUT_BITS`, shift the window to its next candidate. -/
def nextStep : ℕ → ℕ → ℕ → ℕ
  | 0, _, step => step
  | rounds + 1, bits, step =>
    if isDynamicCandidate bits then step else nextStep rounds (bits >>> 1) (step + 1)

/-- The table entry of a window: the offset of its first candidate, or 13. -/
def NEXT_LUT (window : ℕ) : ℕ := nextStep LUT_BITS window 0

/-- Write the lengths one code-length symbol stands for. The list holds the lengths
below `i`. -/
def writeLengthsStrict (total : ℕ) (lengths : List ℕ) (sym : ℕ) (br : BitReader) :
    Except DeflateError (List ℕ × BitReader) :=
  if sym ≤ 15 then .ok (lengths ++ [sym], br)
  else if sym = 16 then
    match lengths.getLast? with
    | none => .error (.invalid "strict: code 16 with no previous")
    | some prev => do
      let (v, br) ← br.read 2
      let n := v + 3
      if total < lengths.length + n then .error (.invalid "strict: code 16 overruns")
      else .ok (lengths ++ List.replicate n prev, br)
  else if sym = 17 then do
    let (v, br) ← br.read 3
    let n := v + 3
    if total < lengths.length + n then .error (.invalid "strict: code 17 overruns")
    else .ok (lengths ++ List.replicate n 0, br)
  else if sym = 18 then do
    let (v, br) ← br.read 7
    let n := v + 11
    if total < lengths.length + n then .error (.invalid "strict: code 18 overruns")
    else .ok (lengths ++ List.replicate n 0, br)
  else .error (.invalid "strict: bad code-length symbol")

/-- `while i < total`, read one code-length symbol; each round writes at least one length. -/
def readLengthsStrict (cl : HuffmanDecoder) (total : ℕ) : ℕ → List ℕ → BitReader →
    Except DeflateError (List ℕ × BitReader)
  | 0, _, _ => .error .outOfFuel
  | rounds + 1, lengths, br =>
    if lengths.length < total then do
      let (sym, br) ← cl.decode br
      let (lengths, br) ← writeLengthsStrict total lengths sym br
      readLengthsStrict cl total rounds lengths br
    else .ok (lengths, br)

/-- Parse a dynamic header whose codes must be complete. -/
def readDynamicHeaderStrict (br : BitReader) :
    Except DeflateError ((HuffmanDecoder × HuffmanDecoder) × BitReader) := do
  let (v, br) ← br.read 5
  let hlit := v + 257
  let (v, br) ← br.read 5
  let hdist := v + 1
  let (v, br) ← br.read 4
  let hclen := v + 4
  if 286 < hlit ∨ 30 < hdist then .error (.invalid "strict: HLIT/HDIST out of range")
  else
    let (clLengths, br) ←
      readClDecoderLengths (CODE_LENGTH_ORDER.take hclen) (List.replicate 19 0) br
    let cl ← HuffmanDecoder.fromLengthsStrict clLengths
    let total := hlit + hdist
    let (lengths, br) ← readLengthsStrict cl total (total + 1) [] br
    if lengths.getD 256 0 = 0 then .error (.invalid "strict: EOB symbol has zero length")
    else
      let lit ← HuffmanDecoder.fromLengthsStrict (lengths.take hlit)
      let dist ← HuffmanDecoder.fromLengthsStrict (lengths.drop hlit)
      .ok ((lit, dist), br)

/-- `if extra > 0`, read the extra bits. -/
def skipExtra (extra : ℕ) (br : BitReader) : Except DeflateError BitReader :=
  if 0 < extra then (br.read extra).map Prod.snd else .ok br

/-- Decode symbols up to the given number or the end of the block. -/
def trialDecode (lit dist : HuffmanDecoder) : ℕ → BitReader → Except DeflateError Unit
  | 0, _ => .ok ()
  | nSymbols + 1, br => do
    let (sym, br) ← lit.decode br
    if sym ≤ 255 then trialDecode lit dist nSymbols br
    else if sym = 256 then .ok ()
    else if sym ≤ 285 then
      let br ← skipExtra (LENGTH_EXTRA.getD (sym - 257) 0) br
      let (dsym, br) ← dist.decode br
      if 30 ≤ dsym then .error (.invalid "trial: distance symbol out of range")
      else
        let br ← skipExtra (DISTANCE_EXTRA.getD dsym 0) br
        trialDecode lit dist nSymbols br
    else .error (.invalid "trial: lit/len symbol out of range")

/-- Whether the header at the position parses strictly and its codes decode on trial. -/
def verifyCandidate (br : BitReader) (pos : ℕ) : Bool :=
  let parsed : Except DeflateError Unit := do
    let br ← br.seekToBit pos
    let (_, br) ← br.read 3
    let ((lit, dist), br) ← readDynamicHeaderStrict br
    trialDecode lit dist TRIAL_SYMBOLS br
  parsed.isOk

/-- `while pos + LUT_BITS ≤ limit`, verify a candidate or move on to the next one. Seeking
discards what the verifying reader has read before, so each round takes a fresh one. -/
def scan (verify : BitReader) (limit : ℕ) : ℕ → BitReader → ℕ → Option ℕ
  | 0, _, _ => none
  | rounds + 1, probe, pos =>
    if pos + LUT_BITS ≤ limit then
      match probe.seekToBit pos with
      | .error _ => none
      | .ok probe =>
        match probe.peek LUT_BITS with
        | .error _ => none
        | .ok (window, probe) =>
          let step := NEXT_LUT window
          if step = 0 then
            if verifyCandidate verify pos then some pos
            else scan verify limit rounds probe (pos + 1)
          else scan verify limit rounds probe (pos + step)
    else none

/-- The first dynamic block from `fromBit` on, before `untilBit`. Each round moves on by a
bit, which bounds the rounds. -/
def findNextDynamicBlock (data : List UInt8) (fromBit untilBit : ℕ) : Option ℕ :=
  let totalBits := data.length * 8
  let limit := min untilBit totalBits
  if limit ≤ fromBit then none
  else scan (BitReader.new data) limit (limit - fromBit) (BitReader.new data) fromBit

/-! ## What the finder looks for -/

/-- A verified block header in the searched range. -/
structure Block (data : List UInt8) (fromBit untilBit pos : ℕ) : Prop where
  from_le : fromBit ≤ pos
  room : pos + LUT_BITS ≤ min untilBit (8 * data.length)
  candidate : isDynamicCandidate (peekAt data pos LUT_BITS) = true
  verified : verifyCandidate (BitReader.new data) pos = true

/-- The result is the first block, or there is none. -/
def FindsFirst (data : List UInt8) (fromBit untilBit : ℕ) (result : Option ℕ) : Prop :=
  (∀ p, result = some p ↔ IsLeast {p | Block data fromBit untilBit p} p) ∧
    (result = none ↔ ∀ p, ¬Block data fromBit untilBit p)

/-- The position the scan looks at after this one. -/
def nextPos (data : List UInt8) (pos : ℕ) : ℕ := pos + max 1 (NEXT_LUT (peekAt data pos LUT_BITS))

/-- Stepping through the windows from a position comes to an empty window that hides `p`: its
last two bits are the first bits of a header at `p`. -/
def Hidden (data : List UInt8) (fromBit p : ℕ) : Prop :=
  ∃ n, NEXT_LUT (peekAt data ((nextPos data)^[n] fromBit) LUT_BITS) = LUT_BITS ∧
    (p = (nextPos data)^[n] fromBit + 11 ∨ p = (nextPos data)^[n] fromBit + 12)

/-! ## The table -/

section Windows

variable {w : ℕ}

/-- The fields of a candidate, as numbers. -/
theorem isDynamicCandidate_iff :
    isDynamicCandidate w = true ↔
      w % 2 = 0 ∧ w / 2 % 4 = 2 ∧ w / 8 % 32 ≤ 29 ∧ w / 256 % 32 ≤ 29 := by
  have h1 : w &&& 1 = w % 2 := Nat.and_two_pow_sub_one_eq_mod w 1
  have h2 : w >>> 1 &&& 0b11 = w / 2 % 4 := by
    rw [Nat.shiftRight_eq_div_pow]
    exact Nat.and_two_pow_sub_one_eq_mod _ 2
  have h3 : w >>> 3 &&& 0b11111 = w / 8 % 32 := by
    rw [Nat.shiftRight_eq_div_pow]
    exact Nat.and_two_pow_sub_one_eq_mod _ 5
  have h4 : w >>> 8 &&& 0b11111 = w / 256 % 32 := by
    rw [Nat.shiftRight_eq_div_pow]
    exact Nat.and_two_pow_sub_one_eq_mod _ 5
  unfold isDynamicCandidate
  rw [h1, h2, h3, h4]
  split_ifs <;> simp <;> omega

/-- The known bits of a candidate, filled up with zeros, are a candidate, once the block
type is among them. -/
theorem isDynamicCandidate_mod {k : ℕ} (hk : 3 ≤ k) (hk13 : k ≤ 13)
    (h : isDynamicCandidate w = true) : isDynamicCandidate (w % 2 ^ k) = true := by
  rw [isDynamicCandidate_iff] at h ⊢
  interval_cases k <;> omega

/-- Two bits do not hold the block type. -/
theorem isDynamicCandidate_of_lt (hw : w < 4) : isDynamicCandidate w = false := by
  rw [← Bool.not_eq_true, isDynamicCandidate_iff]
  omega

/-- The shifting loop stops at the first candidate, or after its rounds. -/
theorem nextStep_spec (rounds w step : ℕ) :
    ∃ j ≤ rounds, nextStep rounds w step = step + j ∧
      (∀ i < j, isDynamicCandidate (w >>> i) = false) ∧
      (j < rounds → isDynamicCandidate (w >>> j) = true) := by
  induction rounds generalizing w step with
  | zero => exact ⟨0, le_rfl, rfl, by simp, by simp⟩
  | succ rounds ih =>
    rw [nextStep]
    by_cases hw : isDynamicCandidate w = true
    · exact ⟨0, Nat.zero_le _, by rw [if_pos hw]; rfl, by simp, fun _ => hw⟩
    · obtain ⟨j, hj, hstep, hbefore, hat⟩ := ih (w >>> 1) (step + 1)
      refine ⟨j + 1, by omega, by rw [if_neg hw, hstep]; omega, fun i hi => ?_, fun hlt => ?_⟩
      · cases i with
        | zero => simpa using hw
        | succ i =>
          have := hbefore i (by omega)
          rwa [← Nat.shiftRight_add, Nat.add_comm] at this
      · have := hat (by omega)
        rwa [← Nat.shiftRight_add, Nat.add_comm] at this

/-- A step leads to a candidate among the first eleven offsets, or past the window. -/
theorem NEXT_LUT_spec (hw : w < 2 ^ LUT_BITS) :
    (∀ i < NEXT_LUT w, isDynamicCandidate (w >>> i) = false) ∧
      (NEXT_LUT w ≤ 10 ∧ isDynamicCandidate (w >>> NEXT_LUT w) = true ∨
        NEXT_LUT w = LUT_BITS) := by
  obtain ⟨j, hj, hstep, hbefore, hat⟩ := nextStep_spec LUT_BITS w 0
  have hj13 : LUT_BITS = 13 := rfl
  rw [Nat.zero_add] at hstep
  rw [NEXT_LUT, hstep]
  refine ⟨hbefore, ?_⟩
  by_cases hlast : j = LUT_BITS
  · exact Or.inr hlast
  · have hcandidate := hat (by omega)
    refine Or.inl ⟨?_, hcandidate⟩
    by_contra hlate
    have hshift : w >>> j < 4 := by
      rw [Nat.shiftRight_eq_div_pow, Nat.div_lt_iff_lt_mul (by positivity)]
      calc w < 4 * 2 ^ 11 := hw
        _ ≤ 4 * 2 ^ j := Nat.mul_le_mul_left _ (Nat.pow_le_pow_right (by decide) (by omega))
    rw [isDynamicCandidate_of_lt hshift] at hcandidate
    cases hcandidate

end Windows

/-! ## The scan -/

section Scan

variable {data : List UInt8} {fromBit untilBit p : ℕ}

/-- The windows of later positions are the shifted window, as far as it reaches. -/
theorem peekAt_shiftRight (data : List UInt8) (pos : ℕ) {i n : ℕ} (hi : i ≤ n) :
    peekAt data pos n >>> i = peekAt data (pos + i) n % 2 ^ (n - i) := by
  apply Nat.eq_of_testBit_eq
  intro k
  rw [Nat.testBit_shiftRight, Nat.testBit_mod_two_pow, testBit_peekAt, testBit_peekAt,
    Nat.add_assoc]
  by_cases hk : k < n - i
  · simp only [hk, decide_true, Bool.true_and, show i + k < n by omega, show k < n by omega]
  · simp only [hk, decide_false, Bool.false_and, show ¬i + k < n by omega]

/-- A skipped candidate starts in the last two bits of an empty window. -/
theorem skipped_candidate {pos i : ℕ} (hi : i < NEXT_LUT (peekAt data pos LUT_BITS))
    (h : isDynamicCandidate (peekAt data (pos + i) LUT_BITS) = true) :
    NEXT_LUT (peekAt data pos LUT_BITS) = LUT_BITS ∧ (i = 11 ∨ i = 12) := by
  obtain ⟨hbefore, hlast⟩ := NEXT_LUT_spec (peekAt_lt data pos LUT_BITS)
  have h13 : LUT_BITS = 13 := rfl
  have hlate : ¬i ≤ 10 := fun hle => by
    have hmod := isDynamicCandidate_mod (show 3 ≤ LUT_BITS - i by omega) (by omega) h
    rw [← peekAt_shiftRight data pos (by omega), hbefore i hi] at hmod
    cases hmod
  rcases hlast with ⟨hle, -⟩ | hfull
  · omega
  · exact ⟨hfull, by omega⟩

/-- The scan moves on. -/
theorem lt_nextPos (data : List UInt8) (pos : ℕ) : pos < nextPos data pos := by
  unfold nextPos
  omega

/-- The scan looks at positions in order. -/
theorem strictMono_positions (data : List UInt8) (fromBit : ℕ) :
    StrictMono fun n => (nextPos data)^[n] fromBit :=
  strictMono_nat_of_lt_succ fun n => by
    rw [Function.iterate_succ_apply']
    exact lt_nextPos data _

/-- The scan looks at a position or passes over it. -/
theorem exists_position (data : List UInt8) (hp : fromBit ≤ p) :
    ∃ n, (nextPos data)^[n] fromBit ≤ p ∧ p < (nextPos data)^[n + 1] fromBit := by
  induction p, hp using Nat.le_induction with
  | base => exact ⟨0, le_rfl, lt_nextPos data _⟩
  | succ p _ ih =>
    obtain ⟨n, hle, hlt⟩ := ih
    by_cases hnext : p + 1 < (nextPos data)^[n + 1] fromBit
    · exact ⟨n, by omega, hnext⟩
    · refine ⟨n + 1, by omega, ?_⟩
      have hmono := strictMono_positions data fromBit (Nat.lt_add_one (n + 1))
      simp only at hmono
      omega

/-- A candidate the scan does not look at is hidden, and a hidden position is none it looks
at. -/
theorem hidden_iff (hp : fromBit ≤ p) (hcandidate : isDynamicCandidate (peekAt data p LUT_BITS)) :
    Hidden data fromBit p ↔ ∀ n, (nextPos data)^[n] fromBit ≠ p := by
  have hmono := strictMono_positions data fromBit
  constructor
  · rintro ⟨n, hfull, hbehind⟩ m rfl
    have hnext : (nextPos data)^[n + 1] fromBit = (nextPos data)^[n] fromBit + 13 := by
      rw [Function.iterate_succ_apply', nextPos, hfull]
      rfl
    rcases Nat.lt_or_ge n m with hlt | hge
    · have hle : (nextPos data)^[n + 1] fromBit ≤ (nextPos data)^[m] fromBit := hmono.monotone hlt
      omega
    · have hle : (nextPos data)^[m] fromBit ≤ (nextPos data)^[n] fromBit := hmono.monotone hge
      omega
  · intro hnot
    obtain ⟨n, hle, hlt⟩ := exists_position data hp
    obtain ⟨i, rfl⟩ := Nat.exists_eq_add_of_le hle
    rw [Function.iterate_succ_apply', nextPos] at hlt
    have hpos : i ≠ 0 := fun hzero => hnot n (by omega)
    have hskip := skipped_candidate (show i < NEXT_LUT _ by omega) hcandidate
    exact ⟨n, hskip.1, by omega⟩

/-- The scan returns the first block it looks at. -/
theorem scan_cases {verify probe : BitReader} (hverify : verify = BitReader.new data)
    (hprobe : probe.input = data) {rounds pos : ℕ}
    (hrounds : min untilBit (8 * data.length) ≤ pos + rounds) (hpos : fromBit ≤ pos) :
    (∃ n, scan verify (min untilBit (8 * data.length)) rounds probe pos =
        some ((nextPos data)^[n] pos) ∧ Block data fromBit untilBit ((nextPos data)^[n] pos) ∧
        ∀ m < n, ¬Block data fromBit untilBit ((nextPos data)^[m] pos)) ∨
      (scan verify (min untilBit (8 * data.length)) rounds probe pos = none ∧
        ∀ n, ¬Block data fromBit untilBit ((nextPos data)^[n] pos)) := by
  have hfar {pos : ℕ} (hend : ¬pos + LUT_BITS ≤ min untilBit (8 * data.length)) (n : ℕ) :
      ¬Block data fromBit untilBit ((nextPos data)^[n] pos) := fun hblock => by
    have hle := (strictMono_positions data pos).monotone (Nat.zero_le n)
    have := hblock.room
    simp only [Function.iterate_zero, id_eq] at hle
    omega
  induction rounds generalizing probe pos with
  | zero =>
    have h13 : LUT_BITS = 13 := rfl
    exact Or.inr ⟨rfl, hfar (by omega)⟩
  | succ rounds ih =>
    rw [scan]
    by_cases hend : pos + LUT_BITS ≤ min untilBit (8 * data.length)
    swap
    · exact Or.inr ⟨if_neg hend, hfar hend⟩
    have hroom : pos + LUT_BITS ≤ 8 * probe.input.length := by
      rw [hprobe]
      omega
    obtain ⟨probe₁, hseek, hreads₁, -⟩ := probe.seekToBit_ok (show pos ≤ _ by omega)
    obtain ⟨probe₂, hpeek, hreads₂, -, -⟩ := hreads₁.peek_ok (show LUT_BITS ≤ 56 by decide) hroom
    simp only [if_pos hend, hseek, hpeek]
    rw [hprobe] at hreads₂ ⊢
    obtain ⟨hbefore, hlast⟩ := NEXT_LUT_spec (peekAt_lt data pos LUT_BITS)
    by_cases hfound : Block data fromBit untilBit pos
    · have hzero : NEXT_LUT (peekAt data pos LUT_BITS) = 0 := by
        by_contra hstep
        have := hbefore 0 (by omega)
        rw [Nat.shiftRight_zero, hfound.candidate] at this
        cases this
      rw [if_pos hzero, if_pos (hverify ▸ hfound.verified)]
      exact Or.inl ⟨0, rfl, hfound, by simp⟩
    have hnext : (if NEXT_LUT (peekAt data pos LUT_BITS) = 0 then
          if verifyCandidate verify pos = true then some pos
          else scan verify (min untilBit (8 * data.length)) rounds probe₂ (pos + 1)
        else scan verify (min untilBit (8 * data.length)) rounds probe₂
          (pos + NEXT_LUT (peekAt data pos LUT_BITS))) =
        scan verify (min untilBit (8 * data.length)) rounds probe₂ (nextPos data pos) := by
      by_cases hzero : NEXT_LUT (peekAt data pos LUT_BITS) = 0
      · have hcandidate : isDynamicCandidate (peekAt data pos LUT_BITS) = true := by
          rcases hlast with ⟨-, h⟩ | h
          · rwa [hzero, Nat.shiftRight_zero] at h
          · rw [hzero] at h
            cases h
        rw [if_pos hzero, if_neg fun hv => hfound ⟨hpos, hend, hcandidate, hverify ▸ hv⟩, nextPos,
          hzero]
        rfl
      · rw [if_neg hzero, nextPos, Nat.max_eq_right (by omega)]
    have hlt := lt_nextPos data pos
    rw [hnext]
    rcases ih hreads₂.input_eq (show _ ≤ nextPos data pos + rounds by omega) (by omega) with
      ⟨n, hscan, hblock, hfirst⟩ | ⟨hscan, hnone⟩
    · refine Or.inl ⟨n + 1, hscan, hblock, fun m hm => ?_⟩
      cases m with
      | zero => exact hfound
      | succ m => exact hfirst m (by omega)
    · refine Or.inr ⟨hscan, fun n => ?_⟩
      cases n with
      | zero => exact hfound
      | succ n => exact hnone n

/-- The finder returns the first block it looks at. -/
theorem findNextDynamicBlock_cases (data : List UInt8) (fromBit untilBit : ℕ) :
    (∃ n, findNextDynamicBlock data fromBit untilBit = some ((nextPos data)^[n] fromBit) ∧
        Block data fromBit untilBit ((nextPos data)^[n] fromBit) ∧
        ∀ m < n, ¬Block data fromBit untilBit ((nextPos data)^[m] fromBit)) ∨
      (findNextDynamicBlock data fromBit untilBit = none ∧
        ∀ n, ¬Block data fromBit untilBit ((nextPos data)^[n] fromBit)) := by
  unfold findNextDynamicBlock
  rw [Nat.mul_comm data.length]
  simp only
  by_cases hempty : min untilBit (8 * data.length) ≤ fromBit
  · rw [if_pos hempty]
    refine Or.inr ⟨rfl, fun n hblock => ?_⟩
    have := hblock.from_le
    have := hblock.room
    have h13 : LUT_BITS = 13 := rfl
    omega
  · rw [if_neg hempty]
    exact scan_cases rfl (show (BitReader.new data).input = data from rfl)
      (show _ ≤ fromBit + (min untilBit (8 * data.length) - fromBit) by omega) le_rfl

/-- The finder returns the first block exactly where that block is not hidden. -/
theorem findsFirst_findNextDynamicBlock_iff (data : List UInt8) (fromBit untilBit : ℕ) :
    FindsFirst data fromBit untilBit (findNextDynamicBlock data fromBit untilBit) ↔
      ∀ p, IsLeast {p | Block data fromBit untilBit p} p → ¬Hidden data fromBit p := by
  have hmono := strictMono_positions data fromBit
  constructor
  · rintro ⟨hsome, -⟩ p hleast hhidden
    have hfind := (hsome p).mpr hleast
    have hnot := (hidden_iff hleast.1.from_le hleast.1.candidate).mp hhidden
    rcases findNextDynamicBlock_cases data fromBit untilBit with ⟨n, hn, -⟩ | ⟨hnone, -⟩
    · exact hnot n (Option.some.inj (hn.symm.trans hfind))
    · rw [hnone] at hfind
      cases hfind
  · intro hseen
    have hfound {p : ℕ} (hleast : IsLeast {p | Block data fromBit untilBit p} p) :
        ∃ n, (nextPos data)^[n] fromBit = p := by
      by_contra hnot
      exact hseen p hleast ((hidden_iff hleast.1.from_le hleast.1.candidate).mpr
        fun n hn => hnot ⟨n, hn⟩)
    have hexists {p : ℕ} (hblock : Block data fromBit untilBit p) :
        ∃ p, IsLeast {p | Block data fromBit untilBit p} p := by
      classical
      exact ⟨Nat.find ⟨p, hblock⟩, Nat.find_spec ⟨p, hblock⟩,
        fun q hq => Nat.find_min' ⟨p, hblock⟩ hq⟩
    rcases findNextDynamicBlock_cases data fromBit untilBit with
      ⟨n, hn, hblock, hfirst⟩ | ⟨hnone, hall⟩
    · obtain ⟨p, hleast⟩ := hexists hblock
      obtain ⟨m, rfl⟩ := hfound hleast
      have hsame : (nextPos data)^[m] fromBit = (nextPos data)^[n] fromBit := by
        have hle := hleast.2 hblock
        rcases Nat.lt_or_ge m n with hlt | hge
        · exact absurd hleast.1 (hfirst m hlt)
        · have := hmono.monotone hge
          exact Nat.le_antisymm hle this
      rw [hsame] at hleast
      rw [hn]
      refine ⟨fun p => ⟨fun h => ?_, fun h => ?_⟩, by simp, fun h => absurd hblock (h _)⟩
      · rw [← Option.some.inj h]
        exact hleast
      · rw [hleast.unique h]
    · have hempty (p : ℕ) : ¬Block data fromBit untilBit p := fun hblock => by
        obtain ⟨q, hleast⟩ := hexists hblock
        obtain ⟨n, rfl⟩ := hfound hleast
        exact hall n hleast.1
      rw [hnone]
      exact ⟨fun p => ⟨nofun, fun h => absurd h.1 (hempty p)⟩, fun _ => hempty, fun _ => rfl⟩

/-- Eleven bits, then a dynamic block of one end-of-block symbol. -/
def hiddenBlock : List UInt8 :=
  [255, 39, 0, 14, 4, 0, 0, 0, 0, 128, 248, 175, 38, 0, 0, 0, 0]

/-- The block at bit 11 is valid, and the scan from bit 0 misses it. -/
theorem hiddenBlock_not_findsFirst :
    ¬FindsFirst hiddenBlock 0 (8 * hiddenBlock.length)
      (findNextDynamicBlock hiddenBlock 0 (8 * hiddenBlock.length)) := by
  have hnone : findNextDynamicBlock hiddenBlock 0 (8 * hiddenBlock.length) = none := by
    decide +kernel
  have hblock : Block hiddenBlock 0 (8 * hiddenBlock.length) 11 :=
    ⟨by decide, by decide, by decide +kernel, by decide +kernel⟩
  intro h
  exact h.2.mp hnone 11 hblock

end Scan

end BlockFinder

end RustyRapidgzip
