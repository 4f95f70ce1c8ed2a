import RustyRapidgzip.Deflate.Tables
import RustyRapidgzip.Lib.Bits
import RustyRapidgzip.Lib.Canonical
import RustyRapidgzip.Lib.Lz
import Mathlib.Data.List.Infix

/-!
# The reference decoder

The format itself, one bit at a time over the list of the remaining bits. A block
is read into literals and copies without looking at any output; `Lz.expand` then
gives the tokens their meaning after a history. `room` is how many bits must be
left when an end-of-block code is read. The format asks for none, while some
decoders read ahead.
-/

namespace RustyRapidgzip

open LsbBits Canonical Lz

namespace Reference

/-- The next `n` bits, least significant first. -/
def readBits (n : ℕ) (bs : List Bool) : Option (ℕ × List Bool) :=
  if n ≤ bs.length then some (ofLsb (bs.take n), bs.drop n) else none

/-- Skip to the next byte boundary; streams are whole bytes long. -/
def alignBits (bs : List Bool) : List Bool := bs.drop (bs.length % 8)

/-- The next `n` bytes. -/
def readBytes : ℕ → List Bool → Option (List UInt8 × List Bool)
  | 0, bs => some ([], bs)
  | n + 1, bs => do
    let (b, bs) ← readBits 8 bs
    let (data, bs) ← readBytes n bs
    some (UInt8.ofNat b :: data, bs)

/-- The meaning of a literal/length symbol. -/
inductive LitLen where
  | literal (b : UInt8)
  | endOfBlock
  | length (base extra : ℕ)
  | reserved
  deriving DecidableEq, Repr

/-- What a literal/length symbol means. -/
def litLen (sym : ℕ) : LitLen :=
  if sym < 256 then .literal (UInt8.ofNat sym)
  else if sym = 256 then .endOfBlock
  else if sym ≤ 285 then .length (LENGTH_BASE.getD (sym - 257) 0) (LENGTH_EXTRA.getD (sym - 257) 0)
  else .reserved

/-- The base and the number of extra bits of a distance symbol that is not reserved. -/
def distance (sym : ℕ) : Option (ℕ × ℕ) :=
  if sym ≤ 29 then some (DISTANCE_BASE.getD sym 0, DISTANCE_EXTRA.getD sym 0) else none

/-- The distance part of a copy. -/
def readDistance (dist : List ℕ) (bs : List Bool) : Option (ℕ × List Bool) := do
  let (sym, bs) ← decode dist 15 bs
  let (base, extra) ← distance sym
  let (e, bs) ← readBits extra bs
  some (base + e, bs)

/-- One token, or `none` in its place at the end of the block. -/
def readToken (lit dist : List ℕ) (bs : List Bool) : Option (Option Token × List Bool) := do
  let (sym, bs) ← decode lit 15 bs
  match litLen sym with
  | .literal b => some (some (.lit b), bs)
  | .endOfBlock => some (none, bs)
  | .length base extra => do
    let (e, bs) ← readBits extra bs
    let (d, bs) ← readDistance dist bs
    some (some (.copy (base + e) d), bs)
  | .reserved => none

/-- The tokens of a compressed block. -/
inductive Body (room : ℕ) (lit dist : List ℕ) : List Bool → List Token → List Bool → Prop
  | stop {bs rest : List Bool} (htoken : readToken lit dist bs = some (none, rest))
      (hroom : room ≤ bs.length) : Body room lit dist bs [] rest
  | next {bs mid rest : List Bool} {t : Token} {ts : List Token}
      (htoken : readToken lit dist bs = some (some t, mid))
      (htail : Body room lit dist mid ts rest) :
      Body room lit dist bs (t :: ts) rest

/-- The code lengths after one more code-length symbol: a length, or a repetition. -/
def addLengths (total : ℕ) (lens : List ℕ) (sym : ℕ) (bs : List Bool) :
    Option (List ℕ × List Bool) :=
  let repeated (n k v : ℕ) : Option (List ℕ × List Bool) := do
    let (m, bs) ← readBits n bs
    if lens.length + (m + k) ≤ total then some (lens ++ List.replicate (m + k) v, bs) else none
  if sym ≤ 15 then some (lens ++ [sym], bs)
  else if sym = 16 then lens.getLast?.bind (repeated 2 3)
  else if sym = 17 then repeated 3 3 0
  else if sym = 18 then repeated 7 11 0
  else none

/-- Read code lengths until there are `total`; each round adds one or more. -/
def readLengths (cl : List ℕ) (total : ℕ) : ℕ → List ℕ → List Bool → Option (List ℕ × List Bool)
  | 0, _, _ => none
  | rounds + 1, lens, bs =>
    if lens.length < total then do
      let (sym, bs) ← decode cl 15 bs
      let (lens, bs) ← addLengths total lens sym bs
      readLengths cl total rounds lens bs
    else some (lens, bs)

/-- The lengths of the code-length code, three bits each, in their sending order. -/
def readClLengths : List ℕ → List ℕ → List Bool → Option (List ℕ × List Bool)
  | [], lens, bs => some (lens, bs)
  | i :: order, lens, bs => do
    let (l, bs) ← readBits 3 bs
    readClLengths order (lens.set i l) bs

/-- Code lengths that form a prefix code of at most 15 bits. -/
def PrefixCode (lens : List ℕ) : Prop := (∀ l ∈ lens, l ≤ 15) ∧ Kraft lens 15

/-- Whether lengths are those of a prefix code can be decided. -/
instance (lens : List ℕ) : Decidable (PrefixCode lens) := inferInstanceAs (Decidable (_ ∧ _))

/-- The code lengths of a dynamic block. -/
def readTrees (bs : List Bool) : Option ((List ℕ × List ℕ) × List Bool) := do
  let (hlit, bs) ← readBits 5 bs
  let (hdist, bs) ← readBits 5 bs
  let (hclen, bs) ← readBits 4 bs
  if hlit + 257 ≤ 286 ∧ hdist + 1 ≤ 30 then do
    let (cl, bs) ← readClLengths (CODE_LENGTH_ORDER.take (hclen + 4)) (List.replicate 19 0) bs
    if PrefixCode cl then do
      let total := hlit + 257 + (hdist + 1)
      let (lens, bs) ← readLengths cl total (total + 1) [] bs
      let lit := lens.take (hlit + 257)
      let dist := lens.drop (hlit + 257)
      if lens.getD 256 0 ≠ 0 ∧ PrefixCode lit ∧ PrefixCode dist then some ((lit, dist), bs)
      else none
    else none
  else none

/-- The code lengths of a compressed block of the given type. -/
def readCodes (btype : ℕ) (bs : List Bool) : Option ((List ℕ × List ℕ) × List Bool) :=
  if btype = 1 then some ((fixedLiteralLengths, fixedDistanceLengths), bs)
  else if btype = 2 then readTrees bs
  else none

/-- The data of a stored block. -/
def readStored (bs : List Bool) : Option (List UInt8 × List Bool) := do
  let (len, bs) ← readBits 16 (alignBits bs)
  let (nlen, bs) ← readBits 16 bs
  if len + nlen = 65535 then readBytes len bs else none

/-- One block: whether it is the final one, its tokens and what follows it. -/
inductive Block (room : ℕ) : List Bool → Bool → List Token → List Bool → Prop
  | stored {bs bs₁ bs₂ rest : List Bool} {bfinal : ℕ} {data : List UInt8}
      (hfinal : readBits 1 bs = some (bfinal, bs₁)) (htype : readBits 2 bs₁ = some (0, bs₂))
      (hdata : readStored bs₂ = some (data, rest)) :
      Block room bs (bfinal != 0) (data.map Token.lit) rest
  | compressed {bs bs₁ bs₂ bs₃ rest : List Bool} {bfinal btype : ℕ} {lit dist : List ℕ}
      {ts : List Token} (hfinal : readBits 1 bs = some (bfinal, bs₁))
      (htype : readBits 2 bs₁ = some (btype, bs₂))
      (hcodes : readCodes btype bs₂ = some ((lit, dist), bs₃))
      (hbody : Body room lit dist bs₃ ts rest) : Block room bs (bfinal != 0) ts rest

/-- Blocks up to the final one, or up to the first one after which `stop` holds. -/
inductive Blocks (room : ℕ) (stop : List Bool → Bool) :
    List Bool → Bool → List Token → List Bool → Prop
  | final {bs rest : List Bool} {ts : List Token} (hblock : Block room bs true ts rest) :
      Blocks room stop bs true ts rest
  | stop {bs rest : List Bool} {ts : List Token} (hblock : Block room bs false ts rest)
      (hstop : stop rest = true) : Blocks room stop bs false ts rest
  | more {bs mid rest : List Bool} {f : Bool} {ts us : List Token}
      (hblock : Block room bs false ts mid) (hstop : stop mid = false)
      (htail : Blocks room stop mid f us rest) : Blocks room stop bs f (ts ++ us) rest

/-- A whole deflate stream. -/
def Stream (room : ℕ) (bs : List Bool) (ts : List Token) (rest : List Bool) : Prop :=
  Blocks room (fun _ => false) bs true ts rest

/-! ## Running the reference

The same grammar as functions. Every token and every block has a bit of its own, so
the number of remaining bits bounds the rounds.
-/

/-- Read the tokens of a compressed block. -/
def readBody (lit dist : List ℕ) : ℕ → List Bool → Option (List Token × List Bool)
  | 0, _ => none
  | rounds + 1, bs => do
    let (t, bs) ← readToken lit dist bs
    match t with
    | none => some ([], bs)
    | some t => do
      let (ts, bs) ← readBody lit dist rounds bs
      some (t :: ts, bs)

/-- Read one block. -/
def readBlock (bs : List Bool) : Option ((Bool × List Token) × List Bool) := do
  let (bfinal, bs) ← readBits 1 bs
  let (btype, bs) ← readBits 2 bs
  if btype = 0 then do
    let (data, bs) ← readStored bs
    some ((bfinal != 0, data.map Token.lit), bs)
  else do
    let ((lit, dist), bs) ← readCodes btype bs
    let (ts, bs) ← readBody lit dist bs.length bs
    some ((bfinal != 0, ts), bs)

/-- Read blocks up to the final one. -/
def readStream : ℕ → List Bool → Option (List Token × List Bool)
  | 0, _ => none
  | rounds + 1, bs => do
    let ((bfinal, ts), bs) ← readBlock bs
    if bfinal then some (ts, bs)
    else do
      let (us, bs) ← readStream rounds bs
      some (ts ++ us, bs)

/-- The reference decoder: where the stream of `input` ends and what it appends to `out`. -/
def inflate (input out : List UInt8) : Option (ℕ × List UInt8) := do
  let (ts, rest) ← readStream (8 * input.length) (bits input)
  let res ← expand id out ts
  some (8 * input.length - rest.length, res.drop out.length)

/-! ## What reading consumes -/

/-- Bits that are read are the first ones. -/
theorem readBits_inv {n v : ℕ} {bs rest : List Bool} (h : readBits n bs = some (v, rest)) :
    n ≤ bs.length ∧ v = ofLsb (bs.take n) ∧ rest = bs.drop n := by
  unfold readBits at h
  split at h
  · cases h
    exact ⟨‹_›, rfl, rfl⟩
  · cases h

/-- Reading takes its bits. -/
theorem readBits_length {n v : ℕ} {bs rest : List Bool} (h : readBits n bs = some (v, rest)) :
    rest.length + n = bs.length := by
  obtain ⟨hle, -, rfl⟩ := readBits_inv h
  simp
  omega

/-- `n` bits are a number of `n` bits. -/
theorem readBits_lt {n v : ℕ} {bs rest : List Bool} (h : readBits n bs = some (v, rest)) :
    v < 2 ^ n := by
  obtain ⟨hle, rfl, -⟩ := readBits_inv h
  have := ofLsb_lt (bs.take n)
  rwa [List.length_take_of_le hle] at this

/-- A symbol takes a bit. -/
theorem decode_length {lens : List ℕ} {s : ℕ} {bs rest : List Bool}
    (h : decode lens 15 bs = some (s, rest)) : rest.length < bs.length := by
  obtain ⟨-, hpos, -, rfl⟩ := decode_some h
  rw [List.length_append, codeword_length]
  omega

end Reference

end RustyRapidgzip
