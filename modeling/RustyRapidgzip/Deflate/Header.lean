import RustyRapidgzip.Deflate.ReaderAt
import RustyRapidgzip.Deflate.Tokens

/-!
# Block headers

The parts every kernel shares: the three header bits, the code lengths of a
dynamic block and the data of a stored one. Each agrees with the reference.
-/

namespace RustyRapidgzip

open LsbBits Reference HuffmanDecoder

/-- Read the lengths of the code-length code in their sending order. -/
def readClDecoderLengths : List ℕ → List ℕ → BitReader →
    Except DeflateError (List ℕ × BitReader)
  | [], clLengths, br => .ok (clLengths, br)
  | i :: order, clLengths, br => do
    let (l, br) ← br.read 3
    readClDecoderLengths order (clLengths.set i l) br

/-- Write the lengths one code-length symbol stands for. The list holds the lengths
below `i`. -/
def writeCodeLengths (total : ℕ) (lengths : List ℕ) (sym : ℕ) (br : BitReader) :
    Except DeflateError (List ℕ × BitReader) :=
  if sym ≤ 15 then .ok (lengths ++ [sym], br)
  else if sym = 16 then
    match lengths.getLast? with
    | none => .error (.invalid "code 16 with no previous")
    | some prev => do
      let (v, br) ← br.read 2
      let n := v + 3
      if total < lengths.length + n then .error (.invalid "code 16 overruns lengths")
      else .ok (lengths ++ List.replicate n prev, br)
  else if sym = 17 then do
    let (v, br) ← br.read 3
    let n := v + 3
    if total < lengths.length + n then .error (.invalid "code 17 overruns lengths")
    else .ok (lengths ++ List.replicate n 0, br)
  else if sym = 18 then do
    let (v, br) ← br.read 7
    let n := v + 11
    if total < lengths.length + n then .error (.invalid "code 18 overruns lengths")
    else .ok (lengths ++ List.replicate n 0, br)
  else .error (.invalid "bad code-length symbol")

/-- `while i < total`, read one code-length symbol; each round writes at least one length. -/
def readCodeLengths (clDecoder : HuffmanDecoder) (total : ℕ) : ℕ → List ℕ → BitReader →
    Except DeflateError (List ℕ × BitReader)
  | 0, _, _ => .error .outOfFuel
  | rounds + 1, lengths, br =>
    if lengths.length < total then do
      let (sym, br) ← clDecoder.decode br
      let (lengths, br) ← writeCodeLengths total lengths sym br
      readCodeLengths clDecoder total rounds lengths br
    else .ok (lengths, br)

/-- Parse the header of a dynamic block. -/
def readDynamicHeader (br : BitReader) :
    Except DeflateError ((HuffmanDecoder × HuffmanDecoder) × BitReader) := do
  let (v, br) ← br.read 5
  let hlit := v + 257
  let (v, br) ← br.read 5
  let hdist := v + 1
  let (v, br) ← br.read 4
  let hclen := v + 4
  if 286 < hlit ∨ 30 < hdist then .error (.invalid "dynamic block: HLIT/HDIST out of range")
  else
    let (clLengths, br) ←
      readClDecoderLengths (CODE_LENGTH_ORDER.take hclen) (List.replicate 19 0) br
    let clDecoder ← fromLengths clLengths
    let total := hlit + hdist
    let (lengths, br) ← readCodeLengths clDecoder total (total + 1) [] br
    if lengths.getD 256 0 = 0 then .error (.invalid "EOB symbol has zero length")
    else
      let lit ← fromLengthsLitlen (lengths.take hlit)
      let dist ← fromLengthsDist (lengths.drop hlit)
      .ok ((lit, dist), br)

/-- Push `n` bytes read from the reader. -/
def pushBytes : ℕ → List UInt8 → BitReader → Except DeflateError (List UInt8 × BitReader)
  | 0, out, br => .ok (out, br)
  | n + 1, out, br => do
    let (b, br) ← br.read 8
    pushBytes n (out ++ [UInt8.ofNat b]) br

/-- Copy the data of a stored block. -/
def decodeStored (br : BitReader) (out : List UInt8) :
    Except DeflateError (List UInt8 × BitReader) := do
  let br := br.byteAlign
  let (len, br) ← br.read 16
  let (nlen, br) ← br.read 16
  if (65535 - len) ^^^ nlen ≠ 0 then .error (.invalid "stored block: LEN/NLEN mismatch")
  else pushBytes len out br

/-! ## Agreement -/

variable {input : List UInt8}

/-- Decoders that implement given code lengths. -/
def BothImplement (trees : HuffmanDecoder × HuffmanDecoder) (lens : List ℕ × List ℕ) : Prop :=
  trees.1.Implements lens.1 .litLen ∧ trees.2.Implements lens.2 .dist

/-- Building a decoder succeeds on the prefix codes. -/
theorem buildInto_cases (lens : List ℕ) (encoding : Encoding) :
    (PrefixCode lens ∧ ∃ d, buildInto lens false encoding = .ok d ∧
      d.Implements lens encoding) ∨
    (¬PrefixCode lens ∧ ∃ e, buildInto lens false encoding = .error e ∧ e ≠ .outOfFuel) := by
  by_cases h : PrefixCode lens
  · obtain ⟨d, hd⟩ := buildInto_ok h encoding
    exact Or.inl ⟨h, d, hd, (buildInto_inv hd).1⟩
  · refine Or.inr ⟨h, ?_⟩
    cases hd : buildInto lens false encoding with
    | ok d => exact absurd (buildInto_inv hd).2 h
    | error e =>
      refine ⟨e, rfl, ?_⟩
      rintro rfl
      unfold buildInto blCount at hd
      rcases countLengths_eq "huffman code length > 15" lens (fun _ => 0) with
        ⟨counts', hok, -⟩ | ⟨herr, -⟩
      · rw [hok] at hd
        simp only at hd
        split at hd
        · cases hd
        · split at hd <;> cases hd
      · rw [herr] at hd
        cases hd

/-- The lengths of the length code are read as in the reference. -/
theorem agrees_readClLengths (order lens : List ℕ) {br : BitReader} {bs : List Bool}
    (hat : br.At input bs) :
    Agrees 0 input Eq (readClDecoderLengths order lens br) (readClLengths order lens bs) := by
  induction order generalizing lens br bs with
  | nil => exact Agrees.pure rfl hat
  | cons i order ih =>
    apply Agrees.bindExact (hat.agrees_read (by decide))
    rintro l _ br' rest rfl hat' -
    exact ih _ hat'

/-- A code-length symbol is read as in the reference. -/
theorem agrees_writeCodeLengths (total : ℕ) (lens : List ℕ) (sym : ℕ) {br : BitReader}
    {bs : List Bool} (hat : br.At input bs) :
    Agrees 0 input Eq (writeCodeLengths total lens sym br) (addLengths total lens sym bs) := by
  have hrepeat (n k v : ℕ) (msg : String) (hn : n ≤ 56) : Agrees 0 input Eq
      (br.read n >>= fun r =>
        if total < lens.length + (r.1 + k) then .error (.invalid msg)
        else .ok (lens ++ List.replicate (r.1 + k) v, r.2))
      (readBits n bs >>= fun r =>
        if lens.length + (r.1 + k) ≤ total then some (lens ++ List.replicate (r.1 + k) v, r.2)
        else none) := by
    apply Agrees.bindExact (hat.agrees_read hn)
    rintro v _ br' rest rfl hat' -
    by_cases hle : lens.length + (v + k) ≤ total
    · simp only [if_neg (by omega : ¬total < lens.length + (v + k)), if_pos hle]
      exact Agrees.pure rfl hat'
    · simp only [if_pos (by omega : total < lens.length + (v + k)), if_neg hle]
      exact Agrees.fail (by simp)
  unfold writeCodeLengths
  simp only [addLengths]
  by_cases h15 : sym ≤ 15
  · rw [if_pos h15, if_pos h15]
    exact Agrees.pure rfl hat
  rw [if_neg h15, if_neg h15]
  by_cases h16 : sym = 16
  · rw [if_pos h16, if_pos h16]
    cases hlast : lens.getLast? with
    | none => exact Agrees.fail (by simp)
    | some prev => exact hrepeat 2 3 prev _ (by decide)
  rw [if_neg h16, if_neg h16]
  by_cases h17 : sym = 17
  · rw [if_pos h17, if_pos h17]
    exact hrepeat 3 3 0 _ (by decide)
  rw [if_neg h17, if_neg h17]
  by_cases h18 : sym = 18
  · rw [if_pos h18, if_pos h18]
    exact hrepeat 7 11 0 _ (by decide)
  · rw [if_neg h18, if_neg h18]
    exact Agrees.fail (by simp)

/-- The code lengths of a dynamic header agree where 15 bits follow them. -/
theorem agrees_readCodeLengths {cl : List ℕ} {clDecoder : HuffmanDecoder}
    (hcl : clDecoder.Implements cl .simple) {total rounds : ℕ} {lens : List ℕ}
    (hle : lens.length ≤ total) (hrounds : total < lens.length + rounds) {br : BitReader}
    {bs : List Bool} (hat : br.At input bs) :
    Agrees 15 input Eq (readCodeLengths clDecoder total rounds lens br)
      (readLengths cl total rounds lens bs) := by
  induction rounds generalizing lens br bs with
  | zero => omega
  | succ rounds ih =>
    rw [readCodeLengths, readLengths]
    by_cases hlt : lens.length < total
    · rw [if_pos hlt, if_pos hlt]
      refine Agrees.bind (hcl.agrees_decode hat) ?_ ?_
      · intro sym mid lens' rest h
        obtain ⟨⟨lens₁, mid₁⟩, hadd, h⟩ := Option.bind_eq_some_iff.mp h
        have h₁ := (addLengths_length hadd).1
        have h₂ := readLengths_length h
        omega
      · rintro sym _ br' mid rfl hat' -
        apply Agrees.bindExact (agrees_writeCodeLengths total lens sym hat')
        rintro lens₁ _ br'' mid₁ rfl hat'' hadd
        obtain ⟨-, hgrow, hbound⟩ := addLengths_length hadd
        exact ih (hbound hlt) (by omega) hat''
    · rw [if_neg hlt, if_neg hlt]
      exact Agrees.pure rfl hat

/-- The two decoders built from a dynamic header's lengths. -/
theorem agrees_buildBoth (lit dist : List ℕ) (eob : ℕ) {br : BitReader} {bs : List Bool}
    (hat : br.At input bs) :
    Agrees 15 input BothImplement
      (if eob = 0 then .error (.invalid "EOB symbol has zero length")
      else do
        let l ← fromLengthsLitlen lit
        let d ← fromLengthsDist dist
        .ok ((l, d), br))
      (if eob ≠ 0 ∧ PrefixCode lit ∧ PrefixCode dist then some ((lit, dist), bs)
        else none) := by
  by_cases heob : eob = 0
  · rw [if_pos heob, if_neg (by simp [heob])]
    exact Agrees.fail (by simp)
  rw [if_neg heob]
  rcases buildInto_cases lit .litLen with ⟨hlit, l, hl, hl'⟩ | ⟨hlit, e, hl, he⟩
  · rcases buildInto_cases dist .dist with ⟨hdist, d, hd, hd'⟩ | ⟨hdist, e, hd, he⟩
    · rw [fromLengthsLitlen, hl, fromLengthsDist, hd, if_pos ⟨heob, hlit, hdist⟩]
      exact Agrees.pure ⟨hl', hd'⟩ hat
    · rw [fromLengthsLitlen, hl, fromLengthsDist, hd, if_neg (by simp [hdist])]
      exact Agrees.fail he
  · rw [fromLengthsLitlen, hl, if_neg (by simp [hlit])]
    exact Agrees.fail he

/-- A dynamic header is accepted with the reference's code lengths, and where 15 bits
follow it, whenever the reference accepts it. -/
theorem agrees_readDynamicHeader {br : BitReader} {bs : List Bool} (hat : br.At input bs) :
    Agrees 15 input BothImplement (readDynamicHeader br) (readTrees bs) := by
  unfold readDynamicHeader readTrees
  apply Agrees.bindExact (hat.agrees_read (n := 5) (by decide))
  rintro hlit _ br₁ bs₁ rfl hat₁ -
  apply Agrees.bindExact (hat₁.agrees_read (n := 5) (by decide))
  rintro hdist _ br₂ bs₂ rfl hat₂ -
  apply Agrees.bindExact (hat₂.agrees_read (n := 4) (by decide))
  rintro hclen _ br₃ bs₃ rfl hat₃ -
  simp only
  by_cases hrange : hlit + 257 ≤ 286 ∧ hdist + 1 ≤ 30
  · rw [if_neg (by omega), if_pos hrange]
    apply Agrees.bindExact (agrees_readClLengths _ _ hat₃)
    rintro cl _ br₄ bs₄ rfl hat₄ -
    simp only
    rcases buildInto_cases cl .simple with ⟨hcl, d, hd, himpl⟩ | ⟨hcl, e, hd, he⟩
    · rw [fromLengths, hd, if_pos hcl]
      refine Agrees.bind (agrees_readCodeLengths himpl (Nat.zero_le _) (by simp) hat₄) ?_ ?_
      · intro lens bs₅ trees rest h
        simp only [Option.ite_none_right_eq_some, Option.some.injEq, Prod.mk.injEq] at h
        rw [h.2.2]
      · rintro lens _ br₅ bs₅ rfl hat₅ -
        exact agrees_buildBoth _ _ _ hat₅
    · rw [fromLengths, hd, if_neg hcl]
      exact Agrees.fail he
  · rw [if_pos (by omega), if_neg hrange]
    exact Agrees.fail (by simp)

/-- The pushed bytes are the next bytes of the stream. -/
theorem agrees_pushBytes (n : ℕ) (out : List UInt8) {br : BitReader} {bs : List Bool}
    (hat : br.At input bs) :
    Agrees 0 input (fun out' data => out' = out ++ data) (pushBytes n out br)
      (readBytes n bs) := by
  induction n generalizing out br bs with
  | zero => exact Agrees.pure (by simp) hat
  | succ n ih =>
    apply Agrees.bindExact (hat.agrees_read (n := 8) (by decide))
    rintro b _ br' rest rfl hat' -
    refine (ih (out ++ [UInt8.ofNat b]) hat').mapRef ?_
    rintro out' data rfl
    simp

/-- A complemented length has no bit in common with the length. -/
theorem complement_iff {len : ℕ} (nlen : ℕ) (hlen : len < 2 ^ 16) :
    (65535 - len) ^^^ nlen = 0 ↔ len + nlen = 65535 := by
  rw [Nat.xor_eq_zero_iff]
  omega

/-- A stored block appends the reference's data. -/
theorem agrees_decodeStored (out : List UInt8) {br : BitReader} {bs : List Bool}
    (hat : br.At input bs) :
    Agrees 0 input (fun out' data => out' = out ++ data) (decodeStored br out)
      (readStored bs) := by
  unfold decodeStored readStored
  apply Agrees.bindExact (hat.byteAlign.agrees_read (n := 16) (by decide))
  rintro len _ br₁ bs₁ rfl hat₁ hlen
  apply Agrees.bindExact (hat₁.agrees_read (n := 16) (by decide))
  rintro nlen _ br₂ bs₂ rfl hat₂ -
  have hiff := complement_iff nlen (readBits_lt hlen)
  simp only
  by_cases hsum : len + nlen = 65535
  · rw [if_neg (not_not.mpr (hiff.mpr hsum)), if_pos hsum]
    exact agrees_pushBytes len out hat₂
  · rw [if_pos (fun h => hsum (hiff.mp h)), if_neg hsum]
    exact Agrees.fail (by simp)

end RustyRapidgzip
