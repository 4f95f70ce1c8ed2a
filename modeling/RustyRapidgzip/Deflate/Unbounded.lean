import RustyRapidgzip.Deflate.FastInflate

/-!
# The preload decoder over an unbounded output

The symbol loop loads the next table entry before it acts on the current symbol. It
stays in a run of literals while they last and refills only when the word runs low,
so it may end a block closer to the end of the input than the other kernels. Its output is a
list here, which never runs out of room: what the kernel does as long as no store leaves its
vector.
-/

namespace RustyRapidgzip

open LsbBits Reference HuffmanDecoder Lz

namespace Unbounded

/-- The fewest valid bits with which a run of literals goes on. -/
def LIT_GUARD : ℕ := 15

/-- The symbol loop stands at its top, or holds a loaded entry. -/
structure State where
  loaded : Option ℕ
  out : List UInt8
  br : BitReader

/-- Check a distance and copy, off the fast path. -/
def resolve (out : List UInt8) (distance length : ℕ) : Except DeflateError (List UInt8) :=
  if distance = 0 ∨ out.length < distance then
    .error (.invalid "back-reference distance out of bounds")
  else .ok (copyBackRaw out distance length)

/-- Refill, then read a distance and copy. -/
def decodeDistanceAndCopy (dist : HuffmanDecoder) (length : ℕ) (out : List UInt8)
    (br : BitReader) : Except DeflateError (List UInt8 × BitReader) :=
  match br.refillKernel with
  | .error e => .error e
  | .ok br => copyMatch resolve dist length out br

/-- Act on a symbol whose code did not fit the table. -/
def longSymbol (dist : HuffmanDecoder) (e : ℕ) (out : List UInt8) (br : BitReader) :
    Except DeflateError (State ⊕ (List UInt8 × BitReader)) :=
  if e &&& HUFFDEC_LITERAL ≠ 0 then .ok (.inl ⟨none, out ++ [UInt8.ofNat (e >>> 16)], br⟩)
  else if e &&& HUFFDEC_EXCEPTIONAL ≠ 0 then
    if e >>> 16 = 0 then .ok (.inr (out, br))
    else .error (.invalid "literal/length symbol out of range")
  else
    match (if 0 < (e >>> 8) &&& 0x1f then br.refillKernel else .ok br) with
    | .error e => .error e
    | .ok br =>
      let (length, br) := lengthOf e br
      match decodeDistanceAndCopy dist length out br with
      | .error e => .error e
      | .ok (out, br) => .ok (.inl ⟨none, out, br⟩)

/-- Act on a loaded entry that is neither a literal nor empty. -/
def shortSymbol (dist : HuffmanDecoder) (entry : ℕ) (out : List UInt8) (br : BitReader) :
    Except DeflateError (State ⊕ (List UInt8 × BitReader)) :=
  let br := br.consume (entry &&& 0xff)
  if entry &&& HUFFDEC_EXCEPTIONAL ≠ 0 then
    if entry >>> 16 = 0 then .ok (.inr (out, br))
    else .error (.invalid "literal/length symbol out of range")
  else
    let (length, br) := lengthOf entry br
    match (if br.bits < 28 then br.refillKernel else .ok br) with
    | .error e => .error e
    | .ok br =>
      match copyMatch FastInflate.resolve dist length out br with
      | .error e => .error e
      | .ok (out, br) => .ok (.inl ⟨none, out, br⟩)

/-- One step of the symbol loop: load an entry at the top, or act on the loaded one. -/
def round (lit dist : HuffmanDecoder) (s : State) :
    Except DeflateError (State ⊕ (List UInt8 × BitReader)) :=
  match s.loaded with
  | none =>
    match s.br.refillKernel with
    | .error e => .error e
    | .ok br => .ok (.inl ⟨some (lit.lut (br.peekBitsUnchecked LUT_BITS)), s.out, br⟩)
  | some entry =>
    if entry &&& HUFFDEC_LITERAL ≠ 0 then
      let br := s.br.consume (entry &&& 0xff)
      match (if br.bits < LIT_GUARD then br.refillKernel else .ok br) with
      | .error e => .error e
      | .ok br => .ok (.inl ⟨some (lit.lut (br.peekBitsUnchecked LUT_BITS)),
          s.out ++ [UInt8.ofNat (entry >>> 16)], br⟩)
    else if entry &&& 0xff = 0 then
      match lit.lookupLong s.br with
      | .error e => .error e
      | .ok (e, br) => longSymbol dist e s.out br
    else shortSymbol dist entry s.out s.br

/-- The symbol loop. Every second step consumes a bit, which bounds the steps. -/
def decodeCompressedPreload : Compressed UInt8 := fun lit dist out br =>
  Loop.iterate .outOfFuel (round lit dist) (2 * (8 * br.input.length) + 2) ⟨none, out, br⟩

/-- Decode one block. -/
def decodeOneBlockPreload (out : List UInt8) (br : BitReader) :
    Except DeflateError ((Bool × List UInt8) × BitReader) :=
  blockWith decodeCompressedPreload out br

/-- Decode from a bit position up to the final block, or up to the first block that
ends at or after the hint. The result is the end bit, the flag and the output. -/
def decodeMemberU8Preload (input : List UInt8) (startBit endBitHint : ℕ) (out : List UInt8) :
    Except DeflateError ((ℕ × Bool) × List UInt8) :=
  memberWith decodeOneBlockPreload input startBit endBitHint out

/-- A match is the copy behind the output. -/
theorem resolves_resolve : Resolves Eq Eq resolve := by
  rintro out _ d n rfl hbounds
  obtain ⟨-, -, hpos, -⟩ := hbounds
  unfold resolve
  by_cases hle : d ≤ out.length
  · refine Or.inl ⟨hle, _, ?_, rfl⟩
    rw [if_neg (by omega), copyBackRaw_eq hpos hle]
  · exact Or.inr ⟨by omega, _, if_pos (by omega), by simp⟩

/-! ## The steps follow the tokens -/

/-- The bits and the output a state stands for. A loaded entry is the one under the next
ten bits, and the word holds any short symbol with its extra bits. -/
structure Inv (input : List UInt8) (lit : HuffmanDecoder) (s : State) (bs : List Bool)
    (out : List UInt8) : Prop where
  out_eq : s.out = out
  at_bits : s.br.At input bs
  loaded : ∀ entry, s.loaded = some entry →
    LIT_GUARD ≤ s.br.bits ∧ entry = lit.lut (ofLsb (bs.take LUT_BITS))

/-- The remaining bits, counting the step that loads an entry. -/
def measure (s : State) (bs : List Bool) : ℕ :=
  2 * bs.length + if s.loaded = none then 1 else 0

section Rounds

variable {input : List UInt8} {lit dist : HuffmanDecoder} {lits dists : List ℕ} {br : BitReader}
  {bs rest : List Bool}

/-- What the loop's steps are shown to do. -/
abbrev Follows (input : List UInt8) (lit : HuffmanDecoder) (lits dists : List ℕ) (bound : ℕ)
    (bs : List Bool) (out : List UInt8) :
    Except DeflateError (State ⊕ (List UInt8 × BitReader)) → Prop :=
  RoundFollows 0 48 lits dists id (Inv input lit) (Stands Eq input) measure bound bs out

/-- The top of the loop refills and loads. -/
theorem follows_load (out : List UInt8) (hat : br.At input bs) :
    Follows input lit lits dists (measure ⟨none, out, br⟩ bs) bs out
      (round lit dist ⟨none, out, br⟩) := by
  unfold round
  simp only
  rcases hat.refillKernel with ⟨-, br₁, hok, hat₁, hbits₁⟩ | ⟨hlt, herr⟩
  · simp only [hok]
    refine ⟨[], bs, out, .nil, rfl, ⟨rfl, hat₁, ?_⟩, by simp [measure]⟩
    rintro entry ⟨⟩
    exact ⟨Nat.le_trans (by decide) hbits₁, by
      rw [hat₁.peek_eq (Nat.le_trans (by decide) hbits₁)]⟩
  · simp only [herr]
    refine ⟨by simp, fun r res hdec => ?_⟩
    have := hdec.room_le
    omega

/-- A literal of the run. -/
theorem follows_literal (hlen : lits.length ≤ 288) (hlit : lit.Implements lits .litLen)
    (out : List UInt8) {entry : ℕ} (hinv : Inv input lit ⟨some entry, out, br⟩ bs out)
    (hliteral : entry &&& HUFFDEC_LITERAL ≠ 0) :
    Follows input lit lits dists (measure ⟨some entry, out, br⟩ bs) bs out
      (round lit dist ⟨some entry, out, br⟩) := by
  obtain ⟨-, hat, hloaded⟩ := hinv
  obtain ⟨hbits, hentry⟩ := hloaded entry rfl
  simp only at hat hbits
  have hpeek := hat.peek_eq (Nat.le_trans (by decide) hbits)
  have hshort : entry &&& 0xff ≠ 0 := by
    intro hzero
    rcases hlit.lut_cases (bs) (by
      obtain ⟨p, hr, rfl⟩ := hat.reads
      have hpos := hr.pos_le
      have h10 : LUT_BITS ≤ br.bits := Nat.le_trans (by decide) hbits
      simp
      omega) with ⟨s, -, hle, hspos, hlut⟩ | ⟨-, hlut⟩
    · rw [hentry, hlut, encodeEntry_length s .litLen (Nat.le_trans hle (by decide))] at hzero
      omega
    · rw [hentry, hlut] at hliteral
      simp at hliteral
  rw [hentry, ← hpeek] at hshort
  have hliteral' := hliteral
  rw [hentry, ← hpeek] at hliteral'
  obtain ⟨mid, htoken, hat₁, -⟩ := FastInflate.peek_literal dists hlen hlit
    (hat.holds hbits) (by decide) hshort hliteral'
  rw [hpeek, ← hentry] at htoken hat₁
  have hlt := readToken_length htoken
  unfold round
  simp only [if_pos hliteral]
  rcases refillIf_cases hat₁ (c := (br.consume (entry &&& 0xff)).bits < LIT_GUARD) (n := LIT_GUARD)
    (by decide) (by omega) with ⟨br₂, hok, hat₂, hbits₂⟩ | ⟨herr, hroom⟩
  · simp only [hok]
    refine ⟨_, mid, _, Steps.single htoken, rfl, ⟨rfl, hat₂, ?_⟩, by simp [measure]; omega⟩
    rintro e ⟨⟩
    exact ⟨hbits₂, by rw [hat₂.peek_eq (Nat.le_trans (by decide) hbits₂)]⟩
  · simp only [herr]
    refine ⟨by simp, fun r res hdec => ?_⟩
    rcases hdec.cases with ⟨hstop, -⟩ | ⟨t, mid', out', htoken', -, htail⟩
    · rw [htoken] at hstop
      cases hstop
    · rw [htoken] at htoken'
      cases htoken'
      have := htail.room_le
      omega

/-- A copy read by the preload loop. -/
theorem follows_copy {resolve : List UInt8 → ℕ → ℕ → Except DeflateError (List UInt8)}
    (hresolve : Resolves Eq Eq resolve) (hdist : dist.Implements dists .dist) {bound : ℕ}
    {s base extra v : ℕ} {mid : List Bool}
    (hdec : Canonical.decode lits 15 bs = some (s, rest)) (hsym : litLen s = .length base extra)
    (hread : readBits extra rest = some (v, mid)) (hat : br.At input mid)
    (hbits : 28 ≤ br.bits) (out : List UInt8) (hbound : 2 * bs.length ≤ bound) :
    Follows input lit lits dists bound bs out
      (match copyMatch resolve dist (base + v) out br with
        | .error e => .error e
        | .ok (out, br) => .ok (.inl ⟨none, out, br⟩)) := by
  rcases copyMatch_cases (f := id) (t := out) hresolve hdist hdec hsym hread hat hbits rfl with
    ⟨out', br', t, mid', _, hok, htoken, hexpand, rfl, hat'⟩ | ⟨e, herr, he, hnone⟩
  · simp only [hok]
    have hlt := readToken_length htoken
    exact ⟨[t], mid', out', Steps.single htoken, by rw [expand_cons, hexpand]; rfl,
      ⟨rfl, hat', by simp⟩, by simp [measure]; omega⟩
  · simp only [herr]
    exact ⟨he, hnone 48⟩

/-- A symbol whose code did not fit the table. -/
theorem follows_longSymbol (hdist : dist.Implements dists .dist) {s length bound : ℕ}
    (hs : s < 2 ^ 15) (hlength : length ≤ 15)
    (hdec : Canonical.decode lits 15 bs = some (s, rest)) (hat : br.At input rest)
    (out : List UInt8) (hbound : 2 * bs.length ≤ bound) :
    Follows input lit lits dists bound bs out
      (longSymbol dist (encodeEntry s length .litLen) out br) := by
  have hentry := litLen_entry (s := s) hs hlength
  have htoken := readToken_eq dists hdec
  unfold longSymbol
  cases hsym : litLen s with
  | literal b =>
    rw [hsym] at hentry htoken
    have hlt := readToken_length htoken
    rw [if_pos hentry.1, hentry.2]
    exact ⟨_, rest, _, Steps.single htoken, rfl, ⟨rfl, hat, by simp⟩, by simp [measure]; omega⟩
  | endOfBlock =>
    rw [hsym] at hentry htoken
    rw [if_neg (not_not.mpr hentry.1), if_pos hentry.2.1, if_pos hentry.2.2]
    exact ⟨rest, out, ⟨[], .stop htoken (Nat.zero_le _), rfl⟩, rfl, hat⟩
  | reserved =>
    rw [hsym] at hentry htoken
    rw [if_neg (not_not.mpr hentry.1), if_pos hentry.2.1, if_neg hentry.2.2]
    exact ⟨by simp, fun _ _ => not_decodes_of_readToken htoken⟩
  | length base extra =>
    rw [hsym] at hentry
    obtain ⟨hlit, hexc, hbase, hextra⟩ := hentry
    obtain ⟨-, -, hextra5, -⟩ := litLen_length_bounds hsym
    rw [if_neg (not_not.mpr hlit), if_neg (not_not.mpr hexc), hextra]
    rcases refillIf_cases hat (c := 0 < extra) (n := extra) (by omega) (by omega) with
      ⟨br₁, hok, hat₁, hbits₁⟩ | ⟨herr, hroom⟩
    swap
    · simp only [herr]
      refine ⟨by simp, fun r res hdecodes => ?_⟩
      cases hread : readBits extra rest with
      | none =>
        rw [hsym] at htoken
        simp only [bind, hread, Option.bind_none] at htoken
        exact not_decodes_of_readToken htoken hdecodes
      | some q =>
        obtain ⟨v, mid⟩ := q
        have hle := readBits_length hread
        exact not_decodes_of_length hdec hsym hread (by omega) hdecodes
    simp only [hok]
    obtain ⟨v, br₂, hread, htake, hat₂, hbits₂⟩ := hat₁.takeExtra base extra hbits₁
    rw [lengthOf, hbase, hextra, htake]
    simp only [decodeDistanceAndCopy]
    rcases hat₂.refillKernel with ⟨-, br₃, hok₃, hat₃, hbits₃⟩ | ⟨hroom, herr⟩
    · simp only [hok₃]
      exact follows_copy resolves_resolve hdist hdec hsym hread hat₃ (by omega) out hbound
    · simp only [herr]
      exact ⟨by simp, fun _ _ => not_decodes_of_length hdec hsym hread hroom⟩

/-- A loaded entry that is no literal. -/
theorem follows_shortSymbol (hdist : dist.Implements dists .dist) {s bound : ℕ}
    (hs : s < 2 ^ 15) (hle : lits.getD s 0 ≤ LUT_BITS) (hpos : 0 < lits.getD s 0)
    (hdec : Canonical.decode lits 15 bs = some (s, bs.drop (lits.getD s 0)))
    (hlit : encodeEntry s (lits.getD s 0) .litLen &&& HUFFDEC_LITERAL = 0) (hat : br.At input bs)
    (hbits : LIT_GUARD ≤ br.bits) (out : List UInt8) (hbound : 2 * bs.length ≤ bound) :
    Follows input lit lits dists bound bs out
      (shortSymbol dist (encodeEntry s (lits.getD s 0) .litLen) out br) := by
  have h10 : LUT_BITS = 10 := rfl
  have h15 : LIT_GUARD = 15 := rfl
  have hentry := litLen_entry (s := s) hs (Nat.le_trans hle (by decide))
  have htoken := readToken_eq dists hdec
  obtain ⟨hat₁, hbits₁⟩ := (hat.holds hbits).consume (k := lits.getD s 0) (by omega) hpos
  unfold shortSymbol
  rw [encodeEntry_length s .litLen (Nat.le_trans hle (by decide))]
  simp only
  cases hsym : litLen s with
  | literal b =>
    rw [hsym] at hentry
    exact absurd hlit hentry.1
  | endOfBlock =>
    rw [hsym] at hentry htoken
    rw [if_pos hentry.2.1, if_pos hentry.2.2]
    exact ⟨_, out, ⟨[], .stop htoken (Nat.zero_le _), rfl⟩, rfl, hat₁⟩
  | reserved =>
    rw [hsym] at hentry htoken
    rw [if_pos hentry.2.1, if_neg hentry.2.2]
    exact ⟨by simp, fun _ _ => not_decodes_of_readToken htoken⟩
  | length base extra =>
    rw [hsym] at hentry
    obtain ⟨-, hexc, hbase, hextra⟩ := hentry
    obtain ⟨-, -, hextra5, -⟩ := litLen_length_bounds hsym
    obtain ⟨v, br₂, hread, htake, hat₂, hbits₂⟩ :=
      hat₁.takeExtra base extra (by omega)
    rw [if_neg (not_not.mpr hexc), lengthOf, hbase, hextra, htake]
    simp only
    rcases refillIf_cases hat₂ (c := br₂.bits < 28) (n := 28) (by decide) (by omega) with
      ⟨br₃, hok, hat₃, hbits₃⟩ | ⟨herr, hroom⟩
    · simp only [hok]
      exact follows_copy FastInflate.resolves_resolve hdist hdec hsym hread hat₃ hbits₃ out hbound
    · simp only [herr]
      exact ⟨by simp, fun _ _ => not_decodes_of_length hdec hsym hread hroom⟩

/-- Every step of the preload loop follows the tokens. -/
theorem follows_round (hlen : lits.length ≤ 288) (hlit : lit.Implements lits .litLen)
    (hdist : dist.Implements dists .dist) (s : State) (bs : List Bool) (out : List UInt8)
    (hinv : Inv input lit s bs out) :
    Follows input lit lits dists (measure s bs) bs out (round lit dist s) := by
  obtain ⟨loaded, _, br⟩ := s
  obtain rfl : _ = out := hinv.out_eq
  cases loaded with
  | none => exact follows_load _ hinv.at_bits
  | some entry =>
    by_cases hliteral : entry &&& HUFFDEC_LITERAL ≠ 0
    · exact follows_literal hlen hlit _ hinv hliteral
    obtain ⟨-, hat, hloaded⟩ := hinv
    obtain ⟨hbits, hentry⟩ := hloaded entry rfl
    simp only at hat hbits
    obtain ⟨p, hr, hbs⟩ := hat.reads
    have hpos := hr.pos_le
    have h10 : LUT_BITS ≤ br.bits := Nat.le_trans (by decide) hbits
    unfold round
    simp only [if_neg hliteral]
    rcases hlit.lut_cases (bs) (by rw [hbs]; simp; omega) with
      ⟨s, hdec, hle, hspos, hlut⟩ | ⟨hlong, hlut⟩
    · have hlt := (Canonical.decode_some hdec).1
      rw [hlut] at hentry
      subst hentry
      rw [if_neg (by
        rw [encodeEntry_length s .litLen (Nat.le_trans hle (by decide))]
        omega)]
      exact follows_shortSymbol hdist (by omega) hle hspos hdec (not_not.mp hliteral) hat hbits _
        (by simp [measure])
    · rw [hlut] at hentry
      subst hentry
      rw [if_pos (by simp)]
      have hlook := hlit.lookupLong_eq hr hbits (by rwa [← hbs])
      rw [← hbs] at hlook
      rw [hlook]
      cases hdec : Canonical.decode lits MAX_CODE_LEN bs with
      | none =>
        refine ⟨by simp, fun _ _ => not_decodes_of_readToken ?_⟩
        rw [readToken, show Canonical.decode lits 15 bs = none from hdec]
        rfl
      | some r =>
        obtain ⟨s, rest⟩ := r
        obtain ⟨hlt, hspos, hle, -⟩ := Canonical.decode_some hdec
        have hrest := Implements.decode_rest hdec
        have hcons := (hat.holds hbits).consume (k := lits.getD s 0) hle hspos
        rw [← hrest] at hcons
        exact follows_longSymbol hdist (by omega) hle hdec hcons.1 _ (by simp [measure])

end Rounds

/-- The preload loop decodes every block body that leaves it 48 bits, and only block
bodies. -/
theorem kernelSpec_decodeCompressedPreload : KernelSpec 0 48 id decodeCompressedPreload := by
  intro input lit dist lits dists out br bs hlen hlit hdist hat
  have hle := hat.length_le
  have hfollows : LoopFollows 0 48 lits dists id (Stands Eq input) bs out
      (decodeCompressedPreload lit dist out br) := by
    refine loopFollows_iterate (Inv input lit) measure (follows_round hlen hlit hdist)
      ⟨rfl, hat, by simp⟩ ?_
    simp only [measure, if_true]
    rw [hat.input_eq]
    omega
  revert hfollows
  cases decodeCompressedPreload lit dist out br with
  | error e => exact id
  | ok r =>
    rintro ⟨rest, res, hdec, rfl, hat'⟩
    exact ⟨rest, hdec, hat'⟩

/-- The preload block decoder decodes blocks. -/
theorem decodesBlocks_decodeOneBlockPreload : DecodesBlocks 0 48 decodeOneBlockPreload :=
  kernelSpec_decodeCompressedPreload.decodesBlocks (by decide)

end Unbounded

end RustyRapidgzip
