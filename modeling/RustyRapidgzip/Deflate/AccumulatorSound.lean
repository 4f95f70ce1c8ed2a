import RustyRapidgzip.Deflate.Accumulator

/-!
# The bit accumulator shows the stream

What the parts of the kernels do to the word, from a reader at known remaining bits: each keeps the
accumulator and leaves the bits that the next part counts on. The thresholds of the loops are what
these counts need. Runs over the blocks of an input then keep the accumulator from the first block
to the last.
-/

namespace RustyRapidgzip

open LsbBits Reference HuffmanDecoder Lz

namespace Accumulator

open Unbounded (State LIT_GUARD)

/-- All accesses are sound, and `Q` holds of what is returned. -/
abbrev Keeps {α : Type} (input : List UInt8) (x : Kernel α) (Q : α → Prop) : Prop :=
  (Monitor.each (Sound input)).Ensures () x fun a _ => Q a

section Sound

variable {input : List UInt8} {br : BitReader} {bs : List Bool} {d lit dist : HuffmanDecoder}
  {lens lits dists : List ℕ} {encoding : Encoding}

/-- A load above the valid bits agrees with whatever is there. -/
theorem testBit_load {p : ℕ} (h : br.Reads input p) {i : ℕ} (hi : i < 64) :
    (br.buf ||| (loadLeU64 input br.bytePos <<< br.bits) % 2 ^ 64).testBit i =
      bitAt input (p + i) := by
  have htell := h.acc.tell
  rw [Nat.testBit_or, Nat.testBit_mod_two_pow, decide_eq_true hi, Bool.true_and,
    Nat.testBit_shiftLeft]
  by_cases hvalid : i < br.bits
  · rw [h.acc.valid i hvalid, decide_eq_false (by omega), Bool.false_and, Bool.or_false]
  · have hload := BitReader.testBit_loadLeU64 input br.bytePos (i - br.bits) (by omega)
    rw [show 8 * br.bytePos + (i - br.bits) = p + i by omega] at hload
    rw [decide_eq_true (by omega), Bool.true_and, hload]
    cases hbit : br.buf.testBit i with
    | true => rw [h.acc.stale i hbit, Bool.or_true]
    | false => rw [Bool.false_or]

/-- A reader at a place shows the input. -/
theorem shows_of_at (hat : br.At input bs) : Shows input br := by
  obtain ⟨p, hr, -⟩ := hat.reads
  have htell := hr.acc.tell
  obtain rfl : p = 8 * br.bytePos - br.bits := by omega
  exact ⟨hr, fun i hi => testBit_load hr hi⟩

/-- A refill shows the input and leaves 48 bits or more. -/
theorem keeps_refillKernel (hat : br.At input bs) :
    Keeps input (refillKernel br) fun br' => br'.At input bs ∧ 48 ≤ br'.bits := by
  unfold refillKernel
  refine .bind (.tell hat.bits_le trivial) fun _ _ (_ : True) => ?_
  refine .bind (.lift (Q := fun br' _ => br'.At input bs ∧ 48 ≤ br'.bits) ?_) fun br' _ h => ?_
  · intro br' hok
    rcases hat.refillKernel with ⟨-, br'', hok', hat', hbits'⟩ | ⟨-, herr⟩
    · rw [hok] at hok'
      cases hok'
      exact ⟨hat', hbits'⟩
    · rw [herr] at hok
      cases hok
  · exact .bind (.tell (shows_of_at h.1) trivial) fun _ _ (_ : True) => .pure h

/-- A refill on a condition shows the input and leaves the bits that are needed. -/
theorem keeps_refillIf (hat : br.At input bs) {c : Prop} [Decidable c] {n : ℕ} (hn : n ≤ 48)
    (hbits : ¬c → n ≤ br.bits) :
    Keeps input (refillIf c br) fun br' => br'.At input bs ∧ n ≤ br'.bits := by
  unfold refillIf
  split
  · exact (keeps_refillKernel hat).mono fun br' _ h => ⟨h.1, by omega⟩
  · next hc => exact .pure ⟨hat, hbits hc⟩

/-- A found entry is the next symbol's, and the reader is behind its code. -/
def Found (input : List UInt8) (lens : List ℕ) (encoding : Encoding) (bs : List Bool) (n : ℕ)
    (r : ℕ × BitReader) : Prop :=
  ∃ s rest, Canonical.decode lens 15 bs = some (s, rest) ∧ s < lens.length ∧
    lens.getD s 0 ≤ 15 ∧ r.1 = encodeEntry s (lens.getD s 0) encoding ∧ r.2.At input rest ∧
    n ≤ r.2.bits + 15

/-- What the reference code finds stands at its place. -/
theorem found_of_ok (hat : br.At input bs) (hbits : MAX_CODE_LEN ≤ br.bits) {r : ℕ × BitReader}
    (hok : found lens encoding br (Canonical.decode lens MAX_CODE_LEN bs) = .ok r) :
    Found input lens encoding bs br.bits r := by
  cases hdec : Canonical.decode lens MAX_CODE_LEN bs with
  | none =>
    rw [hdec] at hok
    cases hok
  | some q =>
    obtain ⟨s, rest⟩ := q
    rw [hdec] at hok
    cases hok
    obtain ⟨hlt, hpos, hle, -⟩ := Canonical.decode_some hdec
    have hrest := Implements.decode_rest hdec
    obtain ⟨hat', hleft⟩ := (hat.holds le_rfl).consume
      (show lens.getD s 0 ≤ br.bits from Nat.le_trans hle hbits) hpos
    rw [← hrest] at hat'
    exact ⟨s, rest, hdec, hlt, hle, rfl, hat', Nat.le_trans hleft (Nat.add_le_add_left hle _)⟩

/-- The scan of the long codes looks at bits of the input only. -/
theorem keeps_lookupLong (h : d.Implements lens encoding) (hat : br.At input bs)
    (hbits : MAX_CODE_LEN ≤ br.bits)
    (hlong : ∀ s rest, Canonical.decode lens MAX_CODE_LEN bs = some (s, rest) →
      LUT_BITS < lens.getD s 0) :
    Keeps input (lookupLong d br) (Found input lens encoding bs br.bits) := by
  obtain ⟨p, hr, rfl⟩ := hat.reads
  have hpos := hr.pos_le
  have hfind := h.find_longCodes ((bits input).drop p) (by simp; omega) hlong
  have hresult (r : ℕ × BitReader) (hok : (lookupLong d br).result = .ok r) :
      Found input lens encoding ((bits input).drop p) br.bits r := by
    rw [result_lookupLong, h.lookupLong_eq hr hbits hlong] at hok
    exact found_of_ok hat hbits hok
  refine (Monitor.Ensures.of_result (Q := fun _ _ => True) ?_ hresult).mono fun _ _ h => h.2
  unfold lookupLong
  refine .bind (.tell hat.bits_le trivial) fun _ _ (_ : True) => ?_
  refine .bind (.lift (Q := fun r _ => r = (peekAt input p MAX_CODE_LEN, br)) ?_) ?_
  · intro r hok
    rw [peek_of_le hr hbits] at hok
    cases hok
    rfl
  rintro _ _ rfl
  refine .bind (.tell (shows_of_at hat) trivial) fun _ _ (_ : True) => ?_
  refine .bind (.tell hbits trivial) fun _ _ (_ : True) => ?_
  split
  · next c hc =>
    rw [peekAt, hfind] at hc
    obtain ⟨r, hdec, rfl⟩ := Option.map_eq_some_iff.mp hc
    obtain ⟨-, -, hle, -⟩ := Canonical.decode_some (show Canonical.decode lens MAX_CODE_LEN
      ((bits input).drop p) = some (r.1, r.2) from hdec)
    exact .bind (.tell (Nat.le_trans hle hbits) trivial) fun _ _ (_ : True) => .pure trivial
  · exact .fail _

/-- What the table holds for the next ten bits is no longer than they are. -/
theorem length_lut_le (h : d.Implements lens encoding) (hat : br.At input bs)
    (hbits : LUT_BITS ≤ br.bits) :
    d.lut (br.peekBitsUnchecked LUT_BITS) &&& 0xff ≤ LUT_BITS := by
  rw [hat.peek_eq hbits]
  rcases h.lut_cases bs (Nat.le_trans hbits hat.bits_le_length) with ⟨s, -, hle, -, hlut⟩ |
    ⟨-, hlut⟩
  · rwa [hlut, encodeEntry_length s encoding (Nat.le_trans hle (by decide))]
  · rw [hlut]
    simp

/-- A lookup looks at bits of the input only, and finds the symbol that stands there. -/
theorem keeps_lookupFilled (h : d.Implements lens encoding) (hat : br.At input bs)
    (hbits : MAX_CODE_LEN ≤ br.bits) :
    Keeps input (lookupFilled d br) (Found input lens encoding bs br.bits) := by
  have h10 : LUT_BITS ≤ br.bits := Nat.le_trans (by decide) hbits
  have hresult (r : ℕ × BitReader) (hok : (lookupFilled d br).result = .ok r) :
      Found input lens encoding bs br.bits r := by
    obtain ⟨p, hr, hbs⟩ := hat.reads
    rw [result_lookupFilled, h.lookupFilled_eq hr hbits, ← hbs] at hok
    exact found_of_ok hat hbits hok
  refine (Monitor.Ensures.of_result (Q := fun _ _ => True) ?_ hresult).mono fun _ _ h => h.2
  unfold lookupFilled
  refine .bind (.tell h10 trivial) fun _ _ (_ : True) => ?_
  simp only
  split
  · next hzero =>
    refine (keeps_lookupLong h hat hbits fun s rest hdec => ?_).mono fun _ _ _ => trivial
    rw [hat.peek_eq h10] at hzero
    rcases h.lut_cases bs (Nat.le_trans h10 hat.bits_le_length) with ⟨t, -, hle, hlt, hlut⟩ |
      ⟨hlong, -⟩
    · rw [hlut, encodeEntry_length t encoding (Nat.le_trans hle (by decide))] at hzero
      omega
    · exact hlong s rest hdec
  · have hle := length_lut_le h hat h10
    exact .bind (.tell (Nat.le_trans hle h10) trivial) fun _ _ (_ : True) => .pure trivial

/-- Extra bits that are there are read from the input. -/
theorem keeps_takeExtra (hat : br.At input bs) (base : ℕ) {extra : ℕ} (hextra : extra ≤ br.bits) :
    Keeps input (takeExtra br base extra) fun r => ∃ v,
      readBits extra bs = some (v, bs.drop extra) ∧
      r.1 = base + v ∧ r.2.At input (bs.drop extra) ∧ r.2.bits + extra = br.bits := by
  obtain ⟨v, br', hread, htake, hat', hbits'⟩ := hat.takeExtra base extra hextra
  have hresult (r : ℕ × BitReader) (hok : (takeExtra br base extra).result = .ok r) :
      ∃ v, readBits extra bs = some (v, bs.drop extra) ∧ r.1 = base + v ∧
        r.2.At input (bs.drop extra) ∧ r.2.bits + extra = br.bits := by
    rw [result_takeExtra, htake] at hok
    cases hok
    exact ⟨v, hread, rfl, hat', hbits'⟩
  refine (Monitor.Ensures.of_result (Q := fun _ _ => True) ?_ hresult).mono fun _ _ h => h.2
  unfold takeExtra
  split
  · refine .bind (.tell hextra trivial) fun _ _ (_ : True) => ?_
    exact .bind (.tell hextra trivial) fun _ _ (_ : True) => .pure trivial
  · exact .pure trivial

/-- With 28 bits in the word a distance can be read. -/
theorem keeps_distanceOf (h : dist.Implements dists .dist) (hat : br.At input bs)
    (hbits : 28 ≤ br.bits) :
    Keeps input (distanceOf dist br) fun r => (1 ≤ r.1 ∧ r.1 ≤ MAX_DISTANCE) ∧
      ∃ rest, r.2.At input rest := by
  have hresult (r : ℕ × BitReader) (hok : (distanceOf dist br).result = .ok r) :
      (1 ≤ r.1 ∧ r.1 ≤ MAX_DISTANCE) ∧ ∃ rest, r.2.At input rest := by
    rw [result_distanceOf] at hok
    obtain ⟨_, rest, href, rfl, hat'⟩ := (agrees_distanceOf h hat hbits).sound r.1 r.2 hok
    exact ⟨readDistance_bounds href, rest, hat'⟩
  refine (Monitor.Ensures.of_result (Q := fun _ _ => True) ?_ hresult).mono fun _ _ h => h.2
  unfold distanceOf
  refine .bind (keeps_lookupFilled h hat (Nat.le_trans (by decide) hbits)) ?_
  rintro ⟨dentry, br'⟩ _ ⟨s, rest, -, -, hle, rfl, hat', hleft⟩
  simp only at hat' hleft ⊢
  have hentry := dist_entry (s := s) hle
  split
  · exact .fail _
  · next hexc =>
    cases hsym : distance s with
    | none =>
      rw [hsym] at hentry
      exact absurd hentry hexc
    | some r =>
      obtain ⟨base, extra⟩ := r
      rw [hsym] at hentry
      obtain ⟨-, -, hextra⟩ := hentry
      obtain ⟨-, -, hextra13, -⟩ := distance_bounds hsym
      rw [hextra]
      exact (keeps_takeExtra hat' _ (by omega)).mono fun _ _ _ => trivial

/-- An entry that is neither a literal nor exceptional is a length. -/
theorem length_of_entry {s length : ℕ} (hs : s < 2 ^ 15) (hle : length ≤ 15)
    (hlit : encodeEntry s length .litLen &&& HUFFDEC_LITERAL = 0)
    (hexc : encodeEntry s length .litLen &&& HUFFDEC_EXCEPTIONAL = 0) :
    ∃ base extra, (encodeEntry s length .litLen >>> 16) &&& 0x1ff = base ∧
      (encodeEntry s length .litLen >>> 8) &&& 0x1f = extra ∧ 3 ≤ base ∧ extra ≤ 5 ∧
      base + (2 ^ extra - 1) ≤ 258 := by
  have hentry := litLen_entry hs hle
  cases hsym : litLen s with
  | literal b =>
    rw [hsym] at hentry
    exact absurd hlit hentry.1
  | endOfBlock =>
    rw [hsym] at hentry
    exact absurd hexc hentry.2.1
  | reserved =>
    rw [hsym] at hentry
    exact absurd hexc hentry.2.1
  | length base extra =>
    rw [hsym] at hentry
    obtain ⟨hbase, -, hextra, hmax⟩ := litLen_length_bounds hsym
    exact ⟨base, extra, hentry.2.2.1, hentry.2.2.2, hbase, hextra, hmax⟩

/-- The length of a copy is read from the input. -/
theorem keeps_lengthOf {s length : ℕ} (hs : s < 2 ^ 15) (hle : length ≤ 15)
    (hlit : encodeEntry s length .litLen &&& HUFFDEC_LITERAL = 0)
    (hexc : encodeEntry s length .litLen &&& HUFFDEC_EXCEPTIONAL = 0) (hat : br.At input bs)
    (hbits : (encodeEntry s length .litLen >>> 8) &&& 0x1f ≤ br.bits) :
    Keeps input (lengthOf (encodeEntry s length .litLen) br) fun r => (3 ≤ r.1 ∧ r.1 ≤ 258) ∧
      (∃ rest, r.2.At input rest) ∧ br.bits ≤ r.2.bits + 5 := by
  obtain ⟨base, extra, hbase, hextra, hmin, hextra5, hmax⟩ := length_of_entry hs hle hlit hexc
  unfold lengthOf
  rw [hextra] at hbits ⊢
  rw [hbase]
  refine (keeps_takeExtra hat base hbits).mono ?_
  rintro ⟨n, br'⟩ _ ⟨v, hread, rfl, hat', hleft⟩
  have hv := readBits_lt hread
  exact ⟨by simp only; omega, ⟨_, hat'⟩, by simp only at hleft ⊢; omega⟩

/-- The reader stands somewhere in the input. -/
def Stays (input : List UInt8) (br : BitReader) : Prop := ∃ bs, br.At input bs

section Kernels

variable {τ : Type} {resolve : τ → ℕ → ℕ → Except DeflateError τ} {push : τ → List UInt8 → τ}
  {out : τ} {s length n : ℕ}

/-- A copy reads its distance from the input. -/
theorem keeps_copyMatch (h : dist.Implements dists .dist) (hat : br.At input bs)
    (hbits : 28 ≤ br.bits) (length : ℕ) (out : τ) :
    Keeps input (copyMatch resolve dist length out br) fun r => Stays input r.2 := by
  unfold copyMatch
  refine .bind (keeps_distanceOf h hat hbits) ?_
  rintro ⟨distance, br'⟩ _ ⟨-, hstays⟩
  exact .bind (.lift fun _ _ => trivial) fun out' _ (_ : True) => .pure hstays

/-- A step keeps the reader in the input, whether the loop goes on or not. -/
abbrev KeepsStep (input : List UInt8) (x : Kernel ((τ × BitReader) ⊕ (τ × BitReader))) : Prop :=
  Keeps input x (Sum.elim (fun s => Stays input s.2) fun r => Stays input r.2)

/-- What follows a symbol that is no literal is read from the input. -/
theorem keeps_symbolTail (h : dist.Implements dists .dist) (hs : s < 2 ^ 15)
    (hle : length ≤ 15) (hlit : encodeEntry s length .litLen &&& HUFFDEC_LITERAL = 0)
    (hat : br.At input bs) (hbits : 33 ≤ br.bits) (out : τ) :
    KeepsStep input (symbolTail resolve dist (encodeEntry s length .litLen) out br) := by
  unfold symbolTail
  split
  · split
    · exact .pure ⟨bs, hat⟩
    · exact .fail _
  next hexc =>
  have hexc := not_not.mp hexc
  obtain ⟨base, extra, -, hextra, -, hextra5, -⟩ := length_of_entry hs hle hlit hexc
  refine .bind (keeps_lengthOf hs hle hlit hexc hat (by omega)) ?_
  rintro ⟨n, br'⟩ _ ⟨-, ⟨rest, hat'⟩, hleft⟩
  simp only at hat' hleft ⊢
  exact .bind (keeps_copyMatch h hat' (by omega) n out) fun r _ hr => .pure hr

/-- A round of `decode_compressed`. -/
theorem keeps_round (hlen : lits.length ≤ 288) (hlit : lit.Implements lits .litLen)
    (hdist : dist.Implements dists .dist) (hat : br.At input bs) :
    KeepsStep input (round push resolve lit dist (out, br)) := by
  unfold round
  refine .bind (keeps_refillKernel hat) ?_
  rintro br₁ _ ⟨hat₁, hbits₁⟩
  refine .bind (keeps_lookupFilled hlit hat₁ (Nat.le_trans (by decide) hbits₁)) ?_
  rintro ⟨entry, br₂⟩ _ ⟨s, rest, hdec, hs, hle, rfl, hat₂, hbits₂⟩
  simp only at hat₂ hbits₂ ⊢
  have h10 : LUT_BITS = 10 := rfl
  split
  · have hsecond := length_lut_le hlit hat₂ (by omega)
    refine .bind (.tell (show LUT_BITS ≤ br₂.bits by omega) trivial) fun _ _ (_ : True) => ?_
    split
    · next htwo =>
      obtain ⟨rest', -, hat₃, -⟩ := FastInflate.peek_literal dists hlen hlit
        (hat₂.holds (show LUT_BITS ≤ br₂.bits by omega)) le_rfl htwo.1 htwo.2
      refine .bind (.tell (show _ ≤ br₂.bits by omega) trivial) fun _ _ (_ : True) => ?_
      exact .pure ⟨rest', hat₃⟩
    · exact .pure ⟨rest, hat₂⟩
  · next hliteral =>
    exact keeps_symbolTail hdist (by omega) hle (not_not.mp hliteral) hat₂ (by omega) out

/-- The kernel reads its codes from the input. -/
theorem keeps_decodeCompressed (hlen : lits.length ≤ 288) (hlit : lit.Implements lits .litLen)
    (hdist : dist.Implements dists .dist) (hat : br.At input bs) :
    Keeps input (decodeCompressed push resolve lit dist out br) fun r => Stays input r.2 := by
  have hround (s : τ × BitReader) (_ : Unit) (hs : Stays input s.2) :
      KeepsStep input (round push resolve lit dist s) := by
    obtain ⟨bs, hat⟩ := hs
    exact keeps_round hlen hlit hdist hat
  exact .iterate (fun s g hs => (hround s g hs).mono fun r _ hr => by cases r <;> exact hr) _
    ⟨bs, hat⟩

end Kernels

/-! ## The preload kernel -/

section Preload

variable {out : List UInt8} {s length : ℕ}

/-- A state of the preload kernel: a loaded entry is the one under the next ten bits, and the word
holds any short symbol. -/
def Preloaded (input : List UInt8) (lit : HuffmanDecoder) (s : State) : Prop :=
  ∃ bs, Unbounded.Inv input lit s bs s.out

/-- A step of the preload kernel keeps its states, and ends a block in the input. -/
abbrev KeepsPreload (input : List UInt8) (lit : HuffmanDecoder)
    (x : Kernel (State ⊕ (List UInt8 × BitReader))) : Prop :=
  Keeps input x (Sum.elim (Preloaded input lit) fun r => Stays input r.2)

/-- A round may start with nothing loaded. -/
theorem preloaded_top (lit : HuffmanDecoder) (out : List UInt8) (hat : br.At input bs) :
    Preloaded input lit ⟨none, out, br⟩ := ⟨bs, rfl, hat, nofun⟩

/-- Loading the next entry looks at bits of the input only. -/
theorem keeps_load (lit : HuffmanDecoder) (out : List UInt8) (hat : br.At input bs)
    (hbits : LIT_GUARD ≤ br.bits) : KeepsPreload input lit (load lit out br) := by
  have h10 : LUT_BITS ≤ br.bits := Nat.le_trans (by decide) hbits
  refine .bind (.tell h10 trivial) fun _ _ (_ : True) => .pure ⟨bs, rfl, hat, ?_⟩
  rintro entry ⟨⟩
  exact ⟨hbits, by rw [hat.peek_eq h10]⟩

/-- The distance of a copy is read from the input. -/
theorem keeps_decodeDistanceAndCopy (h : dist.Implements dists .dist) (hat : br.At input bs)
    (n : ℕ) (out : List UInt8) :
    Keeps input (decodeDistanceAndCopy dist n out br) fun r => Stays input r.2 := by
  refine .bind (keeps_refillKernel hat) ?_
  rintro br' _ ⟨hat', hbits'⟩
  exact keeps_copyMatch h hat' (by omega) n out

/-- A symbol that was found among the long codes is finished from the input. -/
theorem keeps_longSymbol (lit : HuffmanDecoder) (h : dist.Implements dists .dist)
    (hs : s < 2 ^ 15) (hle : length ≤ 15) (hat : br.At input bs) (out : List UInt8) :
    KeepsPreload input lit (longSymbol dist (encodeEntry s length .litLen) out br) := by
  unfold longSymbol
  split
  · exact .pure (preloaded_top lit _ hat)
  next hliteral =>
  have hliteral := not_not.mp hliteral
  split
  · split
    · exact .pure ⟨bs, hat⟩
    · exact .fail _
  next hexc =>
  have hexc := not_not.mp hexc
  obtain ⟨base, extra, -, hextra, -, hextra5, -⟩ := length_of_entry hs hle hliteral hexc
  rw [hextra]
  refine .bind (keeps_refillIf hat (show extra ≤ 48 by omega) fun hzero => by omega) ?_
  rintro br₁ _ ⟨hat₁, hbits₁⟩
  refine .bind (keeps_lengthOf hs hle hliteral hexc hat₁ (by omega)) ?_
  rintro ⟨n, br₂⟩ _ ⟨-, ⟨rest, hat₂⟩, -⟩
  refine .bind (keeps_decodeDistanceAndCopy h hat₂ n out) ?_
  rintro ⟨out', br₃⟩ _ ⟨rest', hat₃⟩
  exact .pure (preloaded_top lit out' hat₃)

/-- A symbol that was found in the table is finished from the input. -/
theorem keeps_shortSymbol (lit : HuffmanDecoder) (h : dist.Implements dists .dist)
    (hs : s < 2 ^ 15) (hpos : 0 < length) (hle : length ≤ LUT_BITS)
    (hliteral : encodeEntry s length .litLen &&& HUFFDEC_LITERAL = 0) (hat : br.At input bs)
    (hbits : LIT_GUARD ≤ br.bits) (out : List UInt8) :
    KeepsPreload input lit (shortSymbol dist (encodeEntry s length .litLen) out br) := by
  have h10 : LUT_BITS = 10 := rfl
  have h15 : LIT_GUARD = 15 := rfl
  obtain ⟨hat₁, hbits₁⟩ := (hat.holds hbits).consume (k := length) (by omega) hpos
  unfold shortSymbol
  rw [encodeEntry_length s .litLen (by omega)]
  refine .bind (.tell (show length ≤ br.bits by omega) trivial) fun _ _ (_ : True) => ?_
  simp only
  split
  · split
    · exact .pure ⟨_, hat₁⟩
    · exact .fail _
  next hexc =>
  have hexc := not_not.mp hexc
  obtain ⟨base, extra, -, hextra, -, hextra5, -⟩ :=
    length_of_entry hs (by omega) hliteral hexc
  refine .bind (keeps_lengthOf hs (by omega) hliteral hexc hat₁ (by omega)) ?_
  rintro ⟨n, br₂⟩ _ ⟨-, ⟨rest, hat₂⟩, -⟩
  simp only at hat₂ ⊢
  refine .bind (keeps_refillIf hat₂ (n := 28) (by decide) (by omega)) ?_
  rintro br₃ _ ⟨hat₃, hbits₃⟩
  refine .bind (keeps_copyMatch h hat₃ hbits₃ n out) ?_
  rintro ⟨out', br₄⟩ _ ⟨rest', hat₄⟩
  exact .pure (preloaded_top lit out' hat₄)

/-- A step of `decode_compressed_preload`. -/
theorem keeps_preloadRound (hlen : lits.length ≤ 288) (hlit : lit.Implements lits .litLen)
    (hdist : dist.Implements dists .dist) {s : State} (hs : Preloaded input lit s) :
    KeepsPreload input lit (preloadRound lit dist s) := by
  obtain ⟨loaded, out, br⟩ := s
  obtain ⟨bs, -, hat, hloaded⟩ := hs
  unfold preloadRound
  cases loaded with
  | none =>
    refine .bind (keeps_refillKernel hat) ?_
    rintro br₁ _ ⟨hat₁, hbits₁⟩
    exact keeps_load lit out hat₁ (Nat.le_trans (by decide) hbits₁)
  | some entry =>
    obtain ⟨hbits, hentry⟩ := hloaded entry rfl
    simp only at hat hbits ⊢
    have h10 : LUT_BITS = 10 := rfl
    have h15 : LIT_GUARD = 15 := rfl
    have hwide := hat.bits_le_length
    rcases hlit.lut_cases bs (by omega) with ⟨s, hdec, hle, hpos, hlut⟩ | ⟨hlong, hlut⟩
    · have hlt := (Canonical.decode_some hdec).1
      have hlength : encodeEntry s (lits.getD s 0) .litLen &&& 0xff = lits.getD s 0 :=
        encodeEntry_length s .litLen (by omega)
      rw [hlut] at hentry
      subst hentry
      split
      · obtain ⟨hat₁, hbits₁⟩ := (hat.holds hbits).consume (by omega) hpos
        rw [hlength]
        refine .bind (.tell (show lits.getD s 0 ≤ br.bits by omega) trivial)
          fun _ _ (_ : True) => ?_
        refine .bind (keeps_refillIf hat₁ (n := LIT_GUARD) (by decide) (by omega)) ?_
        rintro br₂ _ ⟨hat₂, hbits₂⟩
        exact keeps_load lit _ hat₂ hbits₂
      next hliteral =>
      rw [if_neg (by omega)]
      exact keeps_shortSymbol lit hdist (by omega) hpos hle (not_not.mp hliteral) hat hbits out
    · rw [hlut] at hentry
      subst hentry
      rw [if_neg (by simp), if_pos (by simp)]
      refine .bind (keeps_lookupLong hlit hat hbits hlong) ?_
      rintro ⟨e, br₁⟩ _ ⟨s, rest, -, hs, hle, rfl, hat₁, -⟩
      exact keeps_longSymbol lit hdist (by omega) hle hat₁ out

/-- The preload kernel reads its codes from the input. -/
theorem keeps_decodeCompressedPreload (hlen : lits.length ≤ 288)
    (hlit : lit.Implements lits .litLen) (hdist : dist.Implements dists .dist)
    (hat : br.At input bs) :
    Keeps input (decodeCompressedPreload lit dist out br) fun r => Stays input r.2 := by
  have hround (s : State) (_ : Unit) (hs : Preloaded input lit s) :
      KeepsPreload input lit (preloadRound lit dist s) := keeps_preloadRound hlen hlit hdist hs
  exact .iterate (fun s g hs => (hround s g hs).mono fun r _ hr => by cases r <;> exact hr) _
    (preloaded_top lit out hat)

end Preload

/-! ## Runs over blocks -/

section Runs

variable {γ ω τ ρ : Type} {m : Monitor γ ω} {Inv : τ → γ → Prop} {g : γ}
  {stored : τ → BitReader → Traced ω DeflateError (τ × BitReader)}
  {kernel : HuffmanDecoder → HuffmanDecoder → τ → BitReader →
    Traced ω DeflateError (τ × BitReader)}

/-- Decoding from a reader in the input keeps an invariant of the output, and leaves the reader in
the input. -/
def Carries (m : Monitor γ ω) (Inv : τ → γ → Prop) (input : List UInt8)
    (decode : τ → BitReader → Traced ω DeflateError (τ × BitReader)) : Prop :=
  ∀ g t br bs, Inv t g → br.At input bs →
    m.Ensures g (decode t br) fun r g' => Inv r.1 g' ∧ Stays input r.2

/-- A kernel does so with the decoders of any codes that a header can carry. -/
def CarriesCodes (m : Monitor γ ω) (Inv : τ → γ → Prop) (input : List UInt8)
    (kernel : HuffmanDecoder → HuffmanDecoder → τ → BitReader →
      Traced ω DeflateError (τ × BitReader)) : Prop :=
  ∀ lit dist lits dists, lits.length ≤ 288 → lit.Implements lits .litLen →
    dist.Implements dists .dist → Carries m Inv input (kernel lit dist)

/-- The contents of a block keep what both kinds of contents keep. -/
theorem ensures_decodeContents (hstored : Carries m Inv input stored)
    (hkernel : CarriesCodes m Inv input kernel) (btype : ℕ) :
    Carries m Inv input (decodeContents stored kernel btype) := by
  intro g t br bs ht hat
  unfold decodeContents
  split
  · exact hstored g t br bs ht hat
  refine .bind (.lift (Q := fun r g' => Inv t g' ∧ ∃ lits dists rest, lits.length ≤ 288 ∧
    BothImplement r.1 (lits, dists) ∧ r.2.At input rest) fun r hok => ?_) ?_
  · obtain ⟨⟨lits, dists⟩, rest, hread, hboth, hat'⟩ :=
      (agrees_blockTrees btype hat).sound r.1 r.2 hok
    exact ⟨ht, lits, dists, rest, (readCodes_inv hread).2.2.2, hboth, hat'⟩
  · rintro ⟨⟨lit, dist⟩, br'⟩ g' ⟨ht', lits, dists, rest, hlen, ⟨hlit, hdist⟩, hat'⟩
    exact hkernel lit dist lits dists hlen hlit hdist g' t br' rest ht' hat'

/-- A block keeps what its contents keep. -/
theorem ensures_decodeOneBlock (hstored : Carries m Inv input stored)
    (hkernel : CarriesCodes m Inv input kernel) {t : τ} (ht : Inv t g) (hat : br.At input bs) :
    m.Ensures g (decodeOneBlock stored kernel t br) fun r g' =>
      Inv r.1.2 g' ∧ Stays input r.2 := by
  have hread {br : BitReader} {bs : List Bool} {n : ℕ} (hn : n ≤ 56) (hat : br.At input bs)
      (g : γ) (ht : Inv t g) :
      m.Ensures g (Traced.lift (br.read n)) fun r g' => Inv t g' ∧ Stays input r.2 := by
    refine .lift fun r hok => ⟨ht, ?_⟩
    obtain ⟨-, rest, -, -, hat'⟩ := (hat.agrees_read hn).sound r.1 r.2 hok
    exact ⟨rest, hat'⟩
  refine .bind (hread (by decide) hat g ht) ?_
  rintro ⟨bfinal, br₁⟩ g₁ ⟨ht₁, bs₁, hat₁⟩
  refine .bind (hread (by decide) hat₁ g₁ ht₁) ?_
  rintro ⟨btype, br₂⟩ g₂ ⟨ht₂, bs₂, hat₂⟩
  refine .bind (ensures_decodeContents hstored hkernel btype g₂ t br₂ bs₂ ht₂ hat₂) ?_
  rintro ⟨t', br₃⟩ g₃ h
  exact .pure h

/-- What holds at the end of a run of blocks. -/
theorem ensures_runBlocks (hstored : Carries m Inv input stored)
    (hkernel : CarriesCodes m Inv input kernel) (leave : (Bool × τ) × BitReader → Option ρ) {t : τ}
    (ht : Inv t g) (hat : br.At input bs) :
    m.Ensures g (runBlocks stored kernel leave t br) fun x g' =>
      ∃ r, leave r = some x ∧ Inv r.1.2 g' ∧ Stays input r.2 := by
  have hround (s : τ × BitReader) (g : γ) (hs : Inv s.1 g ∧ Stays input s.2) :
      m.Ensures g (do
        let r ← decodeOneBlock stored kernel s.1 s.2
        pure (next leave r)) fun x g' =>
          Sum.elim (fun s => Inv s.1 g' ∧ Stays input s.2)
            (fun x => ∃ r, leave r = some x ∧ Inv r.1.2 g' ∧ Stays input r.2) x := by
    obtain ⟨hs, bs, hat⟩ := hs
    refine .bind (ensures_decodeOneBlock hstored hkernel hs hat) fun r g' hr => .pure ?_
    unfold next
    cases hleave : leave r with
    | none => exact hr
    | some x => exact ⟨r, hleave, hr⟩
  exact .iterate hround _ ⟨ht, bs, hat⟩

/-- Blocks keep what each of them keeps. -/
theorem ensures_decodeBlocks (hstored : Carries m Inv input stored)
    (hkernel : CarriesCodes m Inv input kernel) (leave : (Bool × τ) × BitReader → Option ρ)
    (startBit : ℕ) {t : τ} (ht : Inv t g) :
    m.Ensures g (decodeBlocks stored kernel leave input startBit t) fun x g' =>
      ∃ r, leave r = some x ∧ Inv r.1.2 g' ∧ Stays input r.2 := by
  refine .bind (.lift (Q := fun br g' => Inv t g' ∧ Stays input br) fun br hok => ⟨ht, ?_⟩) ?_
  · exact ⟨_, (BitReader.at_of_seekToBit hok).2⟩
  · rintro br g' ⟨ht', bs, hat⟩
    exact ensures_runBlocks hstored hkernel leave ht' hat

end Runs

/-! ## The runs of the byte kernels -/

/-- Outputs are free. -/
abbrev Any {τ : Type} (_ : τ) (_ : Unit) : Prop := True

/-- A stored block makes no access to the accumulator. -/
theorem carries_decodeStored : Carries (Monitor.each (Sound input)) Any input
    fun out br => Traced.lift (decodeStored br out) := by
  intro _ out br bs _ hat
  refine .lift fun r hok => ⟨trivial, ?_⟩
  obtain ⟨-, rest, -, -, hat'⟩ := (agrees_decodeStored out hat).sound r.1 r.2 hok
  exact ⟨rest, hat'⟩

/-- A stored block behind a side table makes no access to the accumulator. -/
theorem carries_pushStored : Carries (Monitor.each (Sound input)) Any input
    fun t br => Traced.lift (pushStored t br) := by
  intro _ t br bs _ hat
  refine .lift fun r hok => ⟨trivial, ?_⟩
  unfold pushStored at hok
  cases hstored : decodeStored br t.bytes with
  | error e =>
    rw [hstored] at hok
    cases hok
  | ok q =>
    rw [hstored] at hok
    cases hok
    obtain ⟨-, rest, -, -, hat'⟩ := (agrees_decodeStored t.bytes hat).sound q.1 q.2 hstored
    exact ⟨rest, hat'⟩

/-- A coded block looks at bits of the input only. -/
theorem carries_decodeCompressed {τ : Type} (push : τ → List UInt8 → τ)
    (resolve : τ → ℕ → ℕ → Except DeflateError τ) :
    CarriesCodes (Monitor.each (Sound input)) Any input (decodeCompressed push resolve) := by
  intro lit dist lits dists hlen hlit hdist _ out br bs _ hat
  exact (keeps_decodeCompressed hlen hlit hdist hat).mono fun r _ hr => ⟨trivial, hr⟩

/-- A coded block of the preload kernel looks at bits of the input only. -/
theorem carries_decodeCompressedPreload :
    CarriesCodes (Monitor.each (Sound input)) Any input decodeCompressedPreload := by
  intro lit dist lits dists hlen hlit hdist _ out br bs _ hat
  exact (keeps_decodeCompressedPreload hlen hlit hdist hat).mono fun r _ hr => ⟨trivial, hr⟩

/-- The member decoder looks at bits of the input only. -/
theorem sound_decodeMemberU8 (input : List UInt8) (startBit endBitHint : ℕ) (out : List UInt8) :
    ∀ access ∈ (decodeMemberU8 input startBit endBitHint out).log, Sound input access :=
  (Monitor.accepts_each _ () _).mp (ensures_decodeBlocks carries_decodeStored
    (carries_decodeCompressed _ _) (leaveAt endBitHint) startBit trivial).1

/-- The preload decoder of members looks at bits of the input only. -/
theorem sound_decodeMemberU8Preload (input : List UInt8) (startBit endBitHint : ℕ)
    (out : List UInt8) :
    ∀ access ∈ (decodeMemberU8Preload input startBit endBitHint out).log, Sound input access :=
  (Monitor.accepts_each _ () _).mp (ensures_decodeBlocks carries_decodeStored
    carries_decodeCompressedPreload (leaveAt endBitHint) startBit trivial).1

/-- The decoder with the side table looks at bits of the input only. -/
theorem sound_decodeUntil (input : List UInt8) (startBit endBitHint : ℕ)
    (chunk : SpeculativeChunk) :
    ∀ access ∈ (decodeUntil input startBit endBitHint chunk).log, Sound input access :=
  (Monitor.accepts_each _ () _).mp (ensures_decodeBlocks carries_pushStored
    (carries_decodeCompressed _ _) (leaveAt endBitHint) startBit trivial).1

end Sound

end Accumulator

end RustyRapidgzip
