import RustyRapidgzip.Deflate.SafeInflate

/-!
# The safe decoder is right

The bitwise walk is the canonical decoder, and a word that holds all remaining bits
serves as well as a full one. So the safe decoder accepts exactly the reference's
streams, whatever follows them.
-/

namespace RustyRapidgzip

open LsbBits Canonical Reference Lz

namespace SafeInflate

/-! ## Symbols -/

variable {h : Huffman} {lens : List ℕ} {br : BitReader} {input : List UInt8} {bs : List Bool}
  {n : ℕ}

/-- A reader that is ready stands at its bits. -/
theorem Ready.at (hr : Ready br input bs n) (hle : br.bits ≤ 63) : br.At input bs := ⟨hr.1, hle⟩

/-- Consuming bits of the word. -/
theorem Ready.consume (hr : Ready br input bs n) {k : ℕ} (hk : k ≤ br.bits) :
    Ready (br.consume k) input (bs.drop k) (n - k) := by
  have hle := hr.bits_le
  obtain ⟨⟨p, hreads, rfl⟩, hbits⟩ := hr
  refine ⟨⟨p + k, hreads.consume hk, by rw [List.drop_drop]⟩, ?_⟩
  rw [BitReader.consume_bits, List.length_drop]
  omega

/-- A reader that has consumed bits is not full. -/
theorem Ready.consume_bits_le (hr : Ready br input bs n) {k : ℕ} (hk : 0 < k) :
    (br.consume k).bits ≤ 63 := by
  obtain ⟨⟨p, hreads, -⟩, -⟩ := hr
  have := hreads.acc.nbits_le
  rw [BitReader.consume_bits]
  omega

/-- The word shows the remaining bits. -/
theorem Ready.testBit (hr : Ready br input bs n) {i : ℕ} (hi : i < br.bits) :
    br.buf.testBit i = bs.getD i false := by
  obtain ⟨⟨p, hreads, rfl⟩, -⟩ := hr
  have hmask := congrArg (fun m : ℕ => m.testBit i) (hreads.acc.mask (k := i + 1) hi)
  simp only [Nat.testBit_mod_two_pow, peekAt, testBit_ofLsb, Nat.lt_succ_self, decide_true,
    Bool.true_and] at hmask
  rw [hmask, List.getD_eq_getElem?_getD, List.getD_eq_getElem?_getD, List.getElem?_take,
    if_pos (Nat.lt_succ_self i)]

/-- The low bits of the word are the next bits. -/
theorem Ready.mask (hr : Ready br input bs n) {k : ℕ} (hk : k ≤ br.bits) :
    br.buf &&& (1 <<< k - 1) = ofLsb (bs.take k) := by
  obtain ⟨⟨p, hreads, rfl⟩, -⟩ := hr
  rw [Nat.one_shiftLeft, Nat.and_two_pow_sub_one_eq_mod, hreads.acc.mask hk, peekAt]

/-- The walk follows the canonical decoder. `c` is the value of the `l` bits read so far. -/
theorem Implements.walk_cases (hi : Implements h lens) (rounds l c buf available : ℕ)
    (bs : List Bool) (hbuf : ∀ i < available, buf.testBit i = bs.getD i false)
    (hle : available ≤ bs.length) (hroom : available = bs.length ∨ rounds ≤ available)
    (hc : filled lens l ≤ c) :
    (∃ s rest n, decodeFrom lens rounds l c bs = some (s, rest) ∧ 0 < n ∧ n ≤ available ∧
      n ≤ rounds ∧ rest = bs.drop n ∧
      walk h rounds (l + 1) buf available (2 * c) (2 * filled lens l)
        (HuffmanDecoder.bucketOffset h.count (l + 1)) = .ok (s, buf >>> n, l + n)) ∨
    (decodeFrom lens rounds l c bs = none ∧
      ∃ e, walk h rounds (l + 1) buf available (2 * c) (2 * filled lens l)
        (HuffmanDecoder.bucketOffset h.count (l + 1)) = .error e ∧ e ≠ .outOfFuel) := by
  induction rounds generalizing l c buf available bs with
  | zero => exact Or.inr ⟨rfl, _, rfl, by simp⟩
  | succ rounds ih =>
    rw [walk]
    by_cases hzero : available = 0
    · obtain rfl : bs = [] := List.length_eq_zero_iff.mp (by omega)
      rw [if_pos hzero]
      exact Or.inr ⟨rfl, _, rfl, by simp⟩
    rw [if_neg hzero]
    cases bs with
    | nil => simp only [List.length_nil] at hle; omega
    | cons b bs =>
      simp only [List.length_cons] at hle hroom
      have hbit : buf &&& 1 = b.toNat := by
        have h0 := hbuf 0 (by omega)
        rw [List.getD_cons_zero] at h0
        rw [Nat.and_one_is_mod, ← h0, Nat.testBit_zero]
        rcases Nat.mod_two_eq_zero_or_one buf with h | h <;> simp [h]
      have hcode : 2 * c ||| (buf &&& 1) = 2 * c + b.toNat := by
        have hb := Bool.toNat_le b
        rw [hbit, show 2 * c = c <<< 1 by rw [Nat.shiftLeft_eq]; omega,
          ← Nat.shiftLeft_add_eq_or_of_lt (by omega)]
      have hcount : h.count (l + 1) = lens.count (l + 1) := hi.count _ (by omega)
      have hfirst : firstCode lens (l + 1) = 2 * filled lens l := rfl
      have hge : firstCode lens (l + 1) ≤ 2 * c + b.toNat := by omega
      have hsym := symbolOf_eq_getElem? hge
      simp only [hcode]
      rw [decodeFrom, hcount]
      by_cases hlt : 2 * c + b.toNat < 2 * filled lens l + lens.count (l + 1)
      · have hidx : 2 * c + b.toNat - firstCode lens (l + 1) < (ordered lens (l + 1)).length := by
          rw [ordered_length]
          omega
        rw [List.getElem?_eq_getElem hidx] at hsym
        have hs := hi.symbol (l + 1) _ (by omega) hidx
        rw [if_pos hlt, hsym]
        refine Or.inl ⟨_, bs, 1, rfl, by omega, by omega, by omega, rfl, ?_⟩
        rw [← hs, hfirst, Nat.add_sub_assoc (by omega)]
      · have hnone : symbolOf lens (l + 1) (2 * c + b.toNat) = none := by
          rw [hsym, List.getElem?_eq_none]
          rw [ordered_length]
          omega
        have hnext := ih (l + 1) (2 * c + b.toNat) (buf >>> 1) (available - 1) bs
          (fun i hi' => by
            have := hbuf (i + 1) (by omega)
            rwa [List.getD_cons_succ, Nat.add_comm, ← Nat.testBit_shiftRight] at this)
          (by omega) (by omega) (by rw [filled]; omega)
        rw [if_neg hlt, hnone]
        have hshift : (2 * c + b.toNat) <<< 1 = 2 * (2 * c + b.toNat) := by
          rw [Nat.shiftLeft_eq]
          omega
        have hfill : (2 * filled lens l + lens.count (l + 1)) <<< 1 = 2 * filled lens (l + 1) := by
          rw [filled, Nat.shiftLeft_eq]
          omega
        have hoffset : HuffmanDecoder.bucketOffset h.count (l + 1) + lens.count (l + 1) =
            HuffmanDecoder.bucketOffset h.count (l + 2) := by
          rw [HuffmanDecoder.bucketOffset, hcount]
        rw [hshift, hfill, hoffset]
        rcases hnext with ⟨s, rest, n, hdec, hpos, hn, hnr, hrest, hwalk⟩ | herr
        · refine Or.inl ⟨s, rest, n + 1, hdec, by omega, by omega, by omega, hrest, ?_⟩
          rw [hwalk, Nat.add_comm n 1, Nat.shiftRight_add, ← Nat.add_assoc]
        · exact Or.inr herr

/-- What decoding a symbol from a word of bits returns. -/
def DecodeSpec (lens : List ℕ) (br : BitReader) (bs : List Bool) :
    Except DeflateError (ℕ × BitReader) → Prop
  | .error e => e ≠ .outOfFuel ∧ Canonical.decode lens 15 bs = none
  | .ok (s, br') => ∃ k, 0 < k ∧ k ≤ 15 ∧ k ≤ br.bits ∧
      Canonical.decode lens 15 bs = some (s, bs.drop k) ∧ br' = br.consume k

/-- The scan decodes the next symbol. -/
theorem Implements.decodeShort_spec (hi : Implements h lens) (hr : Ready br input bs 15) :
    DecodeSpec lens br bs (decodeShort br h) := by
  have hwalk := hi.walk_cases MAXBITS 0 0 br.buf br.bits bs (fun i hlt => hr.testBit hlt) hr.bits_le
    (by have : MAXBITS = 15 := rfl; have := hr.2; omega) le_rfl
  unfold decodeShort
  rcases hwalk with ⟨s, rest, k, hdec, hpos, hk, hk15, rfl, hok⟩ | ⟨hdec, e, herr, he⟩
  · rw [show walk h MAXBITS 1 br.buf br.bits 0 0 0 = _ from hok]
    simp only [Nat.zero_add]
    exact ⟨k, hpos, hk15, hk, hdec, rfl⟩
  · rw [show walk h MAXBITS 1 br.buf br.bits 0 0 0 = _ from herr]
    exact ⟨he, hdec⟩

/-- A packed entry has its length and its symbol. -/
theorem lutPack_fields (s : ℕ) {len : ℕ} (hlen : len ≤ 9) :
    lutLen (lutPack s len) = len ∧ lutSym (lutPack s len) = s := by
  have hpack : lutPack s len = s * 256 + len := by
    rw [lutPack, ← Nat.shiftLeft_add_eq_or_of_lt (by omega), Nat.shiftLeft_eq]
  rw [hpack, lutLen, lutSym, show (0xff : ℕ) = 2 ^ 8 - 1 from rfl, Nat.and_two_pow_sub_one_eq_mod,
    Nat.shiftRight_eq_div_pow]
  omega

/-- An entry of the table is a symbol of the code. -/
theorem Implements.lut_spec (hi : Implements h lens) (hr : Ready br input bs n)
    (hbits : LUT_BITS ≤ br.bits)
    (hlen : lutLen (h.lut (br.buf &&& (1 <<< LUT_BITS - 1))) ≠ 0) :
    DecodeSpec lens br bs (.ok (lutSym (h.lut (br.buf &&& (1 <<< LUT_BITS - 1))),
      br.consume (lutLen (h.lut (br.buf &&& (1 <<< LUT_BITS - 1)))))) := by
  have h9 : LUT_BITS = 9 := rfl
  have hidx := hr.mask hbits
  have hlt : ofLsb (bs.take LUT_BITS) < LUT_SIZE := by
    have hbound := ofLsb_lt (bs.take LUT_BITS)
    rw [List.length_take_of_le (Nat.le_trans hbits hr.bits_le)] at hbound
    rwa [LUT_SIZE, Nat.one_shiftLeft]
  rw [hidx] at hlen ⊢
  rcases hi.lut _ hlt with hzero | ⟨s, hs, hpos, hle, hword, hentry⟩
  · rw [hzero] at hlen
    exact absurd rfl hlen
  obtain ⟨hl, hsym⟩ := lutPack_fields s (Nat.le_trans hle (by omega))
  rw [hentry, hl, hsym]
  have hpre : bs.take (lens.getD s 0) = codeword lens s := by
    have hbs := hr.bits_le
    apply ofLsb_inj
    · rw [codeword_length, List.length_take_of_le (by omega)]
    · rw [← hword, ← ofLsb_take, List.take_take, Nat.min_eq_left hle]
  refine ⟨_, hpos, by omega, by omega, ?_, rfl⟩
  have hdec := decode_codeword hi.code.2 (bs.drop (lens.getD s 0)) hs hpos (by omega)
  rwa [← hpre, List.take_append_drop] at hdec

/-- The table and the scan decode the next symbol. -/
theorem Implements.decodeBuffered_spec (hi : Implements h lens) (hr : Ready br input bs 15) :
    DecodeSpec lens br bs (decodeBuffered br h) := by
  unfold decodeBuffered
  split
  · next hbits =>
    simp only
    split
    · next hlen => exact hi.lut_spec hr hbits hlen
    · exact hi.decodeShort_spec hr
  · exact hi.decodeShort_spec hr

/-- Decoding a symbol agrees with the canonical code, whatever follows. -/
theorem Implements.agrees_decode (hi : Implements h lens) (hat : br.At input bs) :
    Agrees 0 input Eq (decode br h) (Canonical.decode lens 15 bs) := by
  obtain ⟨p, hreads, rfl⟩ := hat.reads
  have hbest := (refillBelow_ready hreads 56 le_rfl).mono (m := 15) (by decide)
  have hfollow {br' : BitReader} {m : ℕ} {res : Except DeflateError (ℕ × BitReader)}
      (hr : Ready br' input ((LsbBits.bits input).drop p) m)
      (hspec : DecodeSpec lens br' ((LsbBits.bits input).drop p) res) :
      Agrees 0 input Eq res (Canonical.decode lens 15 ((LsbBits.bits input).drop p)) := by
    cases res with
    | error e =>
      rw [hspec.2]
      exact Agrees.fail hspec.1
    | ok r =>
      obtain ⟨s, br''⟩ := r
      obtain ⟨k, hpos, -, hk, hdec, rfl⟩ := hspec
      rw [hdec]
      exact Agrees.pure rfl ((hr.consume hk).at (hr.consume_bits_le hpos))
  unfold decode
  split
  · next hbits =>
    have hready : Ready br input ((LsbBits.bits input).drop p) LUT_BITS :=
      ⟨⟨p, hreads, rfl⟩, Or.inl hbits⟩
    simp only
    split
    · next hlen => exact hfollow hready (hi.lut_spec hready hbits hlen)
    split
    · exact hfollow hbest (hi.decodeShort_spec hbest)
    · next hmax =>
      have hfull : Ready br input ((LsbBits.bits input).drop p) 15 :=
        ⟨⟨p, hreads, rfl⟩, Or.inl (by have : MAXBITS = 15 := rfl; omega)⟩
      exact hfollow hfull (hi.decodeShort_spec hfull)
  · exact hfollow hbest (hi.decodeShort_spec hbest)

/-- The extra bits of a ready reader are the next bits of the stream. -/
theorem Ready.extraBits (hr : Ready br input bs n) (base extra : ℕ) (hextra : extra ≤ n) :
    (∃ v, readBits extra bs = some (v, bs.drop extra) ∧ extra ≤ br.bits ∧
      SafeInflate.extraBits br base extra = .ok (base + v, br.consume extra)) ∨
    (readBits extra bs = none ∧ SafeInflate.extraBits br base extra = .error .unexpectedEof) := by
  have hle := hr.bits_le
  have hbits := hr.2
  unfold SafeInflate.extraBits
  by_cases hlt : br.bits < extra
  · rw [if_pos hlt]
    exact Or.inr ⟨by rw [readBits, if_neg (by omega)], rfl⟩
  · rw [if_neg hlt, hr.mask (by omega)]
    exact Or.inl ⟨_, by rw [readBits, if_pos (by omega)], by omega, rfl⟩

/-! ## Fields and stored data -/

/-- A refill finds the bits asked for, or there are none. -/
theorem refill_cases (hat : br.At input bs) {need : ℕ} (hneed : need ≤ 56) :
    (∃ br', refill br need = .ok br' ∧ Ready br' input bs need ∧ need ≤ br'.bits) ∨
    (bs.length < need ∧ refill br need = .error .unexpectedEof) := by
  have hle := hat.bits_le
  obtain ⟨p, hreads, hbs⟩ := hat.reads
  have hpos := hreads.pos_le
  unfold refill
  by_cases henough : need ≤ br.bits
  · rw [if_pos henough]
    exact Or.inl ⟨br, rfl, ⟨hat.reads, Or.inl henough⟩, henough⟩
  rw [if_neg henough]
  by_cases hwide : br.bytePos + 8 ≤ br.input.length
  · have hbits : need ≤ br.refillFast.bits := by
      rw [BitReader.refillFast_bits]
      omega
    rw [if_pos hwide]
    exact Or.inl ⟨_, rfl, ⟨⟨p, hreads.refillFast hwide, hbs⟩, Or.inl hbits⟩, hbits⟩
  · rw [if_neg hwide]
    obtain ⟨hiff, hspec⟩ := BitReader.refillSlow_spec 8 need hreads hneed (by omega)
    cases hs : BitReader.refillSlow 8 br need with
    | mk flag br' =>
      rw [hs] at hiff hspec
      cases flag with
      | true =>
        obtain ⟨hreads', hbits, -⟩ := hspec rfl
        exact Or.inl ⟨br', rfl, ⟨⟨p, hreads', hbs⟩, Or.inl hbits⟩, hbits⟩
      | false =>
        have hroom : ¬p + need ≤ 8 * input.length := fun hle' => by simpa using hiff.mpr hle'
        refine Or.inr ⟨?_, rfl⟩
        rw [hbs, List.length_drop, bits_length]
        omega

/-- Reading a field agrees with the reference. -/
theorem agrees_bits (hat : br.At input bs) (need : ℕ) (hpos : 0 < need) (hneed : need ≤ 56) :
    Agrees 0 input Eq (bits br need) (readBits need bs) := by
  unfold bits
  rcases refill_cases hat hneed with ⟨br', hok, hr, hbits⟩ | ⟨hlt, herr⟩
  · have hle := hr.bits_le
    rw [hok, readBits, if_pos (by omega)]
    exact Agrees.pure (hr.mask hbits) ((hr.consume hbits).at (hr.consume_bits_le hpos))
  · rw [herr, readBits, if_neg (by omega)]
    exact Agrees.fail (by simp)

/-- Giving back whole bytes is alignment. -/
theorem dropToByteBoundary_eq (hat : br.At input bs) :
    ∃ pos ≤ input.length, dropToByteBoundary br = ⟨input, pos, 0, 0⟩ ∧
      alignBits bs = LsbBits.bits (input.drop pos) := by
  obtain ⟨p, hreads, rfl⟩ := hat.reads
  have htell := hreads.acc.tell
  have hpos := hreads.pos_le
  have hle := hreads.acc.bytePos_le
  refine ⟨br.bytePos - br.bits / 8, by omega, by rw [dropToByteBoundary, hreads.input_eq], ?_⟩
  rw [alignBits, List.drop_drop, List.length_drop, bits_length, bits_drop]
  congr 1
  omega

/-- A reader with an empty word stands at its byte. -/
theorem at_byte {pos : ℕ} (hle : pos ≤ input.length) :
    (⟨input, pos, 0, 0⟩ : BitReader).At input (LsbBits.bits (input.drop pos)) :=
  ⟨⟨8 * pos, ⟨rfl, Accumulates.empty hle⟩, bits_drop input pos⟩, Nat.zero_le _⟩

/-- The number of the bits of some bytes. -/
theorem ofLsb_bits (bytes : List UInt8) : ofLsb (LsbBits.bits bytes) = leNat bytes := by
  apply Nat.eq_of_testBit_eq
  intro i
  rw [testBit_ofLsb, testBit_leNat]
  by_cases hi : i < 8 * bytes.length
  · rw [List.getD_eq_getElem _ _ (by simpa using hi)]
    simp [LsbBits.bits]
  · rw [List.getD_eq_default _ _ (by simpa using hi), bitAt_of_le (by omega)]

/-- The first bits of bytes are the bits of the first bytes. -/
theorem bits_take (bytes : List UInt8) {k : ℕ} (hk : k ≤ bytes.length) :
    (LsbBits.bits bytes).take (8 * k) = LsbBits.bits (bytes.take k) := by
  have happ := bits_append (bytes.take k) (bytes.drop k)
  rw [List.take_append_drop] at happ
  rw [happ, List.take_append_of_le_length (by simp [hk]), List.take_of_length_le (by simp [hk])]

/-- Whole bytes are read as a slice. -/
theorem readBits_bytes (bytes : List UInt8) (k : ℕ) :
    readBits (8 * k) (LsbBits.bits bytes) =
      if k ≤ bytes.length then some (leNat (bytes.take k), LsbBits.bits (bytes.drop k))
      else none := by
  rw [readBits, bits_length]
  by_cases hk : k ≤ bytes.length
  · rw [if_pos (by omega), if_pos hk, bits_take _ hk, ofLsb_bits, bits_drop]
  · rw [if_neg (by omega), if_neg hk]

/-- Reading bytes at a byte boundary takes the next ones. -/
theorem readBytes_bytes (bytes : List UInt8) (k : ℕ) :
    readBytes k (LsbBits.bits bytes) =
      if k ≤ bytes.length then some (bytes.take k, LsbBits.bits (bytes.drop k)) else none := by
  induction k generalizing bytes with
  | zero => simp [readBytes]
  | succ k ih =>
    have hbyte := readBits_bytes bytes 1
    rw [Nat.mul_one] at hbyte
    rw [readBytes, hbyte]
    cases bytes with
    | nil => rfl
    | cons b bytes =>
      have hone : leNat [b] = b.toNat := by simp [leNat]
      simp only [List.length_cons, Nat.le_add_left, if_true, List.take_succ_cons, List.take_zero,
        List.drop_succ_cons, List.drop_zero, hone, bind, Option.bind_some, ih,
        Nat.add_le_add_iff_right, UInt8.ofNat_toNat]
      split <;> rfl

/-- A length and its complement have every bit different. -/
theorem xor_eq_iff {len nlen : ℕ} (hlen : len < 2 ^ 16) :
    len ^^^ nlen = 0xffff ↔ len + nlen = 65535 := by
  have hcomp : len ^^^ (65535 - len) = 65535 := by
    apply Nat.eq_of_testBit_eq
    intro i
    have hsub := Nat.testBit_two_pow_sub_succ hlen i
    rw [Nat.testBit_xor, show 65535 - len = 2 ^ 16 - (len + 1) by omega, hsub,
      show (65535 : ℕ) = 2 ^ 16 - 1 from rfl, Nat.testBit_two_pow_sub_one]
    by_cases hi : i < 16
    · simp [hi]
    · have hzero : len.testBit i = false :=
        Nat.testBit_lt_two_pow
          (Nat.lt_of_lt_of_le hlen (Nat.pow_le_pow_right (by decide) (by omega)))
      simp [hi, hzero]
  constructor
  · intro h
    rw [← hcomp] at h
    have := Nat.xor_right_injective h
    omega
  · intro h
    rw [show nlen = 65535 - len by omega, hcomp]

/-- A stored block appends the reference's data. -/
theorem agrees_stored (out : List UInt8) (hat : br.At input bs) :
    Agrees 0 input (fun out' data => out' = out ++ data) (stored out br) (readStored bs) := by
  obtain ⟨pos, hle, hbyte, halign⟩ := dropToByteBoundary_eq hat
  unfold stored readStored
  rw [halign, hbyte]
  have hfield (bytes : List UInt8) : readBits 16 (LsbBits.bits bytes) = _ :=
    readBits_bytes bytes 2
  simp only [hfield, List.length_drop]
  by_cases hlen : 2 ≤ input.length - pos
  swap
  · rw [if_pos (by omega), if_neg hlen]
    exact Agrees.fail (by simp)
  rw [if_pos hlen]
  simp only [bind, Option.bind_some, hfield, List.length_drop, List.drop_drop]
  by_cases hnlen : 2 ≤ input.length - (pos + 2)
  swap
  · rw [if_pos (by omega), if_neg hnlen]
    exact Agrees.fail (by simp)
  rw [if_neg (by omega), if_pos hnlen]
  simp only [Option.bind_some]
  have hlt : leNat ((input.drop pos).take 2) < 2 ^ 16 := by
    rw [← ofLsb_bits]
    refine Nat.lt_of_lt_of_le (ofLsb_lt _) (Nat.pow_le_pow_right (by decide) ?_)
    rw [bits_length, List.length_take]
    omega
  by_cases hsum : leNat ((input.drop pos).take 2) + leNat ((input.drop (pos + 2)).take 2) = 65535
  swap
  · rw [if_pos (fun h => hsum ((xor_eq_iff hlt).mp h)), if_neg hsum]
    exact Agrees.fail (by simp)
  rw [if_neg (not_not.mpr ((xor_eq_iff hlt).mpr hsum)), if_pos hsum, readBytes_bytes,
    List.length_drop, Nat.add_assoc pos 2 2]
  generalize leNat ((input.drop pos).take 2) = len
  by_cases hroom : len ≤ input.length - (pos + 4)
  swap
  · rw [if_pos (by omega), if_neg hroom]
    exact Agrees.fail (by simp)
  rw [if_neg (by omega), if_pos hroom, List.drop_drop]
  exact Agrees.pure rfl (at_byte (by omega))

/-! ## The codes of a block -/

/-- Codes of given lengths. -/
def BothImplement (trees : Huffman × Huffman) (lens : List ℕ × List ℕ) : Prop :=
  Implements trees.1 lens.1 ∧ Implements trees.2 lens.2

/-- The lengths of the length code are read as in the reference. -/
theorem agrees_readClLengths (order lens : List ℕ) (hat : br.At input bs) :
    Agrees 0 input Eq (readClLengths order lens br) (Reference.readClLengths order lens bs) := by
  induction order generalizing lens br bs with
  | nil => exact Agrees.pure rfl hat
  | cons i order ih =>
    apply Agrees.bindExact (agrees_bits hat 3 (by decide) (by decide))
    rintro l _ br' rest rfl hat' -
    exact ih _ hat'

/-- A code-length symbol is read as in the reference. -/
theorem agrees_writeLengths (total : ℕ) (lens : List ℕ) (sym : ℕ) (hat : br.At input bs) :
    Agrees 0 input Eq (writeLengths total lens sym br) (addLengths total lens sym bs) := by
  have hrepeat (v k m : ℕ) (hm : 0 < m) (hle : m ≤ 56) : Agrees 0 input Eq
      (bits br m >>= fun r =>
        if total < lens.length + (k + r.1) then .error (.invalid "repeat overruns code lengths")
        else .ok (lens ++ List.replicate (k + r.1) v, r.2))
      (readBits m bs >>= fun r =>
        if lens.length + (r.1 + k) ≤ total then some (lens ++ List.replicate (r.1 + k) v, r.2)
        else none) := by
    apply Agrees.bindExact (agrees_bits hat m hm hle)
    rintro r _ br' rest rfl hat' -
    simp only [Nat.add_comm r k]
    by_cases hfits : lens.length + (k + r) ≤ total
    · rw [if_neg (by omega), if_pos hfits]
      exact Agrees.pure rfl hat'
    · rw [if_pos (by omega), if_neg hfits]
      exact Agrees.fail (by simp)
  unfold writeLengths
  simp only [addLengths]
  by_cases h18 : 18 < sym
  · rw [if_pos h18, if_neg (by omega), if_neg (by omega), if_neg (by omega), if_neg (by omega)]
    exact Agrees.fail (by simp)
  rw [if_neg h18]
  by_cases h15 : sym ≤ 15
  · rw [if_pos (by omega : sym < 16), if_pos h15]
    exact Agrees.pure rfl hat
  rw [if_neg (by omega : ¬sym < 16), if_neg h15]
  by_cases h16 : sym = 16
  · rw [if_pos h16, if_pos h16]
    cases hlast : lens.getLast? with
    | none => exact Agrees.fail (by simp)
    | some prev => exact hrepeat prev 3 2 (by decide) (by decide)
  rw [if_neg h16, if_neg h16]
  by_cases h17 : sym = 17
  · rw [if_pos h17, if_pos h17]
    exact hrepeat 0 3 3 (by decide) (by decide)
  rw [if_neg h17, if_neg h17, if_pos (by omega)]
  exact hrepeat 0 11 7 (by decide) (by decide)

/-- The code lengths are read as in the reference. -/
theorem agrees_readLengths {cl : List ℕ} {lc : Huffman} (hcl : Implements lc cl)
    {total rounds : ℕ} {lens : List ℕ} (hle : lens.length ≤ total)
    (hrounds : total < lens.length + rounds) (hat : br.At input bs) :
    Agrees 0 input Eq (readLengths lc total rounds lens br)
      (Reference.readLengths cl total rounds lens bs) := by
  induction rounds generalizing lens br bs with
  | zero => omega
  | succ rounds ih =>
    rw [readLengths, Reference.readLengths]
    by_cases hlt : lens.length < total
    · rw [if_pos hlt, if_pos hlt]
      apply Agrees.bindExact (hcl.agrees_decode hat)
      rintro sym _ br' mid rfl hat' -
      apply Agrees.bindExact (agrees_writeLengths total lens sym hat')
      rintro lens₁ _ br'' mid₁ rfl hat'' hadd
      obtain ⟨-, hgrow, hbound⟩ := addLengths_length hadd
      exact ih (hbound hlt) (by omega) hat''
    · rw [if_neg hlt, if_neg hlt]
      exact Agrees.pure rfl hat

/-- The two codes built from a dynamic header's lengths. -/
theorem agrees_constructBoth (lit dist : List ℕ) (eob : ℕ) (hat : br.At input bs) :
    Agrees 0 input BothImplement
      (if eob = 0 then .error (.invalid "EOB symbol has zero length")
      else do
        let lc ← construct lit
        let dc ← construct dist
        .ok ((lc, dc), br))
      (if eob ≠ 0 ∧ PrefixCode lit ∧ PrefixCode dist then some ((lit, dist), bs)
        else none) := by
  by_cases heob : eob = 0
  · rw [if_pos heob, if_neg (by simp [heob])]
    exact Agrees.fail (by simp)
  rw [if_neg heob]
  rcases construct_cases lit with ⟨hlit, l, hl, hl'⟩ | ⟨hlit, e, hl, he⟩
  · rcases construct_cases dist with ⟨hdist, d, hd, hd'⟩ | ⟨hdist, e, hd, he⟩
    · rw [hl, hd, if_pos ⟨heob, hlit, hdist⟩]
      exact Agrees.pure ⟨hl', hd'⟩ hat
    · rw [hl, hd, if_neg (by simp [hdist])]
      exact Agrees.fail he
  · rw [hl, if_neg (by simp [hlit])]
    exact Agrees.fail he

/-- A dynamic header is accepted exactly where the reference accepts it. -/
theorem agrees_dynamicCodes (hat : br.At input bs) :
    Agrees 0 input BothImplement (dynamicCodes br) (readTrees bs) := by
  unfold dynamicCodes readTrees
  apply Agrees.bindExact (agrees_bits hat 5 (by decide) (by decide))
  rintro hlit _ br₁ bs₁ rfl hat₁ -
  apply Agrees.bindExact (agrees_bits hat₁ 5 (by decide) (by decide))
  rintro hdist _ br₂ bs₂ rfl hat₂ -
  apply Agrees.bindExact (agrees_bits hat₂ 4 (by decide) (by decide))
  rintro hclen _ br₃ bs₃ rfl hat₃ -
  simp only
  by_cases hrange : hlit + 257 ≤ 286 ∧ hdist + 1 ≤ 30
  · rw [if_neg (by omega), if_pos hrange]
    apply Agrees.bindExact (agrees_readClLengths _ _ hat₃)
    rintro cl _ br₄ bs₄ rfl hat₄ -
    simp only
    rcases construct_cases cl with ⟨hcl, d, hd, himpl⟩ | ⟨hcl, e, hd, he⟩
    · rw [hd, if_pos hcl]
      apply Agrees.bindExact (agrees_readLengths himpl (Nat.zero_le _) (by simp) hat₄)
      rintro lens _ br₅ bs₅ rfl hat₅ -
      exact agrees_constructBoth _ _ _ hat₅
    · rw [hd, if_neg hcl]
      exact Agrees.fail he
  · rw [if_pos (by omega), if_neg hrange]
    exact Agrees.fail (by simp)

/-- The fixed codes are those of the reference. -/
theorem agrees_fixedCodes (hat : br.At input bs) :
    Agrees 0 input BothImplement (fixedCodes br) (readCodes 1 bs) := by
  have h := agrees_constructBoth fixedLiteralLengths fixedDistanceLengths 1 hat
  rwa [if_neg (by decide), if_pos ⟨by decide, prefixCode_fixed⟩] at h

/-! ## The symbol loop -/

/-- A decoded symbol leaves a reader that is ready for what follows it. -/
theorem DecodeSpec.ready {s : ℕ} {br' : BitReader} (hr : Ready br input bs n)
    (hspec : DecodeSpec lens br bs (.ok (s, br'))) :
    ∃ rest, Canonical.decode lens 15 bs = some (s, rest) ∧ Ready br' input rest (n - 15) ∧
      br'.bits ≤ 63 := by
  obtain ⟨k, hpos, hk15, hk, hdec, rfl⟩ := hspec
  exact ⟨_, hdec, (hr.consume hk).mono (by omega), hr.consume_bits_le hpos⟩

/-- With 28 bits, or all that remain, the distance is the reference's. -/
theorem agrees_distanceOf {dc : Huffman} {dists : List ℕ} (hdc : Implements dc dists)
    (hr : Ready br input bs 28) :
    Agrees 0 input Eq (distanceOf dc br) (readDistance dists bs) := by
  have hlength : DISTANCE_BASE.length = 30 := rfl
  have hspec := hdc.decodeBuffered_spec (hr.mono (by decide))
  unfold distanceOf readDistance
  cases hdec : decodeBuffered br dc with
  | error e =>
    rw [hdec] at hspec
    rw [hspec.2]
    exact Agrees.fail hspec.1
  | ok r =>
    obtain ⟨dsym, br₁⟩ := r
    rw [hdec] at hspec
    obtain ⟨mid, hsym, hready, hbits⟩ := hspec.ready hr
    simp only [hsym, bind, Except.bind, Option.bind_some, distance]
    by_cases hrange : dsym ≤ 29
    swap
    · rw [if_neg hrange, if_pos (by omega)]
      exact Agrees.fail (by simp)
    rw [if_pos hrange, if_neg (by omega)]
    simp only [Option.bind_some]
    have hextra := (distance_bounds (if_pos hrange)).2.2.1
    rcases hready.extraBits (DISTANCE_BASE.getD dsym 0) _ hextra with
      ⟨v, hread, hle, hok⟩ | ⟨hread, herr⟩
    · rw [hread, hok]
      refine Agrees.pure rfl ((hready.consume hle).at ?_)
      rw [BitReader.consume_bits]
      omega
    · rw [hread, herr]
      exact Agrees.fail (by simp)

/-- The meaning of a symbol in the loop's comparisons. -/
theorem litLen_cases (s : ℕ) :
    (s < 256 ∧ litLen s = .literal (UInt8.ofNat s)) ∨ (s = 256 ∧ litLen s = .endOfBlock) ∨
      (256 < s ∧ s - 257 < LENGTH_BASE.length ∧
        litLen s = .length (LENGTH_BASE.getD (s - 257) 0) (LENGTH_EXTRA.getD (s - 257) 0)) ∨
      (256 < s ∧ LENGTH_BASE.length ≤ s - 257 ∧ litLen s = .reserved) := by
  have hlength : LENGTH_BASE.length = 29 := rfl
  unfold litLen
  by_cases hlit : s < 256
  · exact Or.inl ⟨hlit, if_pos hlit⟩
  by_cases heob : s = 256
  · exact Or.inr (Or.inl ⟨heob, by rw [if_neg hlit, if_pos heob]⟩)
  by_cases hlen : s ≤ 285
  · exact Or.inr (Or.inr (Or.inl ⟨by omega, by omega,
      by rw [if_neg hlit, if_neg heob, if_pos hlen]⟩))
  · exact Or.inr (Or.inr (Or.inr ⟨by omega, by omega,
      by rw [if_neg hlit, if_neg heob, if_neg hlen]⟩))

/-- A copy is the reference's next token, or nothing can be decoded. -/
theorem copyMatch_cases {dc : Huffman} {lits dists : List ℕ} (hdc : Implements dc dists) {s : ℕ}
    {rest : List Bool} (hdec : Canonical.decode lits 15 bs = some (s, rest)) (hs : 256 < s)
    (hr : Ready br input rest 33) (out : List UInt8) :
    (∃ out' br' t mid, copyMatch dc s out br = .ok (out', br') ∧
      readToken lits dists bs = some (some t, mid) ∧ expandToken id out t = some out' ∧
      br'.At input mid) ∨
    (∃ e, copyMatch dc s out br = .error e ∧ e ≠ .outOfFuel ∧
      ∀ room rest' res, ¬Decodes room lits dists id bs out rest' res) := by
  have htoken := readToken_eq dists hdec
  unfold copyMatch lengthOf
  rcases litLen_cases s with ⟨hlt, -⟩ | ⟨heq, -⟩ | ⟨-, hidx, hsym⟩ | ⟨-, hidx, hsym⟩
  · omega
  · omega
  swap
  · rw [hsym] at htoken
    simp only [if_pos hidx]
    exact Or.inr ⟨_, rfl, by simp, fun _ _ _ => not_decodes_of_readToken htoken⟩
  rw [hsym] at htoken
  simp only [if_neg (not_le.mpr hidx)]
  generalize LENGTH_BASE.getD (s - 257) 0 = base at *
  generalize LENGTH_EXTRA.getD (s - 257) 0 = extra at *
  obtain ⟨-, -, hextra, -⟩ := litLen_length_bounds hsym
  rcases (hr.mono (m := 33) le_rfl).extraBits base extra (by omega) with
    ⟨v, hread, hle, hok⟩ | ⟨hread, herr⟩
  swap
  · rw [herr]
    simp only [bind, hread, Option.bind_none] at htoken
    exact Or.inr ⟨_, rfl, by simp, fun _ _ _ => not_decodes_of_readToken htoken⟩
  rw [hok]
  simp only [bind, Except.bind]
  simp only [bind, hread, Option.bind_some] at htoken
  have hdist := agrees_distanceOf hdc ((hr.consume hle).mono (m := 28) (by omega))
  cases hd : distanceOf dc (br.consume extra) with
  | error e =>
    refine Or.inr ⟨e, rfl, fun he => hdist.fuel (by rw [hd, he]), fun _ _ _ => ?_⟩
    apply not_decodes_of_readToken
    cases hrd : readDistance dists (rest.drop extra) with
    | none =>
      rw [hrd] at htoken
      exact htoken
    | some r =>
      obtain ⟨a, br', hok'⟩ := hdist.complete r.1 r.2 hrd (Nat.zero_le _)
      rw [hd] at hok'
      cases hok'
  | ok r =>
    obtain ⟨d, br₂⟩ := r
    obtain ⟨_, mid, hrd, rfl, hat⟩ := hdist.sound d br₂ hd
    rw [hrd] at htoken
    obtain ⟨-, -, hdpos, hdmax⟩ := readToken_bounds htoken
    simp only
    by_cases hfar : out.length < d
    · have hexpand : expandToken id out (.copy (base + v) d) = none := by
        rw [expandToken, if_neg (by omega)]
      rw [if_pos (Or.inr (Or.inr hfar))]
      exact Or.inr ⟨_, rfl, by simp, fun _ _ _ => not_decodes_of_expandToken htoken hexpand⟩
    · have hexpand : expandToken id out (.copy (base + v) d) =
          some (copyBackRaw out d (base + v)) := by
        rw [expandToken, if_pos ⟨hdpos, by omega⟩, copyBackRaw_eq hdpos (by omega)]
      rw [if_neg (by omega)]
      exact Or.inl ⟨_, br₂, _, mid, rfl, htoken, hexpand, hat⟩

/-- A round of the loop follows the tokens, whatever comes after them. -/
theorem roundSpec_round {lc dc : Huffman} {lits dists : List ℕ} (hlc : Implements lc lits)
    (hdc : Implements dc dists) (out : List UInt8) (hat : br.At input bs) :
    RoundSpec input 0 0 lits dists id bs out (round lc dc (out, br)) := by
  obtain ⟨p, hreads, rfl⟩ := hat.reads
  have hready := refillBelow_ready hreads 48 (by decide)
  have hspec := hlc.decodeBuffered_spec (hready.mono (by decide))
  unfold round
  cases hdec : decodeBuffered (refillBelow 48 br) lc with
  | error e =>
    rw [hdec] at hspec
    refine ⟨hspec.1, fun _ _ => not_decodes_of_readToken ?_⟩
    rw [readToken, hspec.2]
    rfl
  | ok r =>
    obtain ⟨s, br₁⟩ := r
    rw [hdec] at hspec
    obtain ⟨rest, hsym, hready₁, hbits⟩ := hspec.ready hready
    have htoken := readToken_eq dists hsym
    simp only
    by_cases hlit : s < 256
    · have hlits : litLen s = .literal (UInt8.ofNat s) := if_pos hlit
      rw [hlits] at htoken
      rw [if_pos hlit]
      exact ⟨_, rest, by simp, Steps.single htoken, rfl, hready₁.at hbits⟩
    rw [if_neg hlit]
    by_cases heob : s = 256
    · have hlits : litLen s = .endOfBlock := by rw [litLen, if_neg hlit, if_pos heob]
      rw [hlits] at htoken
      rw [if_pos heob]
      exact ⟨rest, ⟨[], .stop htoken (Nat.zero_le _), rfl⟩, hready₁.at hbits⟩
    rw [if_neg heob]
    have hgt : 256 < s := by omega
    have hcopy := copyMatch_cases hdc hsym hgt hready₁ out
    generalize copyMatch dc s out br₁ = step at hcopy ⊢
    rcases hcopy with ⟨out', br₂, t, mid, rfl, htoken', hexpand, hat₂⟩ | ⟨e, rfl, he, hnone⟩
    · exact ⟨[t], mid, by simp, Steps.single htoken', by rw [expand_cons, hexpand]; rfl, hat₂⟩
    · exact ⟨he, fun rest res => hnone 0 rest res⟩

/-- The symbol loop decodes as the reference does. -/
theorem loopSpec_codes {lc dc : Huffman} {lits dists : List ℕ} (hlc : Implements lc lits)
    (hdc : Implements dc dists) (out : List UInt8) (hat : br.At input bs) :
    LoopSpec input 0 0 lits dists id bs out (codes lc dc out br) := by
  have hle := hat.length_le
  apply loopSpec_iterate (fun out br bs hat => roundSpec_round hlc hdc out hat) hat
  rw [hat.input_eq]
  omega

/-! ## Blocks and streams -/

/-- The contents of a block are decoded as in the reference. -/
theorem contentsFollows_contents (btype : ℕ) (out : List UInt8) (hat : br.At input bs) :
    ContentsFollows 0 0 id (Stands Eq input) btype bs out (contents btype out br) := by
  have hloop : ∀ (trees : Huffman × Huffman) (lits dists : List ℕ) (br : BitReader)
      (rest : List Bool), BothImplement trees (lits, dists) → br.At input rest →
      lits.length ≤ 288 → LoopFollows 0 0 lits dists id (Stands Eq input) rest out
        ((fun r : (Huffman × Huffman) × BitReader => codes r.1.1 r.1.2 out r.2) (trees, br)) :=
    fun _ _ _ _ _ himpl hat _ => (loopSpec_codes himpl.1 himpl.2 out hat).follows
  unfold contents fixed dynamic
  by_cases hstored : btype = 0
  · rw [if_pos hstored]
    subst btype
    apply contentsFollows_stored
    simpa only [List.map_id] using agrees_stored out hat
  rw [if_neg hstored]
  by_cases hfixed : btype = 1
  · rw [if_pos hfixed]
    subst btype
    have hcodes := agrees_fixedCodes hat
    generalize fixedCodes br = step at hcodes ⊢
    exact contentsFollows_compressed hstored hcodes le_rfl hloop
  rw [if_neg hfixed]
  by_cases hdynamic : btype = 2
  · rw [if_pos hdynamic]
    subst btype
    have hcodes := agrees_dynamicCodes hat
    generalize dynamicCodes br = step at hcodes ⊢
    exact contentsFollows_compressed hstored hcodes le_rfl hloop
  · have hcodes : readCodes btype bs = none := by
      rw [readCodes, if_neg hfixed, if_neg hdynamic]
    rw [if_neg hdynamic]
    refine ⟨by simp, ?_⟩
    rintro rest res (⟨hzero, -⟩ | ⟨_, _, _, hread, -⟩)
    · exact hstored hzero
    · rw [hcodes] at hread
      cases hread

/-- A block is decoded as in the reference. -/
theorem decodesBlocks_block : DecodesBlocks 0 0 block := by
  intro input out br bs hat
  exact blockSpec_of_contents bits contents
    (fun n _ _ hpos hn hat => agrees_bits hat n hpos (by omega))
    (fun btype out _ _ hat => contentsFollows_contents btype out hat) out hat

/-- The whole bytes up to the end of a bit position. -/
theorem consumed_eq (hat : br.At input bs) :
    br.bytePos - br.bits / 8 = (8 * input.length - bs.length + 7) / 8 := by
  obtain ⟨p, hreads, rfl⟩ := hat.reads
  have htell := hreads.acc.tell
  have hpos := hreads.pos_le
  rw [List.length_drop, bits_length]
  omega

/-- The safe decoder decodes exactly the reference's streams, whatever follows them. -/
theorem inflateInto_spec (input out : List UInt8) :
    match inflateInto input out with
    | .error e => e ≠ .outOfFuel ∧
        ∀ ts rest, Stream 0 (LsbBits.bits input) ts rest → expand id out ts = none
    | .ok (n, res) => ∃ ts rest, Stream 0 (LsbBits.bits input) ts rest ∧
        expand id out ts = some res ∧ n = (8 * input.length - rest.length + 7) / 8 := by
  have hspec := streamSpec_blocksWith decodesBlocks_block out (BitReader.new_at input)
  unfold inflateInto
  revert hspec
  cases blocksWith block (fun _ => false) out (BitReader.new input) with
  | error e => exact id
  | ok r =>
    obtain ⟨⟨f, res⟩, br⟩ := r
    rintro ⟨ts, rest, hstream, hexpand, hat⟩
    exact ⟨ts, rest, hstream, hexpand, consumed_eq hat⟩

end SafeInflate

end RustyRapidgzip
