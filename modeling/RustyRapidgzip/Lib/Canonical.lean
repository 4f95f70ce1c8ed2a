import RustyRapidgzip.Lib.Bits
import Mathlib.Data.List.Nodup
import Mathlib.Data.List.Range

/-!
# Canonical prefix codes

A list of code lengths determines a prefix code: shorter codewords come first,
codewords of one length follow the order of the symbols, and each codeword is
sent most significant bit first. A length of zero means that the symbol is
unused. The decoder below reads one bit at a time. When the lengths satisfy the
Kraft inequality it inverts the code, so no codeword is a prefix of another.
-/

namespace Canonical

open LsbBits

/-- The `n` low bits of `c`, most significant first. -/
def msb : ℕ → ℕ → List Bool
  | 0, _ => []
  | n + 1, c => c.testBit n :: msb n c

/-- How many of the `2 ^ l` words of length `l` start with a codeword of length at most `l`. -/
def filled (lens : List ℕ) : ℕ → ℕ
  | 0 => 0
  | l + 1 => 2 * filled lens l + lens.count (l + 1)

/-- The first codeword of each length, as a number. -/
def firstCode (lens : List ℕ) (l : ℕ) : ℕ := 2 * filled lens (l - 1)

/-- The codeword of a symbol, as a number. -/
def code (lens : List ℕ) (s : ℕ) : ℕ :=
  firstCode lens (lens.getD s 0) + (lens.take s).count (lens.getD s 0)

/-- The codeword of a symbol, in the order its bits are sent. -/
def codeword (lens : List ℕ) (s : ℕ) : List Bool := msb (lens.getD s 0) (code lens s)

/-- The symbols with codewords of length `l`, in order. -/
def ordered (lens : List ℕ) (l : ℕ) : List ℕ :=
  (List.range lens.length).filter (fun s => lens.getD s 0 = l)

/-- The symbol whose codeword has length `l` and value `c`, if there is one. -/
def symbolOf (lens : List ℕ) (l c : ℕ) : Option ℕ :=
  (List.range lens.length).find? (fun s => lens.getD s 0 = l ∧ code lens s = c)

/-- Read bits until they form a codeword, `l` bits with value `c` having been read. -/
def decodeFrom (lens : List ℕ) : ℕ → ℕ → ℕ → List Bool → Option (ℕ × List Bool)
  | 0, _, _, _ => none
  | _ + 1, _, _, [] => none
  | k + 1, l, c, b :: bs =>
    match symbolOf lens (l + 1) (2 * c + b.toNat) with
    | some s => some (s, bs)
    | none => decodeFrom lens k (l + 1) (2 * c + b.toNat) bs

/-- Decode one symbol from a code of at most `maxLen` bits. -/
def decode (lens : List ℕ) (maxLen : ℕ) (bs : List Bool) : Option (ℕ × List Bool) :=
  decodeFrom lens maxLen 0 0 bs

/-- The Kraft inequality for codewords of at most `maxLen` bits. -/
def Kraft (lens : List ℕ) (maxLen : ℕ) : Prop := filled lens maxLen ≤ 2 ^ maxLen

/-- Kraft's inequality is a comparison of numbers. -/
instance (lens : List ℕ) (maxLen : ℕ) : Decidable (Kraft lens maxLen) :=
  inferInstanceAs (Decidable (_ ≤ _))

/-! ## Most significant bit first words -/

/-- A word has the length that is asked for. -/
@[simp] theorem msb_length (n c : ℕ) : (msb n c).length = n := by
  induction n with
  | zero => rfl
  | succ n ih => simp [msb, ih]

/-- The bits of a word are those of its number, the highest one first. -/
theorem getElem_msb {n c i : ℕ} (hi : i < (msb n c).length) :
    (msb n c)[i] = c.testBit (n - 1 - i) := by
  induction n generalizing i with
  | zero => simp [msb] at hi
  | succ n ih =>
    cases i with
    | zero => simp [msb]
    | succ i =>
      simp only [msb, List.getElem_cons_succ]
      rw [ih]
      congr 1
      omega

/-- Only the `n` low bits are sent. -/
theorem msb_mod (n c : ℕ) : msb n (c % 2 ^ n) = msb n c := by
  apply List.ext_getElem
  · simp
  · intro i hi _
    rw [msb_length] at hi
    rw [getElem_msb, getElem_msb, Nat.testBit_mod_two_pow]
    simp
    omega

/-- The last bit sent is the lowest one. -/
theorem msb_succ (n c : ℕ) : msb (n + 1) c = msb n (c / 2) ++ [c.testBit 0] := by
  induction n generalizing c with
  | zero => simp [msb]
  | succ n ih => rw [msb, ih, msb, List.cons_append, Nat.testBit_succ]

/-- Shifting out one bit less keeps one more. -/
theorem shiftRight_eq_two_mul_add (c n : ℕ) :
    c >>> n = 2 * (c >>> (n + 1)) + (c.testBit n).toNat := by
  have hbit : (c.testBit n).toNat = c >>> n % 2 := by
    rw [Nat.testBit, Nat.one_and_eq_mod_two]
    rcases Nat.mod_two_eq_zero_or_one (c >>> n) with h | h <;> simp [h]
  rw [hbit, Nat.shiftRight_succ]
  omega

/-- The carry of a bit-reversed increment: clear set bits from the given one
downwards and set the first clear one. -/
def carry : ℕ → ℕ → ℕ → ℕ
  | 0, rev, bit => rev ||| bit
  | rounds + 1, rev, bit =>
    if rev &&& bit ≠ 0 then carry rounds (rev ^^^ bit) (bit >>> 1) else rev ||| bit

/-- The number of a word is less than the power of its length. -/
private theorem ofLsb_msb_lt (n c : ℕ) : ofLsb (msb n c) < 2 ^ n := by
  simpa using ofLsb_lt (msb n c)

/-- The carry increments the number whose bits are read most significant first. -/
theorem carry_msb (n c : ℕ) : carry n (ofLsb (msb n c)) (2 ^ n / 2) = ofLsb (msb n (c + 1)) := by
  induction n generalizing c with
  | zero => simp [carry, msb]
  | succ n ih =>
    have hlt := ofLsb_msb_lt n (c / 2)
    have hhalf : 2 ^ (n + 1) / 2 = 2 ^ n := by rw [pow_succ]; omega
    have hrev : ofLsb (msb (n + 1) c) =
        2 ^ n * (c.testBit 0).toNat + ofLsb (msb n (c / 2)) := by
      rw [msb_succ, ofLsb_append, msb_length]
      simp only [ofLsb_cons, ofLsb_nil]
      ring
    have hnext (h : (c + 1).testBit 0 = !c.testBit 0) : ofLsb (msb (n + 1) (c + 1)) =
        2 ^ n * (!c.testBit 0).toNat + ofLsb (msb n ((c + 1) / 2)) := by
      rw [msb_succ, ofLsb_append, msb_length, h]
      simp only [ofLsb_cons, ofLsb_nil]
      ring
    rw [carry, hhalf, hrev]
    cases hbit : c.testBit 0 with
    | false =>
      have heven : c % 2 = 0 := by simpa [Nat.testBit_zero] using hbit
      have hflip : (c + 1).testBit 0 = !c.testBit 0 := by
        rw [hbit, Nat.testBit_zero]
        simp
        omega
      have hdiv : (c + 1) / 2 = c / 2 := by omega
      have hclear : ofLsb (msb n (c / 2)) &&& 2 ^ n = 0 := by
        rw [Nat.and_two_pow, Nat.testBit_lt_two_pow hlt, Bool.toNat_false, Nat.zero_mul]
      have hor : ofLsb (msb n (c / 2)) ||| 2 ^ n = 2 ^ n * 1 + ofLsb (msb n (c / 2)) := by
        rw [Nat.or_comm, Nat.two_pow_add_eq_or_of_lt hlt, Nat.mul_one]
      rw [hnext hflip, hbit, hdiv]
      simp [hclear, hor]
    | true =>
      have hodd : c % 2 = 1 := by simpa [Nat.testBit_zero] using hbit
      have hflip : (c + 1).testBit 0 = !c.testBit 0 := by
        rw [hbit, Nat.testBit_zero]
        simp
        omega
      have hdiv : (c + 1) / 2 = c / 2 + 1 := by omega
      have hset : (2 ^ n + ofLsb (msb n (c / 2))) &&& 2 ^ n ≠ 0 := by
        rw [Nat.and_two_pow, Nat.testBit_two_pow_add_eq, Nat.testBit_lt_two_pow hlt]
        simp
      have hxor : (2 ^ n + ofLsb (msb n (c / 2))) ^^^ 2 ^ n = ofLsb (msb n (c / 2)) := by
        apply Nat.eq_of_testBit_eq
        intro i
        rw [Nat.testBit_xor, Nat.testBit_two_pow]
        by_cases hi : n = i
        · subst i
          rw [Nat.testBit_two_pow_add_eq, Nat.testBit_lt_two_pow hlt]
          simp
        · rw [show 2 ^ n + ofLsb (msb n (c / 2)) = 2 ^ n * 1 + ofLsb (msb n (c / 2)) by ring,
            Nat.testBit_two_pow_mul_add _ hlt]
          by_cases hin : i < n
          · simp [hi, hin]
          · have hge : 2 ^ n ≤ 2 ^ i := Nat.pow_le_pow_right (by decide) (by omega)
            have hone : (1 : ℕ).testBit (i - n) = false := by
              apply Nat.testBit_lt_two_pow
              exact Nat.one_lt_two_pow (by omega)
            rw [if_neg hin, hone, Nat.testBit_lt_two_pow (Nat.lt_of_lt_of_le hlt hge)]
            simp [hi]
      rw [hnext hflip, hbit, hdiv]
      simp only [Bool.toNat_true, Nat.mul_one, Bool.not_true, Bool.toNat_false, Nat.mul_zero,
        Nat.zero_add]
      rw [if_pos hset, hxor, show 2 ^ n >>> 1 = 2 ^ n / 2 from Nat.shiftRight_one _, ih]

/-! ## The order of the codewords -/

/-- The fraction of words used never shrinks. -/
theorem filled_mul_le (lens : List ℕ) (l k : ℕ) : filled lens l * 2 ^ k ≤ filled lens (l + k) := by
  induction k with
  | zero => simp
  | succ k ih =>
    rw [← Nat.add_assoc, filled, pow_succ, ← Nat.mul_assoc]
    omega

/-- The Kraft inequality bounds the codewords of every length. -/
theorem Kraft.filled_le {lens : List ℕ} {maxLen l : ℕ} (h : Kraft lens maxLen) (hl : l ≤ maxLen) :
    filled lens l ≤ 2 ^ l := by
  obtain ⟨k, rfl⟩ := Nat.exists_eq_add_of_le hl
  have hle := Nat.le_trans (filled_mul_le lens l k) h
  rw [Nat.pow_add] at hle
  exact Nat.le_of_mul_le_mul_right hle (Nat.two_pow_pos k)

/-- Counting a length in a prefix that continues with it. -/
theorem count_take_succ {lens : List ℕ} {s l : ℕ} (hs : s < lens.length) :
    (lens.take (s + 1)).count l =
      (lens.take s).count l + if lens.getD s 0 = l then 1 else 0 := by
  rw [List.take_succ_eq_append_getElem hs, List.count_append]
  congr 1
  rw [List.count_singleton]
  simp [hs]

/-- A longer beginning has no fewer symbols of a length. -/
theorem count_take_mono (lens : List ℕ) (l : ℕ) {s t : ℕ} (h : s ≤ t) :
    (lens.take s).count l ≤ (lens.take t).count l := by
  have hpre : lens.take s = (lens.take t).take s := by
    rw [List.take_take, Nat.min_eq_left h]
  rw [hpre]
  exact List.Sublist.count_le _ (List.take_sublist _ _)

/-- A symbol precedes the later symbols of its own length. -/
theorem count_take_lt {lens : List ℕ} {s t : ℕ} (hs : s < lens.length) (hst : s < t) :
    (lens.take s).count (lens.getD s 0) < (lens.take t).count (lens.getD s 0) := by
  have hsucc := count_take_succ (l := lens.getD s 0) hs
  have hmono := count_take_mono lens (lens.getD s 0) (show s + 1 ≤ t from hst)
  rw [if_pos rfl] at hsucc
  omega

/-- Codewords of one length differ. -/
theorem code_inj {lens : List ℕ} {s t : ℕ} (hs : s < lens.length) (ht : t < lens.length)
    (hlen : lens.getD s 0 = lens.getD t 0) (hcode : code lens s = code lens t) : s = t := by
  unfold code at hcode
  rw [hlen] at hcode
  rcases Nat.lt_trichotomy s t with hlt | heq | hgt
  · have h := count_take_lt hs hlt
    rw [hlen] at h
    omega
  · exact heq
  · have h := count_take_lt ht hgt
    omega

/-- A codeword lies below the words filled at its length. -/
theorem code_lt_filled {lens : List ℕ} {s : ℕ} (hs : s < lens.length)
    (hpos : 0 < lens.getD s 0) : code lens s < filled lens (lens.getD s 0) := by
  have hlt := count_take_lt hs hs
  rw [List.take_length] at hlt
  obtain ⟨l, hl⟩ : ∃ l, lens.getD s 0 = l + 1 := ⟨lens.getD s 0 - 1, by omega⟩
  unfold code firstCode
  rw [hl] at hlt ⊢
  simp only [filled, Nat.add_sub_cancel]
  omega

/-- Every shorter word that starts a codeword is already past the filled words of its length. -/
theorem filled_le_code_shiftRight {lens : List ℕ} {s n : ℕ}
    (hn : 0 < n) (hlen : n ≤ lens.getD s 0) :
    filled lens (lens.getD s 0 - n) ≤ code lens s >>> n := by
  rw [Nat.shiftRight_eq_div_pow, Nat.le_div_iff_mul_le (Nat.two_pow_pos n)]
  have hstep := filled_mul_le lens (lens.getD s 0 - n) (n - 1)
  have hsum : lens.getD s 0 - n + (n - 1) = lens.getD s 0 - 1 := by omega
  have hpow : 2 ^ n = 2 * 2 ^ (n - 1) := by
    rw [← pow_succ', Nat.sub_add_cancel hn]
  rw [hsum] at hstep
  rw [hpow, Nat.mul_left_comm]
  unfold code firstCode
  omega

/-- The numbers below a bound, at one of them. -/
private theorem range_split {s n : ℕ} (hs : s < n) :
    List.range n = List.range s ++ s :: List.range' (s + 1) (n - (s + 1)) := by
  have happ := List.range'_append_1 (s := 0) (m := s) (n := n - s)
  rw [Nat.zero_add, show s + (n - s) = n by omega] at happ
  rw [List.range_eq_range', List.range_eq_range', ← List.range'_succ,
    show n - (s + 1) + 1 = n - s by omega, happ]

/-- The symbol of a codeword of its length is found. -/
theorem symbolOf_code {lens : List ℕ} {s : ℕ} (hs : s < lens.length) :
    symbolOf lens (lens.getD s 0) (code lens s) = some s := by
  unfold symbolOf
  rw [List.find?_eq_some_iff_append]
  refine ⟨by simp, List.range s, List.range' (s + 1) (lens.length - (s + 1)), range_split hs, ?_⟩
  intro t ht
  have hts : t < s := by simpa using ht
  simp only [Bool.not_eq_true', decide_eq_false_iff_not, not_and]
  intro hlen hcode
  have := code_inj (by omega) hs hlen hcode
  omega

/-- A found symbol has the length and the codeword asked for. -/
theorem symbolOf_some {lens : List ℕ} {l c s : ℕ} (h : symbolOf lens l c = some s) :
    s < lens.length ∧ lens.getD s 0 = l ∧ code lens s = c := by
  have hmem := List.mem_of_find?_eq_some h
  have hprop := List.find?_some h
  exact ⟨by simpa using hmem, by simpa using hprop⟩

/-- Past the filled words of a length there is no codeword of that length. -/
theorem symbolOf_none {lens : List ℕ} {l c : ℕ} (hl : 0 < l) (hc : filled lens l ≤ c) :
    symbolOf lens l c = none := by
  cases h : symbolOf lens l c with
  | none => rfl
  | some s =>
    obtain ⟨hs, hlen, hcode⟩ := symbolOf_some h
    have hlt := code_lt_filled hs (by omega)
    rw [hlen, hcode] at hlt
    omega

/-! ## Decoding inverts the code -/

/-- What the decoder reads is the rest of a codeword that begins with what was read before. -/
theorem decodeFrom_some {lens : List ℕ} {k l c s : ℕ} {bs rest : List Bool}
    (h : decodeFrom lens k l c bs = some (s, rest)) :
    ∃ n, 1 ≤ n ∧ n ≤ k ∧ s < lens.length ∧ lens.getD s 0 = l + n ∧
      bs = msb n (code lens s) ++ rest ∧ code lens s >>> n = c := by
  induction k generalizing l c bs with
  | zero => simp [decodeFrom] at h
  | succ k ih =>
    cases bs with
    | nil => simp [decodeFrom] at h
    | cons b bs =>
      rw [decodeFrom] at h
      cases hsym : symbolOf lens (l + 1) (2 * c + b.toNat) with
      | some t =>
        rw [hsym] at h
        simp only [Option.some.injEq, Prod.mk.injEq] at h
        obtain ⟨rfl, rfl⟩ := h
        obtain ⟨hs, hlen, hcode⟩ := symbolOf_some hsym
        refine ⟨1, le_rfl, by omega, hs, hlen, ?_, ?_⟩
        · rw [hcode]
          cases b <;> simp [msb]
        · rw [hcode, Nat.shiftRight_one]
          cases b with
          | false => simp
          | true =>
            simp
            omega
      | none =>
        rw [hsym] at h
        obtain ⟨n, hn, hnk, hs, hlen, hbs, hcode⟩ := ih h
        have hshift := shiftRight_eq_two_mul_add (code lens s) n
        have hbit := Bool.toNat_le b
        have hbit' := Bool.toNat_le ((code lens s).testBit n)
        have hnat : ((code lens s).testBit n).toNat = b.toNat := by omega
        have hb : (code lens s).testBit n = b := by
          cases hc : (code lens s).testBit n <;> cases b <;> simp_all
        refine ⟨n + 1, by omega, by omega, hs, by omega, ?_, by omega⟩
        rw [msb, hb, hbs, List.cons_append]

/-- Reading the rest of a codeword finds its symbol. -/
theorem decodeFrom_codeword {lens : List ℕ} {k s n : ℕ} (rest : List Bool) (hs : s < lens.length)
    (hn : 1 ≤ n) (hnk : n ≤ k) (hlen : n ≤ lens.getD s 0) :
    decodeFrom lens k (lens.getD s 0 - n) (code lens s >>> n) (msb n (code lens s) ++ rest) =
      some (s, rest) := by
  induction k generalizing n with
  | zero => omega
  | succ k ih =>
    obtain ⟨m, rfl⟩ : ∃ m, n = m + 1 := ⟨n - 1, by omega⟩
    have hread : 2 * code lens s >>> (m + 1) + ((code lens s).testBit m).toNat =
        code lens s >>> m := (shiftRight_eq_two_mul_add _ _).symm
    have hnext : lens.getD s 0 - (m + 1) + 1 = lens.getD s 0 - m := by omega
    rw [msb, List.cons_append, decodeFrom, hread, hnext]
    by_cases hm : m = 0
    · subst m
      rw [Nat.sub_zero, Nat.shiftRight_zero, symbolOf_code hs, msb, List.nil_append]
    · rw [symbolOf_none (by omega) (filled_le_code_shiftRight (by omega) (by omega))]
      exact ih (by omega) (by omega) (by omega)

/-- Decoding a used symbol's codeword returns the symbol. -/
theorem decode_codeword {lens : List ℕ} {maxLen s : ℕ} (hkraft : Kraft lens maxLen)
    (rest : List Bool) (hs : s < lens.length) (hpos : 0 < lens.getD s 0)
    (hlen : lens.getD s 0 ≤ maxLen) :
    decode lens maxLen (codeword lens s ++ rest) = some (s, rest) := by
  have hlt := Nat.lt_of_lt_of_le (code_lt_filled hs hpos) (hkraft.filled_le hlen)
  have hzero : code lens s >>> lens.getD s 0 = 0 := by
    rw [Nat.shiftRight_eq_div_pow, Nat.div_eq_of_lt hlt]
  have h := decodeFrom_codeword (k := maxLen) (n := lens.getD s 0) rest hs hpos hlen le_rfl
  rwa [Nat.sub_self, hzero] at h

/-- Whatever is decoded was a codeword. -/
theorem decode_some {lens : List ℕ} {maxLen s : ℕ} {bs rest : List Bool}
    (h : decode lens maxLen bs = some (s, rest)) :
    s < lens.length ∧ 0 < lens.getD s 0 ∧ lens.getD s 0 ≤ maxLen ∧
      bs = codeword lens s ++ rest := by
  obtain ⟨n, hn, hnk, hs, hlen, hbs, -⟩ := decodeFrom_some h
  rw [Nat.zero_add] at hlen
  exact ⟨hs, by omega, by omega, by rw [codeword, hlen]; exact hbs⟩

/-- A codeword is as long as its symbol's length says. -/
@[simp] theorem codeword_length (lens : List ℕ) (s : ℕ) :
    (codeword lens s).length = lens.getD s 0 := msb_length _ _

/-! ## Symbols in codeword order -/

/-- The symbols of a length, in order. -/
theorem mem_ordered {lens : List ℕ} {l s : ℕ} :
    s ∈ ordered lens l ↔ s < lens.length ∧ lens.getD s 0 = l := by
  simp [ordered]

/-- The number of symbols of a length before a symbol. -/
theorem length_filter_range (lens : List ℕ) (l : ℕ) {s : ℕ} (hs : s ≤ lens.length) :
    ((List.range s).filter (fun t => lens.getD t 0 = l)).length = (lens.take s).count l := by
  induction s with
  | zero => simp
  | succ s ih =>
    rw [List.range_succ, List.filter_append, List.length_append, ih (by omega),
      count_take_succ (by omega)]
    congr 1
    by_cases h : lens.getD s 0 = l
    · rw [List.filter_cons_of_pos (by simpa using h), if_pos h]
      rfl
    · rw [List.filter_cons_of_neg (by simpa using h), if_neg h]
      rfl

/-- There are as many symbols of a length as the lengths count. -/
theorem ordered_length (lens : List ℕ) (l : ℕ) : (ordered lens l).length = lens.count l := by
  have h := length_filter_range lens l (s := lens.length) le_rfl
  rwa [List.take_length] at h

/-- The `i`-th symbol of a length has the `i`-th codeword of that length. -/
theorem code_ordered {lens : List ℕ} {l i : ℕ} (hi : i < (ordered lens l).length) :
    code lens (ordered lens l)[i] = firstCode lens l + i := by
  have hmem := mem_ordered.mp (List.getElem_mem hi)
  generalize hs : (ordered lens l)[i] = s at hmem ⊢
  obtain ⟨hslt, hslen⟩ := hmem
  unfold code
  rw [hslen, ← length_filter_range lens l (by omega)]
  have hsplit : ordered lens l =
      (List.range s).filter (fun t => lens.getD t 0 = l) ++
        s :: (List.range' (s + 1) (lens.length - (s + 1))).filter
          (fun t => lens.getD t 0 = l) := by
    rw [ordered, range_split hslt, List.filter_append,
      List.filter_cons_of_pos (by simpa using hslen)]
  have hnodup : (ordered lens l).Nodup := List.nodup_range.filter _
  set k := ((List.range s).filter (fun t => lens.getD t 0 = l)).length with hk
  have hklt : k < (ordered lens l).length := by
    rw [hsplit, List.length_append, List.length_cons]
    omega
  have hks : (ordered lens l)[k] = s := by
    simp only [hsplit]
    rw [List.getElem_append_right (by omega)]
    simp [hk]
  have heq : (ordered lens l)[i] = (ordered lens l)[k] := by rw [hs, hks]
  have hik := hnodup.getElem_inj_iff.mp heq
  omega

/-- From the first codeword of a length on, the codewords name the symbols in order. -/
theorem symbolOf_eq_getElem? {lens : List ℕ} {l c : ℕ} (hc : firstCode lens l ≤ c) :
    symbolOf lens l c = (ordered lens l)[c - firstCode lens l]? := by
  by_cases hlt : c - firstCode lens l < (ordered lens l).length
  · have hcode := code_ordered hlt
    obtain ⟨hs, hlen⟩ := mem_ordered.mp (List.getElem_mem hlt)
    have hfind := symbolOf_code hs
    rw [hlen, hcode, Nat.add_sub_cancel' hc] at hfind
    rw [hfind, List.getElem?_eq_getElem hlt]
  · rw [List.getElem?_eq_none (by omega)]
    cases hsym : symbolOf lens l c with
    | none => rfl
    | some s =>
      obtain ⟨hs, hlen, hcode⟩ := symbolOf_some hsym
      obtain ⟨i, hi, hget⟩ := List.getElem_of_mem (mem_ordered.mpr ⟨hs, hlen⟩)
      have hcode' := code_ordered hi
      rw [hget, hcode] at hcode'
      omega

end Canonical
